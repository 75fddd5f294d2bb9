import Cupp.Accounting
import Cupp.Operations
import Cupp.PoolSet

/-!
# The address server

What the plugin is for, without tables, pointers and bitmaps : a server with a book of leases, a
list of fixed addresses, and a range. A login is answered from the lease its user has, else with
the fixed address of the user, else with the first address of the range that nobody has
(`AddressServer.acquire`). A release strikes a lease out, and a moment later gives its address back.

`World.Shows` relates the threads of the allocator to such a server. Each critical section is
answered by a step of the server with the same answer (`Shows.step`), so that nobody who calls the
plugin can tell it from the server, however its threads interleave (`server_of_run`).
-/

set_option linter.unusedSectionVars false

open Transition

namespace Cupp

/-! ## The server -/

/-- What the plugin is for : users with leases in a book, and a range to lend addresses from. -/
@[ext]
structure AddressServer where
  fixed : CString → Option Host
  range : List Host
  poolName : CString
  leaseTimeout : UInt32
  book : Book
  /-- Addresses of leases that have been struck out, which are not given back yet. -/
  returning : Set Host

/-- The IPv4 addresses from `start` to `end_`, in order. -/
def hostRange (start end_ : Host) : List Host :=
  if start.isInet && end_.isInet then
    (List.range' (hostToU32 start).toNat
      ((hostToU32 end_).toNat + 1 - (hostToU32 start).toNat)).map fun i => u32ToHost (.ofNat i)
  else []

/-- What is asked of the server, and addresses that come back. -/
inductive ServerEvent
  | acquire (pools : Option (List (Option CString))) (ikeSa : Option IkeSa) (now : ℤ)
      (answer : Option Host)
  | strike (uid : UInt32)
  | giveBack (ip : Host)
  | reload (file : PolicyFile)

namespace AddressServer

/-- A server without leases. -/
def start (policy : PolicyEngine) (poolName : CString) (leaseTimeout : UInt32) :
    AddressServer where
  fixed := policy.lookupFixed
  range := (policy.getPool.map fun ends => hostRange ends.1 ends.2).getD []
  poolName := poolName
  leaseTimeout := leaseTimeout
  book _ := none
  returning := ∅

/-- The addresses of the range that are in a lease. -/
def lent (t : AddressServer) : Set Host :=
  {ip | ∃ n l, t.book n = some l ∧ l.fixed = false ∧ l.ip = ip}

/-- The addresses of the range that somebody has. -/
def taken (t : AddressServer) : Set Host :=
  t.lent ∪ t.returning

open Classical in
/-- The first address of the range that nobody has. -/
noncomputable def firstFree (t : AddressServer) : Option Host :=
  t.range.find? fun ip => ip ∉ t.taken

/-- The address for a user without a lease, and whether it is fixed. -/
noncomputable def newAddress (t : AddressServer) (n : CString) : Option (Host × Bool) :=
  match if isAnon n then none else t.fixed n with
  | some ip => some (ip, true)
  | none => t.firstFree.map fun ip => (ip, false)

/-- A login renews the lease of its user, or enters a new one. -/
noncomputable def login (t : AddressServer) (ikeSa : IkeSa) (now : ℤ) :
    Option Host × AddressServer :=
  let n := sessionName ikeSa
  match t.book n with
  | some l => (some l.ip, { t with book := t.book.renew n ikeSa.uniqueId now })
  | none =>
    match t.newAddress n with
    | some (ip, fixed) =>
      (some ip, { t with book := t.book.enter ⟨n, ikeSa.uniqueId, ip, fixed, now⟩ })
    | none => (none, t)

/-- A login is for this server if it names its pool. -/
noncomputable def acquire (t : AddressServer) (pools : Option (List (Option CString)))
    (ikeSa : Option IkeSa) (now : ℤ) : Option Host × AddressServer :=
  match ikeSa with
  | some ikeSa => if some t.poolName ∈ pools.getD [] then t.login ikeSa now else (none, t)
  | none => (none, t)

/-- Strike out what is recorded under a unique id. -/
def strike (t : AddressServer) (u : UInt32) : AddressServer :=
  { t with
    book := t.book.strike u
    returning := t.returning ∪
      {ip | ∃ n l, t.book n = some l ∧ l.uniqueId = u ∧ l.fixed = false ∧ l.ip = ip} }

/-- An address comes back and can be lent again. -/
def giveBack (t : AddressServer) (ip : Host) : AddressServer :=
  { t with returning := t.returning \ {ip} }

/-- A policy that loads sets the fixed addresses. -/
def reload (parse : CString → Option Host) (t : AddressServer) (file : PolicyFile) :
    AddressServer :=
  match snapshotLoad parse file with
  | some fresh => { t with fixed := fresh.fixed.lookup }
  | none => t

/-- One step of the server. -/
def Step (parse : CString → Option Host) (t : AddressServer) :
    ServerEvent → AddressServer → Prop
  | .acquire pools ikeSa now answer, t' => t.acquire pools ikeSa now = (answer, t')
  | .strike u, t' => t' = t.strike u
  | .giveBack ip, t' => ip ∈ t.returning ∧ t' = t.giveBack ip
  | .reload file, t' => t' = t.reload parse file

/-- Runs of the server. -/
abbrev Run (parse : CString → Option Host) :
    AddressServer → List ServerEvent → AddressServer → Prop :=
  Transition.Run (Step parse) fun _ _ _ => True

end AddressServer

/-! ## What is seen from outside -/

/-- Nobody sees when an address comes back. -/
def ServerEvent.shown : ServerEvent → Option ServerEvent
  | giveBack _ => none
  | e => some e

/-- The call a critical section belongs to, with its answer. -/
def CriticalSection.shown : CriticalSection → Option ServerEvent
  | acquire call (.done answer) => some (.acquire call.pools call.ikeSa call.now answer)
  | acquire _ .rollback => none
  | unbind uid => some (.strike uid)
  | finish _ => none
  | reload file => some (.reload file)

/-- The addresses of the allocator's pool. -/
def IpAllocator.poolAddresses (s : IpAllocator) : List Host :=
  (s.dyn.map DynamicPool.addresses).getD []

/-- The server `t` is what the threads `w` are for. -/
structure World.Shows (w : World) (t : AddressServer) : Prop where
  fixed : t.fixed = w.alloc.policy.lookupFixed
  range : t.range = w.alloc.poolAddresses
  poolName : t.poolName = w.alloc.poolName
  leaseTimeout : t.leaseTimeout = w.alloc.leaseTimeout
  book : t.book = w.alloc.lease
  returning : t.returning = {ip | ∃ r ∈ w.pending, (w.alloc.sessions.obj r).fixed = false ∧
    (w.alloc.sessions.obj r).ip = ip}

variable {parse : CString → Option Host} {owner : UInt32 → CString} {policy : PolicyEngine}
  {poolName : Option CString} {leaseTimeout : UInt32} {mem : ℕ → UInt8}
  {es : List CriticalSection} {w w' : World} {e : CriticalSection} {t : AddressServer}
  {s s' : IpAllocator} {n : CString} {p : DynamicPool}

/-! ## The first free address -/

/-- A pool whose count is right has an address to give as long as one is unmarked. -/
theorem DynamicPool.Counted.acquire_eq (h : p.Counted) :
    (p.acquire true).1 = p.firstFree.map p.addr := by
  cases hi : p.firstFree with
  | none =>
    have hfull (i : ℕ) : ¬p.FirstFree i := fun hfirst => by
      simp [(DynamicPool.firstFree_iff.1 hfirst).2] at hi
    rw [DynamicPool.acquire_of_full hfull]
    rfl
  | some i =>
    obtain ⟨hlt, hclear, -⟩ := DynamicPool.firstFree_eq_some.1 hi
    have hsub : p.marked ⊆ (Finset.range p.capacity.toNat).erase i := by
      intro j hj
      obtain ⟨hj', ht⟩ := DynamicPool.mem_marked.1 hj
      refine Finset.mem_erase.2 ⟨?_, Finset.mem_range.2 hj'⟩
      rintro rfl
      simp [hclear] at ht
    have hcard := Finset.card_le_card hsub
    rw [Finset.card_erase_of_mem (Finset.mem_range.2 hlt), Finset.card_range, ← h] at hcard
    have hused : p.used < p.capacity := by
      rw [UInt32.lt_iff_toNat_lt]
      omega
    rw [DynamicPool.acquire_of_firstFree (DynamicPool.firstFree_iff.2 ⟨hused, hi⟩), if_pos rfl]
    rfl

/-- The addresses of the pool belong to the setup. -/
theorem IpAllocator.SameSetup.poolAddresses_eq (h : IpAllocator.SameSetup s s') :
    s'.poolAddresses = s.poolAddresses := by
  have hdyn := h.dyn
  unfold poolAddresses
  revert hdyn
  generalize s.dyn = d, s'.dyn = d'
  rintro (hsame | _)
  · simp only [Option.map_some, Option.getD_some, DynamicPool.addresses, hsame.capacity]
    exact List.map_congr_left fun i _ => hsame.addr_eq i
  · rfl

theorem IpAllocator.rel_sameRange_releaseFinish (s : IpAllocator) (r : LeaseRef) :
    Option.Rel DynamicPool.SameRange s.dyn (s.releaseFinish r).dyn := by
  change Option.Rel _ s.dyn (if (s.sessions.obj r).fixed then s.dyn
    else s.dyn.map (·.release (s.sessions.obj r).ip))
  split_ifs
  · exact rel_sameRange_refl s.dyn
  · cases s.dyn with
    | none => exact .none
    | some p => exact .some (p.sameRange_release _)

/-- No two holders have the same address. -/
theorem IpAllocator.Ok.injOn_holders {tight : Prop} {pending : List LeaseRef}
    (h : s.Ok tight pending) :
    Set.InjOn (fun r => (s.sessions.obj r).ip) (s.holders pending) := by
  cases hd : s.dyn with
  | none =>
    rw [h.lends.noPool hd]
    exact Set.injOn_empty _
  | some p => exact (h.lends.lent hd).injOn

namespace World

/-- The addresses that somebody has are those of the holders. -/
theorem Shows.taken_eq (h : w.Shows t) :
    t.taken = (fun r => (w.alloc.sessions.obj r).ip) '' w.holders := by
  ext ip
  rw [AddressServer.taken, AddressServer.lent, h.book, h.returning]
  constructor
  · rintro (⟨n, l, hl, hfixed, rfl⟩ | ⟨r, hr, hfixed, rfl⟩)
    · obtain ⟨r, hr, -, rfl⟩ := IpAllocator.mem_holders_of_lease w.pending hl hfixed
      exact ⟨r, hr, rfl⟩
    · exact ⟨r, ⟨Or.inr hr, hfixed⟩, rfl⟩
  · rintro ⟨r, ⟨⟨n, hn⟩ | hr, hfixed⟩, rfl⟩
    · exact Or.inl ⟨n, _, IpAllocator.lease_of_byUser hn, hfixed, rfl⟩
    · exact Or.inr ⟨r, hr, hfixed, rfl⟩

/-- An address of the pool is marked iff somebody has it. -/
theorem Shows.mem_taken_iff (h : w.Shows t) (hok : w.alloc.Ok True w.pending)
    (hp : w.alloc.dyn = some p) {i : ℕ} (hi : i < p.capacity.toNat) :
    p.addr i ∈ t.taken ↔ p.taken i = true := by
  have hlent := hok.lends.lent hp
  rw [h.taken_eq]
  constructor
  · rintro ⟨r, hr, hip⟩
    have hmarked := hlent.held.marked hr
    rwa [show (w.alloc.sessions.obj r).ip = p.addr i from hip, hlent.sized.slot_addr hi] at hmarked
  · intro ht
    obtain ⟨r, hr, hslot⟩ := (hlent.exact trivial).1.owned hi ht
    exact ⟨r, hr, by rw [← hslot, ← hlent.addr hr]⟩

/-- The scan of the bitmap finds the first address that nobody has. -/
theorem Shows.firstFree_eq (h : w.Shows t) (hok : w.alloc.Ok True w.pending) :
    t.firstFree = w.alloc.dyn.bind fun p => (p.acquire true).1 := by
  unfold AddressServer.firstFree
  rw [h.range, IpAllocator.poolAddresses]
  cases hp : w.alloc.dyn with
  | none => rfl
  | some p =>
    have hlent := hok.lends.lent hp
    rw [Option.bind_some, (hlent.exact trivial).2.acquire_eq, Option.map_some, Option.getD_some,
      DynamicPool.addresses, List.find?_map, DynamicPool.firstFree]
    congr 1
    refine List.find?_congr fun i hi => ?_
    have hiff := h.mem_taken_iff hok hp (List.mem_range.1 hi)
    simp only [Function.comp_apply, hiff]
    cases p.taken i <;> simp

/-! ## Sections as steps of the server -/

/-- The server has the same address for a user without a lease. -/
theorem Shows.newAddress_eq (h : w.Shows t) (hok : w.alloc.Ok True w.pending) {ip : Option Host}
    {isFixed : Bool} {dyn : Option DynamicPool}
    (hnew : IpAllocator.NewAddress w.alloc n .ok ip isFixed dyn) :
    t.newAddress n = ip.map fun ip => (ip, isFixed) := by
  have hfree := h.firstFree_eq hok
  unfold AddressServer.newAddress
  rw [h.fixed]
  cases hnew with
  | fixed hanon hlookup => simp [hanon, hlookup]
  | noPool hnone hd =>
    have hfixed : (if isAnon n = true then none else w.alloc.policy.lookupFixed n) = none := by
      split_ifs with hanon
      · rfl
      · exact hnone (by simpa using hanon) rfl
    rw [hfixed, hfree, hd]
    rfl
  | @pool p p' ip hnone hd hacq =>
    have hfixed : (if isAnon n = true then none else w.alloc.policy.lookupFixed n) = none := by
      split_ifs with hanon
      · rfl
      · exact hnone (by simpa using hanon) rfl
    rw [hfixed, hfree, hd, Option.bind_some, show p.acquire true = (ip, p') from hacq]

theorem poolsInclude_iff {pools : Option (List (Option CString))} :
    s.poolsInclude pools = true ↔ some s.poolName ∈ pools.getD [] := by
  cases pools with
  | none => simp [IpAllocator.poolsInclude]
  | some names => simp [IpAllocator.poolsInclude]

/-- The server is asked iff the allocator is. -/
theorem Shows.acquire_eq (h : w.Shows t) {call : AcquireCall} (hmem : call.mem = .ok) :
    t.acquire call.pools call.ikeSa call.now =
      match w.alloc.served call with
      | some ikeSa => t.login ikeSa call.now
      | none => (none, t) := by
  unfold AddressServer.acquire IpAllocator.served
  rw [h.poolName, hmem]
  cases call.ikeSa with
  | none => rfl
  | some ikeSa =>
    by_cases hpool : some w.alloc.poolName ∈ call.pools.getD []
    · have hincl := poolsInclude_iff.2 hpool
      simp [hpool, hincl, Option.filter, Alloc.ok]
    · have hincl := mt poolsInclude_iff.1 hpool
      simp [hpool, hincl, Option.filter]

/-- A section that changes nothing but the book shows the server with the new book. -/
theorem Shows.withBook (h : w.Shows t) (hset : IpAllocator.SameSetup w.alloc w'.alloc)
    (hpending : w'.pending = w.pending)
    (hobj : ∀ r ∈ w.pending, (w'.alloc.sessions.obj r).fixed = (w.alloc.sessions.obj r).fixed ∧
      (w'.alloc.sessions.obj r).ip = (w.alloc.sessions.obj r).ip) :
    w'.Shows { t with book := w'.alloc.lease } where
  fixed := by rw [hset.policy, h.fixed]
  range := by rw [hset.poolAddresses_eq, h.range]
  poolName := by rw [hset.poolName, h.poolName]
  leaseTimeout := by rw [hset.leaseTimeout, h.leaseTimeout]
  book := rfl
  returning := by
    rw [h.returning, hpending]
    ext ip
    refine exists_congr fun r => and_congr_right fun hr => ?_
    rw [(hobj r hr).1, (hobj r hr).2]

/-- A login is answered as the server answers it. -/
theorem Shows.acquire (h : w.Shows t) (hok : w.alloc.Ok True w.pending) {call : AcquireCall}
    (hmem : call.mem = .ok) {out : Acquired} {alloc : IpAllocator}
    (hacq : w.alloc.acquireEnter call = (out, alloc)) :
    ∃ answer t', out = .done answer ∧
      t.acquire call.pools call.ikeSa call.now = (answer, t') ∧
      World.Shows { w with alloc := alloc } t' := by
  rw [h.acquire_eq hmem]
  have hcase := IpAllocator.acquireEnter_cases hacq
  have hset := hcase.sameSetup
  cases hcase with
  | skipped hserved =>
    rw [hserved]
    exact ⟨none, t, rfl, rfl, h⟩
  | @reused ikeSa r hserved hr =>
    have hbook := h.book.symm ▸ IpAllocator.lease_of_byUser hr
    rw [hserved, hmem]
    refine ⟨_, _, rfl, ?_, h.withBook hset rfl fun r' _ => ?_⟩
    · simp only [AddressServer.login, hbook]
      rw [IpAllocator.lease_moveLease hok hr, ← h.book]
      rfl
    · obtain ⟨-, hip, hfixed⟩ := w.alloc.sessions.obj_moveLease ikeSa.uniqueId r call.now r'
      exact ⟨hfixed, hip⟩
  | @refused ikeSa ip isFixed dyn hserved hn hnew hwhy =>
    have hbook := h.book.symm ▸ IpAllocator.lease_eq_none.2 hn
    rw [hmem] at hnew hwhy
    obtain rfl : ip = none := hwhy.resolve_right (by simp [Alloc.ok])
    rw [hserved]
    refine ⟨_, _, rfl, ?_, h.withBook hset rfl fun _ _ => ⟨rfl, rfl⟩⟩
    simp only [AddressServer.login, hbook, h.newAddress_eq hok hnew]
    rw [show IpAllocator.lease { w.alloc with dyn := dyn } = t.book from h.book.symm]
    rfl
  | @bound ikeSa ip isFixed dyn hserved hn hnew hlease =>
    have hbook := h.book.symm ▸ IpAllocator.lease_eq_none.2 hn
    rw [hmem] at hnew
    rw [hserved, hmem]
    refine ⟨_, _, rfl, ?_, h.withBook hset rfl fun r hr => ?_⟩
    · simp only [AddressServer.login, hbook, h.newAddress_eq hok hnew]
      rw [IpAllocator.lease_putLease hok, ← h.book]
      rfl
    · have hne := (hok.detached.lt hr).ne
      simp [SessionManager.obj_putLease, hne]

/-- What is struck out is the lease that is taken out of the tables. -/
theorem Shows.strike_iff (h : w.Shows t) (hb : w.alloc.sessions.Bound owner) {u : UInt32}
    {l : Lease} : (∃ n, t.book n = some l ∧ l.uniqueId = u) ↔
      ∃ r, w.alloc.sessions.byUid.get u = some r ∧ w.alloc.sessions.obj r = l := by
  rw [h.book]
  constructor
  · rintro ⟨n, hl, rfl⟩
    obtain ⟨r, hr, rfl⟩ := IpAllocator.lease_eq_some.1 hl
    exact ⟨r, hb.paired.toA hr, rfl⟩
  · rintro ⟨r, hr, rfl⟩
    exact ⟨_, IpAllocator.lease_of_byUser (hb.paired.toB hr), hb.paired.keyA_eq hr⟩

/-- A release without a lease is a step of the server. -/
theorem Shows.unbindNone (h : w.Shows t) (hb : w.alloc.sessions.Bound owner) {u : UInt32}
    (hu : w.alloc.sessions.byUid.get u = none) : w.Shows (t.strike u) := by
  have hnone : ∀ l n, t.book n = some l → l.uniqueId ≠ u := by
    intro l n hl hlu
    obtain ⟨r, hr, -⟩ := (h.strike_iff hb).1 ⟨n, hl, hlu⟩
    simp [hu] at hr
  refine ⟨h.fixed, h.range, h.poolName, h.leaseTimeout, ?_, ?_⟩
  · rw [AddressServer.strike, h.book, IpAllocator.lease_strike_of_none hb hu]
  · rw [← h.returning, AddressServer.strike]
    ext ip
    refine or_iff_left ?_
    rintro ⟨n, l, hl, hlu, -⟩
    exact hnone l n hl hlu

/-- The first section of a release is a step of the server. -/
theorem Shows.unbindSome (h : w.Shows t) (hok : w.alloc.Ok True w.pending)
    (hb : w.alloc.sessions.Bound owner) {u : UInt32} {r : LeaseRef}
    (hu : w.alloc.sessions.byUid.get u = some r) :
    World.Shows ⟨{ w.alloc with sessions := w.alloc.sessions.removeLease u r }, r :: w.pending⟩
      (t.strike u) := by
  refine ⟨h.fixed, h.range, h.poolName, h.leaseTimeout, ?_, ?_⟩
  · rw [IpAllocator.lease_removeLease hok hb hu, ← h.book]
    rfl
  · -- the address of the lease joins those of the other pending ones
    simp only [AddressServer.strike, h.returning]
    ext ip
    simp only [Set.mem_union, Set.mem_ofPred_eq, List.mem_cons]
    constructor
    · rintro (⟨r', hr', hfixed, hip⟩ | ⟨n, l, hl, hlu, hfixed, hip⟩)
      · exact ⟨r', Or.inr hr', hfixed, hip⟩
      · obtain ⟨r', hr', rfl⟩ := (h.strike_iff hb).1 ⟨n, hl, hlu⟩
        obtain rfl := Option.some.inj (hu.symm.trans hr')
        exact ⟨r, Or.inl rfl, hfixed, hip⟩
    · rintro ⟨r', rfl | hr', hfixed, hip⟩
      · obtain ⟨n, hl, hlu⟩ := (h.strike_iff hb).2 ⟨r', hu, rfl⟩
        exact Or.inr ⟨n, _, hl, hlu, hfixed, hip⟩
      · exact Or.inl ⟨r', hr', hfixed, hip⟩

/-- The end of a release gives the address of a lease back, if it is one of the pool. -/
theorem Shows.finish (h : w.Shows t) (hok : w.alloc.Ok True w.pending) {r : LeaseRef}
    (hr : r ∈ w.pending) :
    ∃ es t', AddressServer.Run parse t es t' ∧ es.filterMap ServerEvent.shown = [] ∧
      World.Shows ⟨w.alloc.releaseFinish r, w.pending.erase r⟩ t' := by
  have hset : IpAllocator.SameSetup w.alloc (w.alloc.releaseFinish r) :=
    ⟨rfl, rfl, rfl, w.alloc.rel_sameRange_releaseFinish r⟩
  have hrange := hset.poolAddresses_eq.trans h.range.symm
  have herase (r' : LeaseRef) : r' ∈ w.pending.erase r ↔ r' ≠ r ∧ r' ∈ w.pending :=
    hok.detached.nodup.mem_erase_iff
  by_cases hfixed : (w.alloc.sessions.obj r).fixed = true
  · refine ⟨[], t, .nil, rfl, h.fixed, hrange.symm, h.poolName, h.leaseTimeout, h.book, ?_⟩
    rw [h.returning]
    ext ip
    refine exists_congr fun r' => ?_
    rw [herase]
    refine ⟨fun ⟨hr', hf, hip⟩ => ⟨⟨?_, hr'⟩, hf, hip⟩, fun ⟨⟨_, hr'⟩, hf, hip⟩ => ⟨hr', hf, hip⟩⟩
    rintro rfl
    exact absurd (hf.symm.trans hfixed) Bool.false_ne_true
  · rw [Bool.not_eq_true] at hfixed
    have hmem : (w.alloc.sessions.obj r).ip ∈ t.returning := by
      rw [h.returning]
      exact ⟨r, hr, hfixed, rfl⟩
    refine ⟨[.giveBack (w.alloc.sessions.obj r).ip], t.giveBack (w.alloc.sessions.obj r).ip,
      .single trivial ⟨hmem, rfl⟩, rfl, h.fixed, hrange.symm, h.poolName, h.leaseTimeout, h.book,
      ?_⟩
    simp only [AddressServer.giveBack, h.returning]
    ext ip
    constructor
    · rintro ⟨⟨r', hr', hf, rfl⟩, hne⟩
      refine ⟨r', (herase r').2 ⟨?_, hr'⟩, hf, rfl⟩
      rintro rfl
      exact hne rfl
    · rintro ⟨r', hr', hf, rfl⟩
      obtain ⟨hne, hr'⟩ := (herase r').1 hr'
      refine ⟨⟨r', hr', hf, rfl⟩, fun heq => hne ?_⟩
      -- no two holders have the same address
      exact hok.injOn_holders ⟨Or.inr hr', hf⟩ ⟨Or.inr hr, hfixed⟩ heq

/-- A reload is a step of the server. -/
theorem Shows.reload (h : w.Shows t) (file : PolicyFile) :
    World.Shows { w with alloc := (w.alloc.reloadPolicy parse file).2 } (t.reload parse file) := by
  unfold AddressServer.reload IpAllocator.reloadPolicy PolicyEngine.reload
  cases hload : snapshotLoad parse file with
  | none => exact h
  | some fresh => exact ⟨rfl, h.range, h.poolName, h.leaseTimeout, h.book, h.returning⟩

/-- A section is answered by the server, which shows the same. -/
theorem Shows.step (h : w.Shows t) (hok : w.alloc.Ok True w.pending)
    (hb : w.alloc.sessions.Bound owner) (hreg : e.OnAcquire (·.Regular owner))
    (hs : w.step parse e = some w') :
    ∃ es t', AddressServer.Run parse t es t' ∧
      es.filterMap ServerEvent.shown = e.shown.toList ∧ w'.Shows t' := by
  cases step_cases hs with
  | @acquire call out alloc hacq =>
    obtain ⟨answer, t', rfl, hanswer, hshows⟩ := h.acquire hok hreg.1 hacq
    exact ⟨[.acquire call.pools call.ikeSa call.now answer], t', .single trivial hanswer, rfl,
      hshows⟩
  | @unbindNone uid hu =>
    exact ⟨[.strike uid], t.strike uid, .single trivial rfl, rfl, h.unbindNone hb hu⟩
  | @unbindSome uid r hu =>
    exact ⟨[.strike uid], t.strike uid, .single trivial rfl, rfl, h.unbindSome hok hb hu⟩
  | finish hr => exact h.finish hok hr
  | @reload file =>
    exact ⟨[.reload file], t.reload parse file, .single trivial rfl, rfl, h.reload file⟩

end World

/-! ## A new allocator -/

/-- The pool has the addresses from `start` to `end_`. Without a pool there are none. -/
theorem hostRange_eq (start end_ : Host) (mem : ℕ → UInt8)
    (hsize : DynamicPool.rangeSize start end_ ≤ 2 ^ 32 - 8) : hostRange start end_ =
      ((dynamicPoolCreate start end_ (some mem)).map DynamicPool.addresses).getD [] := by
  unfold hostRange
  cases hp : dynamicPoolCreate start end_ (some mem) with
  | none =>
    split_ifs with hinet
    · obtain ⟨hstart, hend⟩ := Bool.and_eq_true_iff.1 hinet
      have hlt : hostToU32 end_ < hostToU32 start := by
        by_contra hle
        obtain ⟨p, hp'⟩ := DynamicPool.dynamicPoolCreate_some hstart hend (UInt32.not_lt.1 hle) mem
        simp [hp] at hp'
      rw [UInt32.lt_iff_toNat_lt] at hlt
      rw [show (hostToU32 end_).toNat + 1 - (hostToU32 start).toNat = 0 by omega]
      rfl
    · rfl
  | some p =>
    obtain ⟨hsized, hs, he⟩ := sized_of_create hp
    obtain ⟨hstart, hend⟩ := isInet_of_create hp
    have hle := UInt32.le_iff_toNat_le.1 hsized.le
    have hcap := DynamicPool.toNat_capacity_of_create hp
    unfold DynamicPool.rangeSize at hcap hsize
    rw [hs, he] at hle
    have hlen : (hostToU32 end_).toNat + 1 - (hostToU32 start).toNat = p.capacity.toNat := by
      omega
    rw [hstart, hend, hlen, List.range'_eq_map_range, List.map_map]
    refine List.map_congr_left fun i _ => ?_
    rw [Function.comp_apply, DynamicPool.addr, hs, UInt32.ofNat_add, UInt32.ofNat_toNat]

/-- A new allocator is a server without leases. -/
theorem World.shows_create (hfits : policy.active.PoolFits) :
    (World.start (ipAllocatorCreate policy poolName leaseTimeout (some mem))).Shows
      (.start policy (poolName.getD (.ofBytes (ascii ['c', 'u', 'p', 'p'])))
        (if leaseTimeout = 0 then 3600 else leaseTimeout)) := by
  refine ⟨rfl, ?_, rfl, rfl, ?_, ?_⟩
  · unfold AddressServer.start IpAllocator.poolAddresses ipAllocatorCreate
    simp only [World.start]
    cases hpool : policy.getPool with
    | none => rfl
    | some ends => exact hostRange_eq ends.1 ends.2 mem (hfits ends hpool)
  · funext n
    exact (IpAllocator.lease_create n).symm
  · simp [World.start, AddressServer.start]

/-- Whatever threads do, and in whatever order, they do it as the address server would : for each
run of critical sections there is a run of the server that shows the same calls and answers, and
that ends with the same leases. -/
theorem server_of_run (hfits : policy.active.PoolFits)
    (h : World.Run parse (Regular owner)
      (ipAllocatorCreate policy poolName leaseTimeout (some mem)) es w) :
    ∃ es' t, AddressServer.Run parse
        (.start policy (poolName.getD (.ofBytes (ascii ['c', 'u', 'p', 'p'])))
          (if leaseTimeout = 0 then 3600 else leaseTimeout)) es' t ∧
      es'.filterMap ServerEvent.shown = es.filterMap CriticalSection.shown ∧ w.Shows t := by
  refine h.refines (fun w t => w.Shows t) (World.shows_create hfits) ?_
  intro es w e w' t hrun hshows hreg hs
  obtain ⟨hok, hb⟩ := World.regular_of_run hfits hrun
  exact hshows.step hok hb hreg hs

end Cupp
