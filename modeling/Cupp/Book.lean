import Cupp.Owners

/-!
# The book of leases

What the tables and the heap are for is a book : the lease of each user. The allocator's
operations act on it in four ways. A login enters a lease (`Book.enter`) or renews one
(`Book.renew`), a release strikes out what is recorded under a unique id (`Book.strike`),
and a sweep strikes out the old leases of dead SAs (`Book.expire`).

`IpAllocator.lease` reads the book off the tables. The lemmas here say what each operation
of the allocator does to it. Striking out is exact as long as the tables correspond
(`SessionManager.Bound`).
-/

set_option linter.unusedSectionVars false

namespace Cupp

/-- The lease of each user. -/
abbrev Book := CString → Option Lease

namespace Book

/-- A new lease of a user. -/
def enter (b : Book) (l : Lease) : Book :=
  Function.update b l.username (some l)

/-- The lease of a user moves to another SA, and is as if acquired now. -/
def renew (b : Book) (n : CString) (u : UInt32) (now : ℤ) : Book :=
  Function.update b n ((b n).map fun l => { l with uniqueId := u, acquired := now })

/-- The leases of a unique id are taken out. -/
def strike (b : Book) (u : UInt32) : Book :=
  fun n => (b n).filter fun l => l.uniqueId ≠ u

/-- A sweep : the expired leases are taken out, unless their SA is there. -/
def expire (b : Book) (now : ℤ) (timeout : UInt32) (alive : UInt32 → Bool) : Book :=
  fun n => (b n).filter fun l => alive l.uniqueId || !l.expired now timeout

variable {b : Book} {m n : CString} {u : UInt32} {now : ℤ} {timeout : UInt32}
  {alive : UInt32 → Bool} {l l' : Lease}

@[simp] theorem enter_self : b.enter l l.username = some l :=
  Function.update_self _ _ _

theorem enter_of_ne (h : m ≠ l.username) : b.enter l m = b m :=
  Function.update_of_ne h _ _

@[simp] theorem renew_self : b.renew n u now n =
    (b n).map fun l => { l with uniqueId := u, acquired := now } :=
  Function.update_self _ _ _

theorem renew_of_ne (h : m ≠ n) : b.renew n u now m = b m :=
  Function.update_of_ne h _ _

theorem strike_eq_some : b.strike u n = some l ↔ b n = some l ∧ l.uniqueId ≠ u := by
  simp [strike, Option.filter_eq_some_iff]

theorem expire_eq_some : b.expire now timeout alive n = some l ↔
    b n = some l ∧ (alive l.uniqueId = true ∨ l.expired now timeout = false) := by
  simp [expire, Option.filter_eq_some_iff]

/-! ## Comparing books -/

/-- Every lease of `b'` is in `b` with the same address, perhaps under another unique id. -/
def Within (b' b : Book) : Prop :=
  ∀ n l', b' n = some l' → ∃ l, b n = some l ∧ l.ip = l'.ip ∧ l.fixed = l'.fixed

variable {b' b'' : Book}

theorem Within.refl (b : Book) : b.Within b :=
  fun _ l hl => ⟨l, hl, rfl, rfl⟩

theorem Within.trans (h : b''.Within b') (h' : b'.Within b) : b''.Within b := by
  intro n l'' hl''
  obtain ⟨l', hl', hip', hfixed'⟩ := h n l'' hl''
  obtain ⟨l, hl, hip, hfixed⟩ := h' n l' hl'
  exact ⟨l, hl, hip.trans hip', hfixed.trans hfixed'⟩

/-- A lease that is renewed keeps its address. -/
theorem renew_within : (b.renew n u now).Within b := by
  intro m l' hl'
  rcases eq_or_ne m n with rfl | hne
  · rw [renew_self] at hl'
    obtain ⟨l, hl, rfl⟩ := Option.map_eq_some_iff.1 hl'
    exact ⟨l, hl, rfl, rfl⟩
  · exact ⟨l', (renew_of_ne hne).symm.trans hl', rfl, rfl⟩

/-- No address is in the leases of two users. -/
def Exclusive (b : Book) : Prop :=
  ∀ m n l l', b m = some l → b n = some l' → l.ip = l'.ip → m = n

/-- A book within an exclusive one is exclusive. -/
theorem Exclusive.within (h : b.Exclusive) (hw : b'.Within b) : b'.Exclusive := by
  intro m n l l' hl hl' hip
  obtain ⟨k, hk, hkip, -⟩ := hw m l hl
  obtain ⟨k', hk', hkip', -⟩ := hw n l' hl'
  exact h m n k k' hk hk' (hkip.trans (hip.trans hkip'.symm))

/-- The lease of a user without one can be entered iff it has an address of its own. -/
theorem Exclusive.enter_iff (h : b.Exclusive) (hnone : b l.username = none) :
    (b.enter l).Exclusive ↔ ∀ m l', b m = some l' → l'.ip ≠ l.ip := by
  constructor
  · intro hex m l' hl' hip
    have hne : m ≠ l.username := by
      rintro rfl
      simp [hnone] at hl'
    exact hne (hex m _ l' l ((enter_of_ne hne).trans hl') enter_self hip)
  · intro hnew m n k k' hk hk' hip
    rcases eq_or_ne m l.username with rfl | hm <;> rcases eq_or_ne n l.username with rfl | hn
    · rfl
    · obtain rfl := Option.some.inj (enter_self.symm.trans hk)
      exact absurd hip.symm (hnew n k' ((enter_of_ne hn).symm.trans hk'))
    · obtain rfl := Option.some.inj (enter_self.symm.trans hk')
      exact absurd hip (hnew m k ((enter_of_ne hm).symm.trans hk))
    · exact h m n k k' ((enter_of_ne hm).symm.trans hk) ((enter_of_ne hn).symm.trans hk') hip

end Book

namespace IpAllocator

variable {tight : Prop} {s s' : IpAllocator} {pending : List LeaseRef} {r r' : LeaseRef}
  {u : UInt32} {m n : CString} {l l' : Lease} {owner : UInt32 → CString} {p : DynamicPool}

/-- The lease `by_user` has for a name. -/
def lease (s : IpAllocator) : Book :=
  fun n => (s.sessions.byUser.get n).map s.sessions.obj

theorem lease_eq_some :
    s.lease n = some l ↔ ∃ r, s.sessions.byUser.get n = some r ∧ s.sessions.obj r = l :=
  Option.map_eq_some_iff

theorem lease_eq_none : s.lease n = none ↔ s.sessions.byUser.get n = none :=
  Option.map_eq_none_iff

theorem lease_of_byUser (h : s.sessions.byUser.get n = some r) :
    s.lease n = some (s.sessions.obj r) := by
  rw [lease, h, Option.map_some]

/-- The book of a new allocator is empty. -/
theorem lease_create {policy : PolicyEngine} {poolName : Option CString} {leaseTimeout : UInt32}
    {calloc : Option (ℕ → UInt8)} (n : CString) :
    (ipAllocatorCreate policy poolName leaseTimeout calloc).lease n = none := by
  simp [lease, ipAllocatorCreate, SessionManager.create]

/-- The leases of the book, listed. -/
def liveLeases (s : IpAllocator) : Multiset Lease :=
  s.sessions.byUser.entries.map fun e => s.sessions.obj e.2

theorem mem_liveLeases : l ∈ s.liveLeases ↔ ∃ n, s.lease n = some l := by
  rw [liveLeases, Multiset.mem_map]
  constructor
  · rintro ⟨⟨n, r⟩, he, rfl⟩
    exact ⟨n, lease_of_byUser ((Hashtable.mem_entries _ n r).1 he)⟩
  · rintro ⟨n, hl⟩
    obtain ⟨r, hr, rfl⟩ := lease_eq_some.1 hl
    exact ⟨⟨n, r⟩, (Hashtable.mem_entries _ n r).2 hr, rfl⟩

theorem Ok.username_eq (h : s.Ok tight pending) (hl : s.lease n = some l) : l.username = n := by
  obtain ⟨r, hr, rfl⟩ := lease_eq_some.1 hl
  exact h.sessions.user_eq hr

/-! ## Logins -/

/-- Moving a lease to another unique id renews it. -/
theorem lease_moveLease (h : s.Ok tight pending) (hr : s.sessions.byUser.get n = some r)
    (now : ℤ) : lease { s with sessions := s.sessions.moveLease r u now } =
      s.lease.renew n u now := by
  funext m
  rcases eq_or_ne m n with rfl | hne
  · rw [Book.renew_self, lease_of_byUser hr,
      lease_of_byUser (s := { s with sessions := s.sessions.moveLease r u now }) hr]
    simp [SessionManager.moveLease]
  · rw [Book.renew_of_ne hne]
    cases hm : s.sessions.byUser.get m with
    | none => simp [lease, hm]
    | some r' =>
      have hrr : r' ≠ r := by
        rintro rfl
        exact hne (h.sessions.filed.eq_of_byB hm hr)
      simp [lease, hm, SessionManager.moveLease, hrr]

/-- Filing a new lease enters it. -/
theorem lease_putLease (h : s.Ok tight pending) (ip : Host) (fixed : Bool) (now : ℤ)
    (dyn : Option DynamicPool) :
    lease { s with dyn := dyn, sessions := s.sessions.putLease n u ip fixed now } =
      s.lease.enter ⟨n, u, ip, fixed, now⟩ := by
  funext m
  rcases eq_or_ne m n with rfl | hne
  · rw [Book.enter, Function.update_self]
    simp [lease, SessionManager.obj_putLease]
  · rw [Book.enter_of_ne hne]
    cases hm : s.sessions.byUser.get m with
    | none => simp [lease, hm, hne]
    | some r' => simp [lease, hm, hne, SessionManager.obj_putLease, (h.sessions.lt hm).ne]

/-- The call enters the lease `l` : its user has none, and `l` has a new address. -/
def Enters (s : IpAllocator) (call : AcquireCall) (l : Lease) : Prop :=
  ∃ ikeSa dyn, s.served call = some ikeSa ∧ l.username = sessionName ikeSa ∧
    l.uniqueId = ikeSa.uniqueId ∧ s.lease l.username = none ∧
    NewAddress s l.username call.mem (some l.ip) l.fixed dyn

/-- A login renews a lease, enters one, or leaves the book as it was. -/
theorem AcquireCase.book {call : AcquireCall} {out : Acquired} (h : AcquireCase s call out s')
    (hok : s.Ok tight pending) :
    s'.lease.Within s.lease ∨ ∃ l, s.Enters call l ∧ s'.lease = s.lease.enter l := by
  cases h with
  | skipped => exact Or.inl (.refl _)
  | reused _ hr =>
    rw [lease_moveLease hok hr]
    exact Or.inl Book.renew_within
  | refused => exact Or.inl (.refl _)
  | @bound ikeSa ip isFixed dyn hserved hn hnew =>
    rw [lease_putLease hok]
    exact Or.inr ⟨_, ⟨ikeSa, dyn, hserved, rfl, rfl, lease_eq_none.2 hn, hnew⟩, rfl⟩

/-- A login that is answered has its address in the book. -/
theorem AcquireCase.answered {call : AcquireCall} {ip : Host}
    (h : AcquireCase s call (.done (some ip)) s') (hok : s.Ok tight pending) :
    ∃ ikeSa l, s.served call = some ikeSa ∧ s'.lease (sessionName ikeSa) = some l ∧ l.ip = ip ∧
      l.uniqueId = ikeSa.uniqueId := by
  generalize hout : Acquired.done (some ip) = out at h
  cases h with
  | skipped | refused => simp at hout
  | @reused ikeSa r hserved hr =>
    by_cases hres : call.mem.result = true
    · obtain rfl : ip = (s.sessions.obj r).ip := by simpa [hres] using hout
      refine ⟨ikeSa, _, hserved, ?_, (s.sessions.obj_moveLease ikeSa.uniqueId r call.now r).2.1,
        by simp [SessionManager.moveLease]⟩
      exact lease_of_byUser (s := { s with sessions := s.sessions.moveLease _ _ _ }) hr
    · simp [hres] at hout
  | @bound ikeSa ip' isFixed dyn hserved hn hnew =>
    by_cases hres : call.mem.result = true
    · obtain rfl : ip = ip' := by simpa [hres] using hout
      refine ⟨ikeSa, ⟨sessionName ikeSa, ikeSa.uniqueId, ip, isFixed, call.now⟩, hserved, ?_, rfl,
        rfl⟩
      rw [lease_putLease hok]
      exact Book.enter_self
    · simp [hres] at hout

/-! ## Releases -/

/-- Taking a lease out adds nothing. -/
theorem within_removeLease (s : IpAllocator) (u : UInt32) (r : LeaseRef) :
    (lease { s with sessions := s.sessions.removeLease u r }).Within s.lease := by
  intro n l hl
  obtain ⟨r', hr', rfl⟩ := lease_eq_some.1 hl
  exact ⟨_, lease_of_byUser (SessionManager.byUser_of_removeLease hr').2, rfl, rfl⟩

/-- Who is still filed by name, said with the unique ids. -/
theorem byUser_removeLease_iff (h : s.Ok tight pending) (hb : s.sessions.Bound owner)
    (hu : s.sessions.byUid.get u = some r) :
    (s.sessions.removeLease u r).byUser.get n = some r' ↔
      s.sessions.byUser.get n = some r' ∧ s.sessions.uid r' ≠ u := by
  constructor
  · intro hr'
    obtain ⟨hne, hold⟩ := SessionManager.byUser_of_removeLease hr'
    refine ⟨hold, ?_⟩
    -- a lease recorded under `u` would be the one taken out
    rintro rfl
    obtain rfl := Option.some.inj (hu.symm.trans (hb.paired.toA hold))
    exact hne (h.sessions.user_eq hold).symm
  · rintro ⟨hold, hne⟩
    rw [SessionManager.byUser_removeLease, Function.update_of_ne]
    · exact hold
    · rintro rfl
      obtain rfl := Option.some.inj (hold.symm.trans (h.sessions.filed.toB hu))
      exact hne (h.sessions.uid_eq hu)

/-- Taking the lease of a unique id out strikes its leases. -/
theorem lease_removeLease (h : s.Ok tight pending) (hb : s.sessions.Bound owner)
    (hu : s.sessions.byUid.get u = some r) :
    lease { s with sessions := s.sessions.removeLease u r } = s.lease.strike u := by
  funext n
  refine Option.ext fun l => ?_
  rw [Book.strike_eq_some, lease_eq_some, lease_eq_some]
  constructor
  · rintro ⟨r', hr', rfl⟩
    obtain ⟨hold, hne⟩ := (byUser_removeLease_iff h hb hu).1 hr'
    exact ⟨⟨r', hold, rfl⟩, hne⟩
  · rintro ⟨⟨r', hold, rfl⟩, hne⟩
    exact ⟨r', (byUser_removeLease_iff h hb hu).2 ⟨hold, hne⟩, rfl⟩

theorem lease_strike_of_none (hb : s.sessions.Bound owner)
    (hu : s.sessions.byUid.get u = none) : s.lease.strike u = s.lease := by
  funext n
  refine Option.ext fun l => ?_
  rw [Book.strike_eq_some, and_iff_left_iff_imp]
  intro hl
  obtain ⟨r, hr, rfl⟩ := lease_eq_some.1 hl
  rintro rfl
  have hfiled := hb.paired.toA hr
  simp [SessionManager.uid, hu] at hfiled

/-- The second section of a release does not touch the book. -/
theorem lease_releaseFinish (r : LeaseRef) : (s.releaseFinish r).lease = s.lease :=
  rfl

/-! ## Addresses in the book -/

/-- A pool lease in the book has an address of the pool. -/
theorem mem_holders_of_lease (pending : List LeaseRef) (hl : s.lease n = some l)
    (hfixed : l.fixed = false) :
    ∃ r ∈ s.holders pending, s.sessions.byUser.get n = some r ∧ s.sessions.obj r = l := by
  obtain ⟨r, hr, rfl⟩ := lease_eq_some.1 hl
  exact ⟨r, mem_holders_of_byUser hr hfixed, hr, rfl⟩

/-- A lease that is not fixed has its own marked address of the pool. -/
theorem Ok.lease_slot (h : s.Ok tight pending) (hl : s.lease n = some l)
    (hfixed : l.fixed = false) :
    ∃ p, s.dyn = some p ∧ p.slot l.ip < p.capacity.toNat ∧ p.taken (p.slot l.ip) = true ∧
      l.ip = p.addr (p.slot l.ip) := by
  obtain ⟨r, hr, -, rfl⟩ := mem_holders_of_lease pending hl hfixed
  cases hd : s.dyn with
  | none => simp [h.lends.noPool hd] at hr
  | some p =>
    have hlent := h.lends.lent hd
    exact ⟨p, rfl, hlent.held.lt hr, hlent.held.marked hr, hlent.addr hr⟩

/-- The address of a pool lease is in the range of the pool. -/
theorem Ok.isInPool_lease (h : s.Ok tight pending) (hp : s.dyn = some p) (hl : s.lease n = some l)
    (hfixed : l.fixed = false) : p.isInPool l.ip = true := by
  obtain ⟨r, hr, -, rfl⟩ := mem_holders_of_lease pending hl hfixed
  exact (h.lends.lent hp).isInPool hr

/-- Two leases that are not fixed have different addresses. -/
theorem Ok.eq_of_ip (h : s.Ok tight pending) (hl : s.lease m = some l) (hl' : s.lease n = some l')
    (hfixed : l.fixed = false) (hfixed' : l'.fixed = false) (hip : l.ip = l'.ip) : m = n := by
  obtain ⟨r, hr, hm, rfl⟩ := mem_holders_of_lease pending hl hfixed
  obtain ⟨r', hr', hn, rfl⟩ := mem_holders_of_lease pending hl' hfixed'
  obtain ⟨p, hd, -⟩ := h.lease_slot hl hfixed
  obtain rfl := (h.lends.lent hd).injOn hr hr' hip
  exact h.sessions.filed.eq_of_byB hm hn

/-- An unmarked address is in no lease that is not fixed. -/
theorem Ok.ne_of_free (h : s.Ok tight pending) (hp : s.dyn = some p) {i : ℕ}
    (hi : i < p.capacity.toNat) (hfree : p.taken i = false) (hl : s.lease n = some l)
    (hfixed : l.fixed = false) : l.ip ≠ p.addr i := by
  obtain ⟨q, hq, -, ht, -⟩ := h.lease_slot hl hfixed
  obtain rfl := Option.some.inj (hp.symm.trans hq)
  intro heq
  rw [heq, (h.lends.lent hp).sized.slot_addr hi, hfree] at ht
  simp at ht

end IpAllocator

end Cupp
