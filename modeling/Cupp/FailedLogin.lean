import Cupp.Sections

/-!
# What a failed login leaves behind

`acquire_address` marks an address of the pool, or moves the user's lease to the new unique
id, before it knows that it can answer. `Untouched` says that the pool and both tables are
as they were. Of the points at which a login can fail, some are cleaned up and some are
not : `Recovers` lists them, and `failed_login_iff` says that the list is exact.
-/

set_option linter.unusedSectionVars false

open Transition

namespace Cupp

namespace IpAllocator

variable {s s' : IpAllocator} {pending : List LeaseRef} {call : AcquireCall} {ikeSa : IkeSa}
  {n : CString} {u : UInt32} {r : LeaseRef} {mem : Alloc} {ip : Option Host} {isFixed : Bool}
  {dyn : Option DynamicPool}

/-- The pool, the tables, and the unique id of each lease are the same. -/
structure Untouched (s s' : IpAllocator) : Prop where
  dyn : s'.dyn = s.dyn
  byUid : s'.sessions.byUid = s.sessions.byUid
  byUser : s'.sessions.byUser = s.sessions.byUser
  uid : ∀ n r, s.sessions.byUser.get n = some r → s'.sessions.uid r = s.sessions.uid r

theorem Untouched.refl (s : IpAllocator) : s.Untouched s :=
  ⟨rfl, rfl, rfl, fun _ _ _ => rfl⟩

/-- A new login of the user gets a fixed address. -/
def GetsFixed (s : IpAllocator) (n : CString) (mem : Alloc) : Prop :=
  isAnon n = false ∧ mem.fixedClone = true ∧ (s.policy.lookupFixed n).isSome = true

/-- A new login of the user marks an address of the pool. -/
def TakesFromPool (s : IpAllocator) (n : CString) (mem : Alloc) : Prop :=
  ¬s.GetsFixed n mem ∧ ∃ p, s.dyn = some p ∧ ∃ i, p.FirstFree i

/-- The failing allocations of the call are among those that the code cleans up after. -/
structure Recovers (s : IpAllocator) (call : AcquireCall) (ikeSa : IkeSa) : Prop where
  /-- A lease that is reused can be answered, or is filed under the unique id already. -/
  reused : ∀ r, s.sessions.byUser.get (sessionName ikeSa) = some r →
    call.mem.result = true ∨ s.sessions.byUid.get ikeSa.uniqueId = some r
  /-- An address that is marked gets its host and its lease. -/
  marked : s.sessions.byUser.get (sessionName ikeSa) = none →
    s.TakesFromPool (sessionName ikeSa) call.mem →
    call.mem.poolHost = true ∧ call.mem.lease = true
  /-- A new lease can be answered, or took the unique id from no other lease. -/
  rolledBack : s.sessions.byUser.get (sessionName ikeSa) = none →
    s.GetsFixed (sessionName ikeSa) call.mem ∨ s.TakesFromPool (sessionName ikeSa) call.mem →
    call.mem.lease = true → call.mem.result = true ∨ s.sessions.byUid.get ikeSa.uniqueId = none

/-! ## The reuse path -/

/-- Moving a lease leaves no trace iff it was filed under the unique id already. -/
theorem untouched_moveLease_iff (hok : s.Ok False pending) (now : ℤ) :
    s.Untouched { s with sessions := s.sessions.moveLease r u now } ↔
      s.sessions.byUid.get u = some r := by
  constructor
  · intro h
    have hget := congrArg (fun t => Hashtable.get t u) h.byUid
    simpa using hget.symm
  · intro hu
    have huid : s.sessions.uid r = u := hok.sessions.uid_eq hu
    refine ⟨rfl, Hashtable.ext_get ?_, rfl, fun _ r' _ => ?_⟩
    · change (s.sessions.moveLease r u now).byUid.get = _
      rw [SessionManager.byUid_moveLease, huid, Function.update_idem, ← hu, Function.update_eq_self]
    · change (s.sessions.moveLease r u now).uid r' = _
      rw [SessionManager.uid_moveLease, ← huid, Function.update_eq_self]

/-! ## New logins -/

/-- A user with a fixed address does not touch the pool. -/
theorem NewAddress.dyn_of_fixed (h : NewAddress s n mem ip isFixed dyn)
    (hfixed : s.GetsFixed n mem) : ip.isSome = true ∧ isFixed = true ∧ dyn = s.dyn := by
  obtain ⟨hanon, hclone, hsome⟩ := hfixed
  cases h with
  | fixed => exact ⟨rfl, rfl, rfl⟩
  | noPool hnone | pool hnone => simp [hnone hanon hclone] at hsome

/-- A user of the pool marks its first free address. -/
theorem NewAddress.dyn_of_pool (h : NewAddress s n mem ip isFixed dyn)
    (hpool : s.TakesFromPool n mem) : isFixed = false ∧ ∃ p i, s.dyn = some p ∧ p.FirstFree i ∧
      ip = (if mem.poolHost then some (p.addr i) else none) ∧
      dyn = some { p with bits := Bitmap.setBit p.bits i, used := p.used + 1 } := by
  obtain ⟨hnot, p, hp, i, hi⟩ := hpool
  cases h with
  | fixed hanon hlookup hclone => exact absurd ⟨hanon, hclone, by simp [hlookup]⟩ hnot
  | noPool _ hd => simp [hp] at hd
  | @pool q q' _ _ hd hacq =>
    obtain rfl := Option.some.inj (hp.symm.trans hd)
    rw [DynamicPool.acquire_of_firstFree hi] at hacq
    obtain ⟨rfl, rfl⟩ := Prod.mk.inj hacq
    exact ⟨rfl, p, i, hp, hi, rfl, rfl⟩

theorem NewAddress.dyn_of_neither (h : NewAddress s n mem ip isFixed dyn)
    (hfixed : ¬s.GetsFixed n mem) (hpool : ¬s.TakesFromPool n mem) : ip = none ∧ dyn = s.dyn := by
  cases h with
  | fixed hanon hlookup hclone => exact absurd ⟨hanon, hclone, by simp [hlookup]⟩ hfixed
  | noPool _ hd => exact ⟨rfl, hd.symm⟩
  | @pool p p' _ _ hd hacq =>
    have hfull : ∀ i, ¬p.FirstFree i := fun i hi => hpool ⟨hfixed, p, hd, i, hi⟩
    rw [DynamicPool.acquire_of_full hfull] at hacq
    obtain ⟨rfl, rfl⟩ := Prod.mk.inj hacq
    exact ⟨rfl, hd.symm⟩

/-- A mark in the bitmap stays. -/
theorem not_untouched_of_marked {p : DynamicPool} {i : ℕ} (hp : s.dyn = some p)
    (hi : p.FirstFree i)
    (hdyn : s'.dyn = some { p with bits := Bitmap.setBit p.bits i, used := p.used + 1 }) :
    ¬s.Untouched s' := by
  intro h
  have hpool := Option.some.inj (hdyn.symm.trans (h.dyn.trans hp))
  have hbit := congrArg (fun q => DynamicPool.taken q i) hpool
  simp [DynamicPool.taken, show Bitmap.bit p.bits i = false from hi.clear] at hbit

/-- What the address of a new login took from the pool, its release gives back. -/
theorem NewAddress.dyn_release (hok : s.Ok False pending) {addr : Host}
    (h : NewAddress s n mem (some addr) isFixed dyn) :
    (if isFixed then dyn else dyn.map (·.release addr)) = s.dyn := by
  cases h with
  | fixed => rfl
  | @pool p p' _ _ hd hacq =>
    rcases p.acquire_cases mem.poolHost with heq | ⟨i, hf, hlt, heq⟩
    · simp [heq] at hacq
    · obtain ⟨hip, rfl⟩ := Prod.mk.inj (heq.symm.trans hacq)
      obtain rfl : p.addr i = addr := by
        cases hhost : mem.poolHost with
        | true => simpa [hhost] using hip
        | false => simp [hhost] at hip
      rw [if_neg (by simp), Option.map_some, hd, DynamicPool.release_acquired
        (hok.lends.lent hd).sized (DynamicPool.firstFree_iff.2 ⟨hlt, hf⟩)]

/-- Taking the new lease out again undoes the entries of its user name and its unique id, if they
had none. -/
theorem removeLease_putLease (ip : Host) (isFixed : Bool) (now : ℤ)
    (hn : s.sessions.byUser.get n = none) (hu : s.sessions.byUid.get u = none) :
    ((s.sessions.putLease n u ip isFixed now).removeLease u s.sessions.next).byUid =
        s.sessions.byUid ∧
      ((s.sessions.putLease n u ip isFixed now).removeLease u s.sessions.next).byUser =
        s.sessions.byUser := by
  have huser : (s.sessions.putLease n u ip isFixed now).user s.sessions.next = n := by
    simp [SessionManager.user, SessionManager.obj_putLease]
  constructor <;> refine Hashtable.ext_get ?_
  · rw [SessionManager.byUid_removeLease, SessionManager.byUid_putLease, Function.update_idem,
      ← hu, Function.update_eq_self]
  · rw [SessionManager.byUser_removeLease, huser, SessionManager.byUser_putLease,
      Function.update_idem, ← hn, Function.update_eq_self]

/-- Releasing the new lease undoes the login, if it took the unique id from no other lease. -/
theorem untouched_rollback_iff (hok : s.Ok False pending) (hn : s.sessions.byUser.get n = none)
    {ip : Host} (hnew : NewAddress s n mem (some ip) isFixed dyn) (now : ℤ) :
    s.Untouched (releaseByUidImpl { s with
      dyn := dyn, sessions := s.sessions.putLease n u ip isFixed now } u).2 ↔
      s.sessions.byUid.get u = none := by
  have hu : (s.sessions.putLease n u ip isFixed now).byUid.get u = some s.sessions.next := by simp
  have hobj : (s.sessions.putLease n u ip isFixed now).obj s.sessions.next =
      ⟨n, u, ip, isFixed, now⟩ := by simp [SessionManager.obj_putLease]
  rw [releaseByUidImpl, releaseUnbind_of_some (s := { s with
    dyn := dyn, sessions := s.sessions.putLease n u ip isFixed now }) hu]
  constructor
  · intro h
    have hget := congrArg (fun t => Hashtable.get t u) h.byUid
    exact hget.symm.trans (by
      change ((s.sessions.putLease n u ip isFixed now).removeLease u s.sessions.next).byUid.get u =
        none
      simp)
  · intro hnone
    obtain ⟨hbyUid, hbyUser⟩ := removeLease_putLease ip isFixed now hn hnone
    refine ⟨?_, hbyUid, hbyUser, fun n' r hr => ?_⟩
    · change (if ((s.sessions.putLease n u ip isFixed now).obj s.sessions.next).fixed then dyn
        else dyn.map (·.release ((s.sessions.putLease n u ip isFixed now).obj s.sessions.next).ip))
        = s.dyn
      rw [hobj]
      exact hnew.dyn_release hok
    · change (s.sessions.putLease n u ip isFixed now).uid r = _
      rw [SessionManager.uid_putLease, Function.update_of_ne (hok.sessions.lt hr).ne]

/-! ## All points of failure -/

/-- A call whose answer cannot be cloned releases its SA. -/
theorem acquireAddress_of_rollback (hacq : s.acquireEnter call = (.rollback, s'))
    (hsa : call.ikeSa = some ikeSa) :
    s.acquireAddress call = (none, (s'.releaseByUidImpl ikeSa.uniqueId).2) := by
  rw [acquireAddress, hacq, hsa]

/-- If the call answers NULL, the pool and the tables are as they were before it. -/
def LeavesNoTrace (s : IpAllocator) (call : AcquireCall) : Prop :=
  (s.acquireAddress call).1 = none → s.Untouched (s.acquireAddress call).2

/-- With a lease to reuse, cloning its address is all that can fail. -/
theorem recovers_of_lease (hr : s.sessions.byUser.get (sessionName ikeSa) = some r) :
    s.Recovers call ikeSa ↔
      call.mem.result = true ∨ s.sessions.byUid.get ikeSa.uniqueId = some r := by
  refine ⟨fun h => h.reused r hr, fun h => ⟨fun r' hr' => ?_, fun hn => ?_, fun hn => ?_⟩⟩
  · exact Option.some.inj (hr.symm.trans hr') ▸ h
  · simp [hr] at hn
  · simp [hr] at hn

/-- A new login that is refused leaves no trace iff it recovers what it took. -/
theorem leavesNoTrace_of_refused (hn : s.sessions.byUser.get (sessionName ikeSa) = none)
    (hnew : NewAddress s (sessionName ikeSa) call.mem ip isFixed dyn)
    (hwhy : ip = none ∨ call.mem.lease = false) :
    s.Untouched { s with dyn := dyn } ↔ s.Recovers call ikeSa := by
  have hreused : ∀ r, s.sessions.byUser.get (sessionName ikeSa) = some r →
      call.mem.result = true ∨ s.sessions.byUid.get ikeSa.uniqueId = some r := by simp [hn]
  by_cases hfixed : s.GetsFixed (sessionName ikeSa) call.mem
  · obtain ⟨hsome, -, rfl⟩ := hnew.dyn_of_fixed hfixed
    have hlease : call.mem.lease = false := hwhy.resolve_left fun h => by simp [h] at hsome
    exact iff_of_true (.refl s) ⟨hreused, fun _ hpool => absurd hfixed hpool.1,
      fun _ _ hl => by simp [hlease] at hl⟩
  by_cases hpool : s.TakesFromPool (sessionName ikeSa) call.mem
  · obtain ⟨-, p, i, hp, hi, rfl, rfl⟩ := hnew.dyn_of_pool hpool
    refine iff_of_false (not_untouched_of_marked hp hi rfl) fun h => ?_
    obtain ⟨hhost, hlease⟩ := h.marked hn hpool
    simp [hhost, hlease] at hwhy
  · obtain ⟨-, rfl⟩ := hnew.dyn_of_neither hfixed hpool
    exact iff_of_true (.refl s) ⟨hreused, fun _ h => absurd h hpool,
      fun _ h => absurd h (not_or.2 ⟨hfixed, hpool⟩)⟩

/-- Once the new lease is filed, cloning its address is all that can fail. -/
theorem recovers_of_bound (hn : s.sessions.byUser.get (sessionName ikeSa) = none) {ip : Host}
    (hnew : NewAddress s (sessionName ikeSa) call.mem (some ip) isFixed dyn)
    (hlease : call.mem.lease = true) : s.Recovers call ikeSa ↔
      call.mem.result = true ∨ s.sessions.byUid.get ikeSa.uniqueId = none := by
  have hsource : s.GetsFixed (sessionName ikeSa) call.mem ∨
      s.TakesFromPool (sessionName ikeSa) call.mem := by
    by_contra hneither
    obtain ⟨hfixed, hpool⟩ := not_or.1 hneither
    simpa using (hnew.dyn_of_neither hfixed hpool).1
  refine ⟨fun h => h.rolledBack hn hsource hlease, fun h => ⟨?_, fun _ hpool => ?_, fun _ _ _ => h⟩⟩
  · simp [hn]
  · obtain ⟨-, p, i, -, -, hip, -⟩ := hnew.dyn_of_pool hpool
    refine ⟨?_, hlease⟩
    by_contra hhost
    simp [hhost] at hip

/-- When a failed login leaves no trace. -/
theorem leavesNoTrace_iff (hok : s.Ok False pending) : s.LeavesNoTrace call ↔
    ∀ ikeSa, s.served call = some ikeSa → s.Recovers call ikeSa := by
  have hone : ∀ {ikeSa}, s.served call = some ikeSa →
      ((∀ ikeSa, s.served call = some ikeSa → s.Recovers call ikeSa) ↔ s.Recovers call ikeSa) :=
    fun {ikeSa} hserved => ⟨fun h => h ikeSa hserved, fun h ikeSa' hserved' =>
      Option.some.inj (hserved.symm.trans hserved') ▸ h⟩
  obtain ⟨out, s', hacq⟩ : ∃ out s', s.acquireEnter call = (out, s') := ⟨_, _, rfl⟩
  cases acquireEnter_cases hacq with
  | skipped hserved =>
    rw [LeavesNoTrace, acquireAddress_of_done hacq]
    exact iff_of_true (fun _ => .refl s) (by simp [hserved])
  | @reused ikeSa r hserved hr =>
    rw [LeavesNoTrace, acquireAddress_of_done hacq, hone hserved, recovers_of_lease hr,
      untouched_moveLease_iff hok]
    cases call.mem.result <;> simp
  | @refused ikeSa ip isFixed dyn hserved hn hnew hwhy =>
    rw [LeavesNoTrace, acquireAddress_of_done hacq, hone hserved,
      ← leavesNoTrace_of_refused hn hnew hwhy]
    exact ⟨fun h => h rfl, fun h _ => h⟩
  | @bound ikeSa ip isFixed dyn hserved hn hnew hlease =>
    rw [hone hserved, recovers_of_bound hn hnew hlease]
    cases hres : call.mem.result with
    | true =>
      rw [hres, if_pos rfl] at hacq
      rw [LeavesNoTrace, acquireAddress_of_done hacq]
      simp
    | false =>
      rw [hres, if_neg Bool.false_ne_true] at hacq
      rw [LeavesNoTrace, acquireAddress_of_rollback hacq (ikeSa_of_served hserved),
        untouched_rollback_iff hok hn hnew]
      simp

end IpAllocator

/-- In every state that threads can reach, a failed login leaves the pool and the tables as
they were iff its failing allocations are among those that the code cleans up after. -/
theorem failed_login_iff {parse : CString → Option Host} {policy : PolicyEngine}
    {poolName : Option CString} {leaseTimeout : UInt32} {calloc : Option (ℕ → UInt8)}
    {es : List CriticalSection} {w : World}
    (h : World.Run parse (fun _ _ _ => True)
      (ipAllocatorCreate policy poolName leaseTimeout calloc) es w) (call : AcquireCall) :
    w.alloc.LeavesNoTrace call ↔
      ∀ ikeSa, w.alloc.served call = some ikeSa → w.alloc.Recovers call ikeSa := by
  exact IpAllocator.leavesNoTrace_iff (World.loose_of_create h)

/-- A login that finds no memory for what `mem` says. -/
def poorLogin (ikeSa : IkeSa) (mem : Alloc) : AcquireCall :=
  { login ikeSa 0 with mem := mem }

/-- The pool has an address for `a`, and the last clone fails. -/
theorem failed_login_rolled_back : ∃ w, World.Run (fun _ => none) (fun _ _ _ => True)
      (smallAlloc (smallPolicy [] 1 3)) [] w ∧
    (w.alloc.acquireAddress
      (poorLogin (letterSa 1 'a') { Alloc.ok with result := false })).1 = none ∧
    w.alloc.LeavesNoTrace (poorLogin (letterSa 1 'a') { Alloc.ok with result := false }) := by
  have hrun : World.Run (fun _ => none) (fun _ _ _ => True) (smallAlloc (smallPolicy [] 1 3)) []
    (.start (smallAlloc (smallPolicy [] 1 3))) := .nil
  refine ⟨_, hrun, by decide, (failed_login_iff hrun _).2 ?_⟩
  intro ikeSa hserved
  obtain rfl := Option.some.inj
    ((IpAllocator.ikeSa_of_served hserved).symm.trans (rfl : _ = some (letterSa 1 'a')))
  exact ⟨by decide, fun _ _ => ⟨rfl, rfl⟩, fun _ _ _ => Or.inr (by decide)⟩

/-- Without memory for the lease, the address of the pool stays marked. And without memory
for the answer, the lease that `a` already has stays moved to the new unique id. -/
theorem not_leaves_no_trace :
    (¬∀ (es : List CriticalSection) (w : World) (ikeSa : IkeSa),
      World.Run (fun _ => none) (fun _ _ _ => True) (smallAlloc (smallPolicy [] 1 3)) es w →
        w.alloc.LeavesNoTrace (poorLogin ikeSa { Alloc.ok with lease := false })) ∧
    ¬∀ (es : List CriticalSection) (w : World) (ikeSa : IkeSa),
      World.Run (fun _ => none) (fun _ _ _ => True) (smallAlloc (smallPolicy [] 1 3)) es w →
        w.alloc.LeavesNoTrace (poorLogin ikeSa { Alloc.ok with result := false }) := by
  constructor <;> intro hall
  · have htrace := hall [] _ (letterSa 1 'a') .nil (by decide)
    have hused := congrArg (fun d : Option DynamicPool => d.map (·.used)) htrace.dyn
    exact absurd hused (by decide)
  · obtain ⟨w, hrun, hfacts⟩ := Run.exists_of_exec (by decide :
      (exec (World.step fun _ => none) (fun _ _ _ => True) []
        (.start (smallAlloc (smallPolicy [] 1 3)))
        [.acquire (login (letterSa 1 'a') 0) (.done (some (tenNet 1)))]).map
        (fun w =>
          let out := w.alloc.acquireAddress
            (poorLogin (letterSa 3 'a') { Alloc.ok with result := false })
          (out.1, w.alloc.sessions.byUid.get 1, out.2.sessions.byUid.get 1)) =
        some (none, some 0, none))
    simp only [Prod.mk.injEq] at hfacts
    obtain ⟨hnull, hbefore, hafter⟩ := hfacts
    have htrace := hall _ w (letterSa 3 'a') hrun hnull
    rw [htrace.byUid, hbefore] at hafter
    simp at hafter

end Cupp
