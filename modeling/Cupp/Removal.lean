import Cupp.Operations

/-!
# Removing leases

A release takes one lease out of the tables and gives its address back, and a sweep does so
for several. `IpAllocator.Without s gone s'` says that `s'` is `s` without the leases
`gone` : they are in neither table and freed, the bits of their pool addresses are clear,
`used` is smaller by their number, and everything else is as it was. This determines `s'`
(`Without.eq`), and removals in sequence make up one removal (`Without.trans`).

That `used` drops needs it to be at least the number of the holders (`Stocked`), which holds
in every reachable state, whatever the size of the pool and whichever allocations fail.
-/

set_option linter.unusedSectionVars false

open Transition

namespace Cupp

/-! ## Taking addresses back -/

namespace DynamicPool

variable {R : Type*} [DecidableEq R] {gone gone' : Finset R} {ip : R → Host}
  {p p' p'' : DynamicPool} {r : R}

/-- `p'` is `p` with the addresses of the owners `gone` given back. -/
structure TakesBack (gone : Finset R) (ip : R → Host) (p p' : DynamicPool) : Prop where
  sameRange : SameRange p p'
  taken : ∀ i, p'.taken i = true ↔ p.taken i = true ∧ ∀ r ∈ gone, p.slot (ip r) ≠ i
  used : p'.used.toNat + gone.card = p.used.toNat

theorem TakesBack.refl (ip : R → Host) (p : DynamicPool) : TakesBack ∅ ip p p :=
  ⟨.refl p, by simp, by simp⟩

/-- Taking back one set of addresses after another. -/
theorem TakesBack.trans (h : TakesBack gone ip p p') (h' : TakesBack gone' ip p' p'')
    (hdisj : Disjoint gone gone') : TakesBack (gone ∪ gone') ip p p'' := by
  refine ⟨h.sameRange.trans h'.sameRange, fun i => ?_, ?_⟩
  · rw [h'.taken, h.taken, and_assoc, Finset.forall_mem_union]
    simp only [h.sameRange.slot_eq]
  · rw [Finset.card_union_of_disjoint hdisj, ← h.used, ← h'.used]
    omega

/-- The range, the bits and the count are all there is to a pool. -/
theorem TakesBack.eq (h : TakesBack gone ip p p') (h' : TakesBack gone ip p p'') : p' = p'' := by
  have hbits : p'.bits = p''.bits :=
    Bitmap.ext_bit fun i => Bool.eq_iff_iff.2 ((h.taken i).trans (h'.taken i).symm)
  have hused : p'.used = p''.used := by
    have hcard := h.used.trans h'.used.symm
    exact UInt32.toNat_inj.1 (by omega)
  have hs := h.sameRange
  have hs' := h'.sameRange
  cases p'
  cases p''
  simp only [mk.injEq]
  exact ⟨hs.startH.trans hs'.startH.symm, hs.endH.trans hs'.endH.symm,
    hs.capacity.trans hs'.capacity.symm, hbits, hs.bytes.trans hs'.bytes.symm, hused⟩

/-- `release` of a marked address of the range, counted by `used`. -/
theorem takesBack_release (ip : R → Host) (hs : p.Sized) (hi : p.slot (ip r) < p.capacity.toNat)
    (haddr : ip r = p.addr (p.slot (ip r))) (ht : p.taken (p.slot (ip r)) = true)
    (hused : 0 < p.used.toNat) : TakesBack {r} ip p (p.release (ip r)) := by
  refine ⟨p.sameRange_release (ip r), fun i => ?_, ?_⟩
  · have htaken := taken_release_addr hs hi i
    rw [← haddr] at htaken
    simp only [htaken, Bool.and_eq_true, decide_eq_true_eq, Finset.mem_singleton, forall_eq]
    exact and_comm.trans (and_congr_right fun _ => ne_comm)
  · rw [haddr, release_addr hs hi ht, Finset.card_singleton]
    simp only [toNat_sub_one hused]
    omega

end DynamicPool

namespace IpAllocator

variable {s s' s'' : IpAllocator} {pending : List LeaseRef} {gone gone' : Finset LeaseRef}
  {u : UInt32} {r : LeaseRef} {owner : UInt32 → CString} {parse : CString → Option Host}

/-! ## Enough addresses are counted -/

/-- `used` is at least the number of the holders. -/
def Stocked (s : IpAllocator) (pending : List LeaseRef) : Prop :=
  ∀ p, s.dyn = some p → (s.holders pending).ncard ≤ p.used.toNat

theorem stocked_create {policy : PolicyEngine} {poolName : Option CString}
    {leaseTimeout : UInt32} {calloc : Option (ℕ → UInt8)} :
    (ipAllocatorCreate policy poolName leaseTimeout calloc).Stocked [] := by
  intro p _
  have hnone : (ipAllocatorCreate policy poolName leaseTimeout calloc).holders [] = ∅ := by
    ext r
    simp [holders, ipAllocatorCreate, SessionManager.create]
  rw [hnone, Set.ncard_empty]
  exact Nat.zero_le _

/-- Finitely many leases have an address of the pool. -/
theorem Ok.finite_holders (h : s.Ok False pending) : (s.holders pending).Finite := by
  cases hd : s.dyn with
  | none =>
    rw [h.lends.noPool hd]
    exact Set.finite_empty
  | some p => exact (h.lends.lent hd).held.finite

/-- As long as a lease has an address of the pool, `used` is not 0. -/
theorem Ok.used_pos (h : s.Ok False pending) (hst : s.Stocked pending) {p : DynamicPool}
    (hp : s.dyn = some p) (hr : r ∈ s.holders pending) : 0 < p.used.toNat :=
  (Set.ncard_pos h.finite_holders |>.2 ⟨r, hr⟩).trans_le (hst _ hp)

/-- `acquire` counts an address it marks, and never counts down. -/
theorem NewAddress.used_le {n : CString} {mem : Alloc} {ip : Option Host} {isFixed : Bool}
    {dyn : Option DynamicPool} {p' : DynamicPool} (h : NewAddress s n mem ip isFixed dyn)
    (hp' : dyn = some p') : ∃ p, s.dyn = some p ∧ p.used.toNat ≤ p'.used.toNat ∧
      (ip.isSome = true → isFixed = false → p.used.toNat + 1 ≤ p'.used.toNat) := by
  cases h with
  | fixed => exact ⟨p', hp', le_rfl, by simp⟩
  | noPool => simp at hp'
  | @pool p q ip _ hd hacq =>
    obtain rfl := Option.some.inj hp'
    refine ⟨p, hd, ?_⟩
    rcases p.acquire_cases mem.poolHost with heq | ⟨i, -, hu, heq⟩
    · obtain ⟨rfl, rfl⟩ := Prod.mk.inj (hacq.symm.trans heq)
      exact ⟨le_rfl, by simp⟩
    · obtain ⟨-, rfl⟩ := Prod.mk.inj (hacq.symm.trans heq)
      simp only [DynamicPool.toNat_add_one hu]
      exact ⟨by omega, fun _ _ => le_rfl⟩

/-- `acquire_address` keeps enough addresses counted. -/
theorem Stocked.acquireEnter (hst : s.Stocked pending) (h : s.Ok False pending)
    {call : AcquireCall} {answer : Acquired} (hacq : s.acquireEnter call = (answer, s')) :
    s'.Stocked pending := by
  cases acquireEnter_cases hacq with
  | skipped => exact hst
  | reused =>
    intro p hp
    rw [holders_moveLease]
    exact hst _ hp
  | refused _ _ hnew =>
    intro p' hp'
    obtain ⟨p, hp, hle, -⟩ := hnew.used_le hp'
    exact (hst _ hp).trans hle
  | @bound ikeSa ip isFixed dyn _ hn hnew =>
    intro p' hp'
    obtain ⟨p, hp, hle, hlt⟩ := hnew.used_le hp'
    have hold := hst _ hp
    rw [holders_putLease h hn]
    cases isFixed with
    | true => exact hold.trans hle
    | false =>
      have hcard := Set.ncard_insert_le s.sessions.next (s.holders pending)
      have hnew := hlt rfl rfl
      simp only [Bool.false_eq_true, if_false]
      omega

/-- So does giving one back. -/
theorem Stocked.releaseFinish (hst : s.Stocked pending) (h : s.Ok False pending)
    (hr : r ∈ pending) : (s.releaseFinish r).Stocked (pending.erase r) := by
  intro p' hp'
  rw [holders_releaseFinish h hr]
  by_cases hfixed : (s.sessions.obj r).fixed = true
  · have hp : s.dyn = some p' := by simpa [IpAllocator.releaseFinish, hfixed] using hp'
    exact (Set.ncard_le_ncard Set.sdiff_subset h.finite_holders).trans (hst _ hp)
  · obtain ⟨p, hp, rfl⟩ : ∃ p, s.dyn = some p ∧ p.release (s.sessions.obj r).ip = p' := by
      simpa [IpAllocator.releaseFinish, hfixed] using hp'
    have hmem : r ∈ s.holders pending := ⟨Or.inr hr, by simpa using hfixed⟩
    have hlent := h.lends.lent hp
    have hback := DynamicPool.takesBack_release (fun r => (s.sessions.obj r).ip) hlent.sized
      (hlent.held.lt hmem) (hlent.addr hmem) (hlent.held.marked hmem) (h.used_pos hst hp hmem)
    have hused := hback.used
    have hcard := Set.ncard_sdiff_singleton_add_one hmem h.finite_holders
    have hold := hst _ hp
    rw [Finset.card_singleton] at hused
    omega

theorem Stocked.removeLease (hst : s.Stocked pending) (h : s.Ok False pending)
    (hu : s.sessions.byUid.get u = some r) :
    Stocked { s with sessions := s.sessions.removeLease u r } (r :: pending) := by
  intro p hp
  rw [holders_removeLease h hu]
  exact hst _ hp

/-- A release keeps enough addresses counted. -/
theorem Stocked.releaseByUidImpl (hst : s.Stocked pending) (h : s.Ok False pending) (u : UInt32) :
    (s.releaseByUidImpl u).2.Stocked pending := by
  cases hu : s.sessions.byUid.get u with
  | none =>
    rw [releaseByUidImpl_of_none hu]
    exact hst
  | some r =>
    have hfinish := (hst.removeLease h hu).releaseFinish (h.removeLease hu) List.mem_cons_self
    rw [List.erase_cons_head] at hfinish
    rw [releaseByUidImpl_of_some hu]
    exact hfinish

theorem stocked_step {w w' : World} {e : CriticalSection} (hok : w.alloc.Ok False w.pending)
    (hst : w.alloc.Stocked w.pending) (h : w.step parse e = some w') :
    w'.alloc.Stocked w'.pending := by
  cases World.step_cases h with
  | acquire hacq => exact hst.acquireEnter hok hacq
  | unbindNone => exact hst
  | unbindSome hu => exact hst.removeLease hok hu
  | finish hr => exact hst.releaseFinish hok hr
  | reload => exact hst

theorem stocked_of_run {guard : List CriticalSection → World → CriticalSection → Prop}
    {es : List CriticalSection} {w : World} (hok : s.Ok False []) (hst : s.Stocked [])
    (h : World.Run parse guard s es w) : w.alloc.Ok False w.pending ∧
      w.alloc.Stocked w.pending := by
  refine h.invariant (I := fun w => w.alloc.Ok False w.pending ∧ w.alloc.Stocked w.pending)
    ⟨hok, hst⟩ fun es w e w' hi _ hs => ?_
  exact ⟨World.loose_step hi.1 hs, stocked_step hi.1 hi.2 hs⟩

/-- In all runs of a new allocator enough addresses are counted. -/
theorem stocked_of_create {policy : PolicyEngine} {poolName : Option CString}
    {leaseTimeout : UInt32} {calloc : Option (ℕ → UInt8)}
    {guard : List CriticalSection → World → CriticalSection → Prop}
    {es : List CriticalSection} {w : World}
    (h : World.Run parse guard (ipAllocatorCreate policy poolName leaseTimeout calloc) es w) :
    w.alloc.Ok False w.pending ∧ w.alloc.Stocked w.pending :=
  stocked_of_run (ok_create policy poolName leaseTimeout calloc False.elim) stocked_create h

/-! ## One state without leases of another -/

/-- `s'` is `s` without the leases `gone`. -/
structure Without (s : IpAllocator) (gone : Finset LeaseRef) (s' : IpAllocator) : Prop where
  byUid : ∀ u, s'.sessions.byUid.get u = (s.sessions.byUid.get u).filter (· ∉ gone)
  byUser : ∀ n, s'.sessions.byUser.get n = (s.sessions.byUser.get n).filter (· ∉ gone)
  obj : s'.sessions.obj = s.sessions.obj
  next : s'.sessions.next = s.sessions.next
  freed : s'.sessions.freed = s.sessions.freed ∪ gone
  dyn : Option.Rel (DynamicPool.TakesBack
    (gone.filter fun r => (s.sessions.obj r).fixed = false) fun r => (s.sessions.obj r).ip)
    s.dyn s'.dyn
  policy : s'.policy = s.policy
  poolName : s'.poolName = s.poolName
  leaseTimeout : s'.leaseTimeout = s.leaseTimeout

theorem filter_notMem_singleton {o : Option LeaseRef} (h : o ≠ some r) :
    o.filter (· ∉ ({r} : Finset LeaseRef)) = o := by
  cases o with
  | none => rfl
  | some r' => simpa [Option.filter] using h

theorem filter_notMem_empty (o : Option LeaseRef) :
    o.filter (· ∉ (∅ : Finset LeaseRef)) = o := by
  cases o <;> simp [Option.filter]

theorem filter_notMem_union (o : Option LeaseRef) :
    (o.filter (· ∉ gone)).filter (· ∉ gone') = o.filter (· ∉ gone ∪ gone') := by
  cases o with
  | none => rfl
  | some r => by_cases h : r ∈ gone <;> by_cases h' : r ∈ gone' <;> simp [Option.filter, h, h']

theorem Without.refl (s : IpAllocator) : s.Without ∅ s := by
  refine ⟨fun u => (filter_notMem_empty _).symm, fun n => (filter_notMem_empty _).symm, rfl, rfl,
    by simp, ?_, rfl, rfl, rfl⟩
  cases s.dyn with
  | none => exact .none
  | some p => exact .some (.refl _ p)

/-- Removing one set of leases after another. -/
theorem Without.trans (h : s.Without gone s') (h' : s'.Without gone' s'')
    (hdisj : Disjoint gone gone') : s.Without (gone ∪ gone') s'' where
  byUid u := by rw [h'.byUid, h.byUid, filter_notMem_union]
  byUser n := by rw [h'.byUser, h.byUser, filter_notMem_union]
  obj := h'.obj.trans h.obj
  next := h'.next.trans h.next
  freed := by rw [h'.freed, h.freed, Finset.union_assoc]
  dyn := by
    have hdyn := h.dyn
    have hdyn' := h'.dyn
    rw [h.obj] at hdyn'
    revert hdyn hdyn'
    generalize s.dyn = d, s'.dyn = d', s''.dyn = d''
    rintro (⟨hp⟩ | _) (⟨hp'⟩ | _)
    · rw [Finset.filter_union]
      exact .some (hp.trans hp' (Finset.disjoint_filter_filter hdisj))
    · exact .none
  policy := h'.policy.trans h.policy
  poolName := h'.poolName.trans h.poolName
  leaseTimeout := h'.leaseTimeout.trans h.leaseTimeout

/-- A state and the leases to remove determine the state without them. -/
theorem Without.eq (h : s.Without gone s') (h' : s.Without gone s'') : s' = s'' := by
  have hsessions : s'.sessions = s''.sessions := by
    have hbyUid : s'.sessions.byUid = s''.sessions.byUid :=
      Hashtable.ext_get (funext fun u => (h.byUid u).trans (h'.byUid u).symm)
    have hbyUser : s'.sessions.byUser = s''.sessions.byUser :=
      Hashtable.ext_get (funext fun n => (h.byUser n).trans (h'.byUser n).symm)
    have hobj := h.obj.trans h'.obj.symm
    have hnext := h.next.trans h'.next.symm
    have hfreed := h.freed.trans h'.freed.symm
    revert hbyUid hbyUser hobj hnext hfreed
    generalize s'.sessions = m', s''.sessions = m''
    cases m'
    cases m''
    simp_all
  have hdyn : s'.dyn = s''.dyn := by
    have hd := h.dyn
    have hd' := h'.dyn
    revert hd hd'
    generalize s.dyn = d, s'.dyn = d', s''.dyn = d''
    rintro (⟨hp⟩ | _) (⟨hp'⟩ | _)
    · rw [hp.eq hp']
    · rfl
  have hpolicy := h.policy.trans h'.policy.symm
  have hname := h.poolName.trans h'.poolName.symm
  have htimeout := h.leaseTimeout.trans h'.leaseTimeout.symm
  cases s'
  cases s''
  simp_all

/-! ## A release removes one lease -/

/-- A release leaves the state without one lease. -/
theorem without_releaseByUidImpl (hok : s.Ok False pending) (hst : s.Stocked pending)
    (hu : s.sessions.byUid.get u = some r) : s.Without {r} (s.releaseByUidImpl u).2 := by
  have hfiled := hok.sessions.filed.toB hu
  rw [releaseByUidImpl_of_some hu]
  refine ⟨fun u' => ?_, fun n => ?_, rfl, rfl, ?_, ?_, rfl, rfl, rfl⟩
  · change (s.sessions.removeLease u r).byUid.get u' = _
    rw [SessionManager.byUid_removeLease]
    rcases eq_or_ne u' u with rfl | hne
    · simp [hu, Option.filter]
    · rw [Function.update_of_ne hne]
      refine (filter_notMem_singleton fun hu' => hne ?_).symm
      exact (hok.sessions.uid_eq hu').symm.trans (hok.sessions.uid_eq hu)
  · change (s.sessions.removeLease u r).byUser.get n = _
    rw [SessionManager.byUser_removeLease]
    rcases eq_or_ne n (s.sessions.user r) with rfl | hne
    · rw [Function.update_self]
      simp [hfiled, Option.filter]
    · rw [Function.update_of_ne hne]
      exact (filter_notMem_singleton fun hn => hne (hok.sessions.user_eq hn).symm).symm
  · exact (Finset.insert_eq _ _).trans (Finset.union_comm _ _)
  · change Option.Rel _ s.dyn (if (s.sessions.obj r).fixed then s.dyn
      else s.dyn.map (·.release (s.sessions.obj r).ip))
    by_cases hfixed : (s.sessions.obj r).fixed = true
    · have hnone : (({r} : Finset LeaseRef).filter fun r => (s.sessions.obj r).fixed = false) =
          ∅ := by
        simp [Finset.filter_singleton, hfixed]
      rw [if_pos hfixed, hnone]
      cases s.dyn with
      | none => exact .none
      | some p => exact .some (.refl _ p)
    · have hone : (({r} : Finset LeaseRef).filter fun r => (s.sessions.obj r).fixed = false) =
          {r} := by
        simp [Finset.filter_singleton, hfixed]
      rw [if_neg hfixed, hone]
      have hmem : r ∈ s.holders pending := mem_holders_of_byUser hfiled (by simpa using hfixed)
      cases hd : s.dyn with
      | none => exact .none
      | some p =>
        have hlent := hok.lends.lent hd
        exact .some (DynamicPool.takesBack_release (fun r => (s.sessions.obj r).ip) hlent.sized
          (hlent.held.lt hmem) (hlent.addr hmem) (hlent.held.marked hmem)
          (hok.used_pos hst hd hmem))

end IpAllocator

end Cupp
