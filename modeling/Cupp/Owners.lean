import Cupp.IpAllocator

/-!
# Who holds the addresses

A pool address is out from the time `acquire` marks it until `release` clears it. In
between it is held by a lease : one in the tables, or one that is unbound with its pool
release still to run (`pending`). `IpAllocator.Ok` is the invariant that ties the bitmap to
these leases, and each critical section of the allocator keeps it, for any names, unique
ids and allocation failures.

The parameter `tight` says whether no allocation has failed. A failed allocation can leave
an address marked that no lease holds, so only `tight` gives the converse, that marked
addresses are held and `used` counts them.
-/

set_option linter.unusedSectionVars false

namespace Cupp

/-! ## Addresses lent by a pool -/

namespace DynamicPool

variable {R : Type*} {tight : Prop} {owners : Set R} {ip ip' : R → Host} {p p' : DynamicPool}
  {r : R} {hostOk : Bool}

/-- Each owner `r` holds its own marked address `ip r` of the pool. -/
structure Lent (tight : Prop) (owners : Set R) (ip : R → Host) (p : DynamicPool) : Prop where
  sized : p.Sized
  held : Slots.Held p.capacity.toNat p.taken owners fun r => p.slot (ip r)
  addr : ∀ {r}, r ∈ owners → ip r = p.addr (p.slot (ip r))
  exact : tight → Slots.Exact p.capacity.toNat p.taken owners (fun r => p.slot (ip r)) ∧ p.Counted

/-- Owners hold addresses of the range. -/
theorem Lent.isInPool (h : p.Lent tight owners ip) (hr : r ∈ owners) :
    p.isInPool (ip r) = true := by
  rw [h.addr hr]
  exact h.sized.isInPool_addr (h.held.lt hr)

/-- No two owners hold one address. -/
theorem Lent.injOn (h : p.Lent tight owners ip) : Set.InjOn ip owners :=
  fun _ ha _ hb heq => h.held.inj ha hb (congrArg p.slot heq)

theorem Lent.congr (h : p.Lent tight owners ip) (hip : ∀ r ∈ owners, ip' r = ip r) :
    p.Lent tight owners ip' := by
  have hs : ∀ r ∈ owners, p.slot (ip' r) = p.slot (ip r) := fun r hr => by rw [hip r hr]
  refine ⟨h.sized, h.held.congr_slot hs, fun {r} hr => ?_, fun ht => ?_⟩
  · rw [hip r hr]
    exact h.addr hr
  · exact ⟨(h.exact ht).1.congr_slot hs, (h.exact ht).2⟩

theorem SameRange.slot_congr {p p' : DynamicPool} (h : SameRange p p') (ip : R → Host) :
    (fun r => p'.slot (ip r)) = fun r => p.slot (ip r) :=
  funext fun r => h.slot_eq (ip r)

/-- `acquire` lends a new owner an address. -/
theorem Lent.acquire (h : p.Lent tight owners ip) (hr : r ∉ owners)
    (hacq : p.acquire hostOk = (some (ip' r), p')) (hold : ∀ r' ∈ owners, ip' r' = ip r') :
    p'.Lent tight (insert r owners) ip' := by
  have hsame : SameRange p p' := by simpa [hacq] using sameRange_acquire p hostOk
  rcases p.acquire_cases hostOk with heq | ⟨i, hfree, -, heq⟩
  · simp [hacq] at heq
  obtain ⟨hi, hclear, -⟩ := firstFree_eq_some.1 hfree
  obtain ⟨hip, hp'⟩ := Prod.mk.inj (hacq.symm.trans heq)
  have haddr : ip' r = p.addr i := by
    cases hostOk with
    | true => simpa using hip
    | false => simp at hip
  have hslot : p.slot (ip' r) = i := by rw [haddr, h.sized.slot_addr hi]
  have hold' : ∀ r' ∈ owners, p.slot (ip' r') = p.slot (ip r') := fun r' hr' => by rw [hold r' hr']
  have hset : p'.taken i = true := by
    rw [hp']
    exact Bitmap.bit_setBit_self _ _
  have hkeep : ∀ j, j ≠ i → p'.taken j = p.taken j := by
    intro j hj
    rw [hp']
    exact Bitmap.bit_setBit_of_ne _ hj
  refine ⟨h.sized.of_sameRange hsame, ?_, ?_, fun ht => ⟨?_, ?_⟩⟩
  · rw [hsame.slot_congr, hsame.capacity]
    exact h.held.insert hi hclear hset hkeep hslot hold'
  · rintro r' (rfl | hr')
    · rw [hsame.addr_eq, hsame.slot_eq, hslot, haddr]
    · rw [hsame.addr_eq, hsame.slot_eq, hold r' hr']
      exact h.addr hr'
  · rw [hsame.slot_congr, hsame.capacity]
    exact (h.exact ht).1.insert hi hclear hset hkeep hslot hold'
  · simpa [hacq] using (h.exact ht).2.acquire hostOk

/-- An address marked for nobody hurts only the converse. -/
theorem Lent.leak (h : p.Lent tight owners ip) (htight : tight → p' = p)
    (hacq : (p.acquire hostOk).2 = p') : p'.Lent tight owners ip := by
  have hsame : SameRange p p' := hacq ▸ sameRange_acquire p hostOk
  have hkeep : ∀ j, p.taken j = true → p'.taken j = true := by
    intro j hj
    rcases p.acquire_cases hostOk with heq | ⟨i, -, -, heq⟩
    · rw [← hacq, heq]
      exact hj
    · rw [← hacq, heq]
      rcases eq_or_ne j i with rfl | hne
      · exact Bitmap.bit_setBit_self _ _
      · exact (Bitmap.bit_setBit_of_ne _ hne).trans hj
  refine ⟨h.sized.of_sameRange hsame, ?_, fun {r} hr => ?_, fun ht => ?_⟩
  · rw [hsame.slot_congr, hsame.capacity]
    exact h.held.mono hkeep
  · rw [hsame.addr_eq, hsame.slot_eq]
    exact h.addr hr
  · rw [htight ht]
    exact h.exact ht

/-- `release` takes an owner's address back. -/
theorem Lent.release (h : p.Lent tight owners ip) (hr : r ∈ owners) :
    (p.release (ip r)).Lent tight (owners \ {r}) ip := by
  have hsame := sameRange_release p (ip r)
  have hi := h.held.lt hr
  have htaken : ∀ j, (p.release (ip r)).taken j = (decide (j ≠ p.slot (ip r)) && p.taken j) := by
    intro j
    rw [h.addr hr, taken_release_addr h.sized hi, ← h.addr hr]
  have hclear : (p.release (ip r)).taken (p.slot (ip r)) = false := by simp [htaken]
  have hkeep : ∀ j, j ≠ p.slot (ip r) → (p.release (ip r)).taken j = p.taken j := by
    intro j hj
    simp [htaken, hj]
  refine ⟨h.sized.of_sameRange hsame, ?_, fun {r'} hr' => ?_, fun ht => ⟨?_, ?_⟩⟩
  · rw [hsame.slot_congr, hsame.capacity]
    exact h.held.remove hr hkeep
  · rw [hsame.addr_eq, hsame.slot_eq]
    exact h.addr hr'.1
  · rw [hsame.slot_congr, hsame.capacity]
    exact (h.exact ht).1.remove hr hclear hkeep
  · rw [h.addr hr]
    exact (h.exact ht).2.release h.sized hi

end DynamicPool

/-! ## The allocator's leases -/

namespace IpAllocator

variable {tight : Prop} {s s' : IpAllocator} {pending : List LeaseRef} {r : LeaseRef}
  {u : UInt32} {n : CString} {mem : Alloc} {call : AcquireCall} {answer : Acquired}

/-- The leases that hold a pool address : the non-fixed ones in the tables, and those
unbound with the pool release still to run. -/
def holders (s : IpAllocator) (pending : List LeaseRef) : Set LeaseRef :=
  {r | ((∃ n, s.sessions.byUser.get n = some r) ∨ r ∈ pending) ∧ (s.sessions.obj r).fixed = false}

/-- The pool has lent its addresses to the holders. Without a pool there are none. -/
structure Lends (tight : Prop) (s : IpAllocator) (pending : List LeaseRef) : Prop where
  lent : ∀ {p}, s.dyn = some p → p.Lent tight (s.holders pending) fun r => (s.sessions.obj r).ip
  noPool : s.dyn = none → s.holders pending = ∅

/-- The invariant of the critical sections. -/
structure Ok (tight : Prop) (s : IpAllocator) (pending : List LeaseRef) : Prop where
  sessions : s.sessions.Ok
  detached : s.sessions.Detached pending
  lends : s.Lends tight pending

/-- The addresses lent out depend on the pool and on the leases with an address of it. -/
theorem Lends.congr {pending' : List LeaseRef} (h : s.Lends tight pending) (hdyn : s'.dyn = s.dyn)
    (hholders : s'.holders pending' = s.holders pending)
    (hip : ∀ r ∈ s.holders pending, (s'.sessions.obj r).ip = (s.sessions.obj r).ip) :
    s'.Lends tight pending' := by
  refine ⟨fun hp => ?_, fun hnone => hholders.trans (h.noPool (hdyn ▸ hnone))⟩
  rw [hholders]
  exact (h.lent (hdyn ▸ hp)).congr hip

/-- Without the converse for marked addresses. -/
theorem Ok.loose (h : s.Ok tight pending) : s.Ok False pending where
  sessions := h.sessions
  detached := h.detached
  lends := ⟨fun hp => ⟨(h.lends.lent hp).sized, (h.lends.lent hp).held, (h.lends.lent hp).addr,
    False.elim⟩, h.lends.noPool⟩

/-- A pool lease filed by name has an address of the pool. -/
theorem mem_holders_of_byUser (hr : s.sessions.byUser.get n = some r)
    (hfixed : (s.sessions.obj r).fixed = false) : r ∈ s.holders pending :=
  ⟨Or.inl ⟨n, hr⟩, hfixed⟩

theorem Ok.lt_next (h : s.Ok tight pending) (hr : r ∈ s.holders pending) :
    r < s.sessions.next := by
  obtain ⟨⟨n, hn⟩ | hpend, -⟩ := hr
  · exact h.sessions.lt hn
  · exact h.detached.lt hpend

/-! ## Acquiring keeps the invariant -/

/-- A new lease adds a holder if it is not fixed, and no holder otherwise. -/
theorem holders_putLease (h : s.Ok tight pending) (hn : s.sessions.byUser.get n = none)
    (u : UInt32) (ip : Host) (fixed : Bool) (now : ℤ) (dyn : Option DynamicPool) :
    holders { s with dyn := dyn, sessions := s.sessions.putLease n u ip fixed now } pending =
      if fixed then s.holders pending else insert s.sessions.next (s.holders pending) := by
  have hobj : ∀ r, r ≠ s.sessions.next →
      (s.sessions.putLease n u ip fixed now).obj r = s.sessions.obj r := fun r hr => by
    rw [SessionManager.obj_putLease, Function.update_of_ne hr]
  have hnext : ((s.sessions.putLease n u ip fixed now).obj s.sessions.next).fixed = fixed := by
    rw [SessionManager.obj_putLease, Function.update_self]
  -- a lease other than the new one is filed, and a holder, as before
  have hold : ∀ r, r ≠ s.sessions.next →
      (r ∈ holders { s with dyn := dyn, sessions := s.sessions.putLease n u ip fixed now } pending ↔
        r ∈ s.holders pending) := by
    intro r hr
    have hfiled : (∃ n', (s.sessions.putLease n u ip fixed now).byUser.get n' = some r) ↔
        ∃ n', s.sessions.byUser.get n' = some r := by
      rw [SessionManager.byUser_putLease]
      refine exists_congr fun n' => ?_
      rcases eq_or_ne n' n with rfl | hne
      · simp [hn, hr.symm]
      · rw [Function.update_of_ne hne]
    exact and_congr (or_congr hfiled Iff.rfl) (by rw [hobj r hr])
  ext r
  rcases eq_or_ne r s.sessions.next with rfl | hr
  · cases fixed with
    | true =>
      refine ⟨fun hmem => ?_, fun hmem => (lt_irrefl _ (h.lt_next hmem)).elim⟩
      exact absurd (hnext.symm.trans hmem.2) (by simp)
    | false =>
      refine ⟨fun _ => Set.mem_insert _ _, fun _ => ⟨Or.inl ⟨n, ?_⟩, hnext⟩⟩
      simp
  · rw [hold r hr]
    cases fixed <;> simp [hr]

theorem holders_moveLease (s : IpAllocator) (pending : List LeaseRef) (r : LeaseRef) (u : UInt32)
    (now : ℤ) : holders { s with sessions := s.sessions.moveLease r u now } pending =
      s.holders pending := by
  ext r'
  exact and_congr Iff.rfl (by rw [(s.sessions.obj_moveLease u r now r').2.2])

/-- `acquire_address` keeps the allocator in order. -/
theorem Ok.acquireEnter (h : s.Ok tight pending) (htight : tight → call.mem = .ok)
    (hacq : s.acquireEnter call = (answer, s')) : s'.Ok tight pending := by
  cases acquireEnter_cases hacq with
  | skipped => exact h
  | reused _ hr =>
    exact ⟨h.sessions.moveLease hr, h.detached.moveLease,
      h.lends.congr rfl (s.holders_moveLease pending _ _ _)
        fun r' _ => (s.sessions.obj_moveLease _ _ _ r').2.1⟩
  | refused _ _ hnew hwhy =>
    refine ⟨h.sessions, h.detached, ?_⟩
    cases hnew with
    | fixed => exact h.lends.congr rfl rfl fun _ _ => rfl
    | noPool _ hd => exact h.lends.congr hd.symm rfl fun _ _ => rfl
    | @pool p p' _ _ hd hp =>
      refine ⟨fun {q} hq => ?_, nofun⟩
      obtain rfl := Option.some.inj hq
      refine (h.lends.lent hd).leak (fun ht => ?_) (congrArg Prod.snd hp)
      -- with memory at hand the pool had no address to give
      rcases p.acquire_cases call.mem.poolHost with heq | ⟨i, -, -, heq⟩
      · exact (Prod.mk.inj (hp.symm.trans heq)).2
      · rw [hp, htight ht] at heq
        rw [htight ht] at hwhy
        simp [(Prod.mk.inj heq).1, Alloc.ok] at hwhy
  | @bound ikeSa ip isFixed dyn _ hn hnew =>
    refine ⟨h.sessions.putLease hn, h.detached.putLease, ?_⟩
    have hip : ∀ r ∈ s.holders pending,
        ((s.sessions.putLease (sessionName ikeSa) ikeSa.uniqueId ip isFixed call.now).obj r).ip =
          (s.sessions.obj r).ip := by
      intro r hr
      rw [SessionManager.obj_putLease, Function.update_of_ne (h.lt_next hr).ne]
    have hholders := holders_putLease h hn ikeSa.uniqueId ip isFixed call.now dyn
    cases hnew with
    | fixed => exact h.lends.congr rfl hholders hip
    | @pool p p' _ _ hd hp =>
      refine ⟨fun {q} hq => ?_, nofun⟩
      obtain rfl := Option.some.inj hq
      rw [hholders, if_neg (by simp)]
      have hnext : ((s.sessions.putLease (sessionName ikeSa) ikeSa.uniqueId ip false call.now).obj
          s.sessions.next).ip = ip := by
        rw [SessionManager.obj_putLease, Function.update_self]
      exact (h.lends.lent hd).acquire (fun hr => lt_irrefl _ (h.lt_next hr)) (hnext ▸ hp) hip

/-! ## Releasing keeps the invariant -/

theorem releaseUnbind_of_some (h : s.sessions.byUid.get u = some r) : s.releaseUnbind u =
    (some r, { s with sessions := s.sessions.removeLease u r }) := by
  rw [releaseUnbind, SessionManager.unbind_of_some _ _ _ h]

theorem releaseUnbind_of_none (h : s.sessions.byUid.get u = none) :
    s.releaseUnbind u = (none, s) := by
  rw [releaseUnbind, SessionManager.unbind_of_none _ _ h]

/-- Both sections, when the unique id has a lease. -/
theorem releaseByUidImpl_of_some (h : s.sessions.byUid.get u = some r) :
    s.releaseByUidImpl u =
      (true, releaseFinish { s with sessions := s.sessions.removeLease u r } r) := by
  rw [releaseByUidImpl, releaseUnbind_of_some h]

theorem releaseByUidImpl_of_none (h : s.sessions.byUid.get u = none) :
    s.releaseByUidImpl u = (false, s) := by
  rw [releaseByUidImpl, releaseUnbind_of_none h]

/-- The unbound lease stays a holder, and no other lease is affected. -/
theorem holders_removeLease (h : s.Ok tight pending) (hu : s.sessions.byUid.get u = some r) :
    holders { s with sessions := s.sessions.removeLease u r } (r :: pending) =
      s.holders pending := by
  have hfiled := h.sessions.filed.toB hu
  ext r'
  refine and_congr ⟨?_, ?_⟩ Iff.rfl
  · rintro (⟨n, hn⟩ | hr')
    · exact Or.inl ⟨n, (SessionManager.byUser_of_removeLease hn).2⟩
    · rcases List.mem_cons.1 hr' with rfl | hr'
      · exact Or.inl ⟨_, hfiled⟩
      · exact Or.inr hr'
  · rintro (⟨n, hn⟩ | hr')
    · rcases eq_or_ne n (s.sessions.user r) with rfl | hne
      · exact Or.inr (by simp [Option.some.inj (hn.symm.trans hfiled)])
      · refine Or.inl ⟨n, ?_⟩
        rw [SessionManager.byUser_removeLease, Function.update_of_ne hne]
        exact hn
    · exact Or.inr (List.mem_cons_of_mem r hr')

/-- A lease that is taken out still has its address. -/
theorem Ok.removeLease (h : s.Ok tight pending) (hu : s.sessions.byUid.get u = some r) :
    Ok tight { s with sessions := s.sessions.removeLease u r } (r :: pending) :=
  ⟨h.sessions.removeLease hu, h.detached.removeLease h.sessions hu,
    h.lends.congr rfl (holders_removeLease h hu) fun _ _ => rfl⟩

/-- Once its release has run, the lease holds no address. -/
theorem holders_releaseFinish (h : s.Ok tight pending) (hr : r ∈ pending) :
    (s.releaseFinish r).holders (pending.erase r) = s.holders pending \ {r} := by
  ext r'
  constructor
  · rintro ⟨⟨n, hn⟩ | hr', hfixed⟩
    · exact ⟨⟨Or.inl ⟨n, hn⟩, hfixed⟩, fun heq => h.detached.unfiled hr n (heq ▸ hn)⟩
    · obtain ⟨hne, hr'⟩ := h.detached.nodup.mem_erase_iff.1 hr'
      exact ⟨⟨Or.inr hr', hfixed⟩, hne⟩
  · rintro ⟨⟨⟨n, hn⟩ | hr', hfixed⟩, hne⟩
    · exact ⟨Or.inl ⟨n, hn⟩, hfixed⟩
    · exact ⟨Or.inr (h.detached.nodup.mem_erase_iff.2 ⟨hne, hr'⟩), hfixed⟩

/-- Giving the address back and destroying the lease keeps the allocator in order. -/
theorem Ok.releaseFinish (h : s.Ok tight pending) (hr : r ∈ pending) :
    (s.releaseFinish r).Ok tight (pending.erase r) := by
  obtain ⟨hok, hdet⟩ := h.detached.leaseDestroy h.sessions hr
  refine ⟨hok, hdet, ?_⟩
  have hholders := holders_releaseFinish h hr
  by_cases hfixed : (s.sessions.obj r).fixed = true
  · refine h.lends.congr (if_pos hfixed) (hholders.trans ?_) fun _ _ => rfl
    exact Set.sdiff_singleton_eq_self fun hr' => absurd hr'.2 (by simp [hfixed])
  · have hdyn : (s.releaseFinish r).dyn = s.dyn.map (·.release (s.sessions.obj r).ip) :=
      if_neg hfixed
    have hrmem : r ∈ s.holders pending := ⟨Or.inr hr, by simpa using hfixed⟩
    cases hd : s.dyn with
    | none =>
      refine ⟨fun hp => by simp [hdyn, hd] at hp, fun _ => ?_⟩
      rw [hholders, h.lends.noPool hd, Set.empty_sdiff]
    | some p =>
      rw [hd] at hdyn
      refine ⟨fun {q} hq => ?_, fun hnone => by simp [hdyn] at hnone⟩
      obtain rfl : p.release (s.sessions.obj r).ip = q := by simpa [hdyn] using hq
      rw [hholders]
      exact (h.lends.lent hd).release hrmem

end IpAllocator

end Cupp
