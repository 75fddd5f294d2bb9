import Cupp.Removal

/-!
# A sweep that nothing interrupts

The sweep walks a list of lease objects that it read off `by_uid` before, and its callbacks
change the tables under it. `without_sweepCb` is the walk : as long as the objects that
remain on the list are distinct and filed under the unique ids they record, each callback
takes out its own lease or none. So a sweep leaves the allocator without the orphaned
leases, in whatever order the table lists them (`sweep_exact`).
-/

set_option linter.unusedSectionVars false

open Transition

namespace Cupp

namespace IpAllocator

variable {s : IpAllocator} {r : LeaseRef} {owner : UInt32 → CString} {now : ℤ}
  {checkoutById : UInt32 → Bool}

/-- The filed leases whose time is over and whose IKE_SA cannot be checked out. -/
def orphans (s : IpAllocator) (now : ℤ) (checkoutById : UInt32 → Bool) : Finset LeaseRef :=
  (s.sessions.byUser.entries.map fun e => e.2).toFinset.filter fun r =>
    (s.sessions.obj r).expired now s.leaseTimeout = true ∧
      checkoutById (s.sessions.uid r) = false

theorem mem_orphans : r ∈ s.orphans now checkoutById ↔
    (∃ n, s.sessions.byUser.get n = some r) ∧
      (s.sessions.obj r).expired now s.leaseTimeout = true ∧
      checkoutById (s.sessions.uid r) = false := by
  rw [orphans, Finset.mem_filter, Multiset.mem_toFinset, Hashtable.mem_map_entries]

/-! ## The walk -/

/-- The callbacks take out the leases of the list whose IKE_SA cannot be checked out. -/
theorem without_sweepCb (rs : List LeaseRef) (hok : s.Ok False []) (hst : s.Stocked [])
    (hnodup : rs.Nodup) (hfiled : ∀ r ∈ rs, s.sessions.byUid.get (s.sessions.uid r) = some r) :
    s.Without (rs.toFinset.filter fun r => checkoutById (s.sessions.uid r) = false)
      (rs.foldl (fun this r => this.sweepCb checkoutById r) s) := by
  induction rs generalizing s with
  | nil => simpa using Without.refl s
  | cons r rs ih =>
    obtain ⟨hr, hnodup⟩ := List.nodup_cons.1 hnodup
    obtain ⟨hfr, hfiled⟩ := List.forall_mem_cons.1 hfiled
    rw [List.foldl_cons, sweepCb, List.toFinset_cons, Finset.filter_insert]
    change IpAllocator.Without s (if checkoutById (s.sessions.uid r) = false then _ else _)
      (List.foldl _ (if checkoutById (s.sessions.uid r) = true then s
        else (s.releaseByUidImpl (s.sessions.uid r)).2) rs)
    cases hc : checkoutById (s.sessions.uid r) with
    | true =>
      rw [if_neg Bool.true_eq_false_eq_False, if_pos rfl]
      exact ih hok hst hnodup hfiled
    | false =>
      rw [if_pos rfl, if_neg Bool.false_ne_true, Finset.insert_eq]
      have hone := without_releaseByUidImpl hok hst hfr
      have huid : (s.releaseByUidImpl (s.sessions.uid r)).2.sessions.uid = s.sessions.uid := by
        funext r'
        rw [SessionManager.uid, hone.obj]
        rfl
      -- the leases that remain are still filed, being different from `r`
      have hrest : ∀ r' ∈ rs, (s.releaseByUidImpl (s.sessions.uid r)).2.sessions.byUid.get
          ((s.releaseByUidImpl (s.sessions.uid r)).2.sessions.uid r') = some r' := by
        intro r' hr'
        have hne : r' ≠ r := fun heq => hr (heq ▸ hr')
        rw [huid, hone.byUid, hfiled r' hr']
        simpa [Option.filter] using hne
      have hwalk := ih (hok.releaseByUidImpl _) (hst.releaseByUidImpl hok _) hnodup hrest
      rw [huid] at hwalk
      refine hone.trans hwalk (Finset.disjoint_singleton_left.2 fun hmem => hr ?_)
      exact List.mem_toFinset.1 (Finset.mem_filter.1 hmem).1

/-! ## The list -/

/-- The list has each expired lease of the tables once. -/
theorem mem_expiring (hok : s.Ok False []) (hb : s.sessions.Bound owner)
    {entries : List (Σ _ : UInt32, LeaseRef)}
    (hes : Hashtable.Enumerates entries s.sessions.byUid) :
    r ∈ s.sessions.expiring now s.leaseTimeout entries ↔
      (∃ n, s.sessions.byUser.get n = some r) ∧
        (s.sessions.obj r).expired now s.leaseTimeout = true := by
  rw [SessionManager.expiring, List.mem_filter, List.mem_map]
  refine and_congr_left fun _ => ⟨?_, ?_⟩
  · rintro ⟨⟨u, r⟩, he, rfl⟩
    exact ⟨_, hok.sessions.filed.toB ((hes.mem_iff u r).1 he)⟩
  · rintro ⟨n, hn⟩
    exact ⟨⟨s.sessions.uid r, r⟩, (hes.mem_iff _ r).2 (hb.paired.toA hn), rfl⟩

/-- The list of a sweep has no lease twice. -/
theorem nodup_expiring (hok : s.Ok False []) {entries : List (Σ _ : UInt32, LeaseRef)}
    (hes : Hashtable.Enumerates entries s.sessions.byUid) :
    (s.sessions.expiring now s.leaseTimeout entries).Nodup := by
  refine List.Nodup.filter _ (List.Nodup.map_on ?_ hes.nodup)
  rintro ⟨u, r⟩ he ⟨u', r'⟩ he' rfl
  obtain rfl : u = u' := (hok.sessions.uid_eq ((hes.mem_iff u r).1 he)).symm.trans
    (hok.sessions.uid_eq ((hes.mem_iff u' r).1 he'))
  rfl

/-- A sweep leaves the state without the orphans. -/
theorem without_sweep (hok : s.Ok False []) (hst : s.Stocked []) (hb : s.sessions.Bound owner)
    (now : ℤ) (checkoutById : UInt32 → Bool) {entries : List (Σ _ : UInt32, LeaseRef)}
    (hes : Hashtable.Enumerates entries s.sessions.byUid) :
    s.Without (s.orphans now checkoutById) (s.sweep now checkoutById entries) := by
  have horphans : s.orphans now checkoutById =
      (s.sessions.expiring now s.leaseTimeout entries).toFinset.filter fun r =>
        checkoutById (s.sessions.uid r) = false := by
    ext r
    rw [mem_orphans, Finset.mem_filter, List.mem_toFinset, mem_expiring hok hb hes, and_assoc]
  rw [horphans]
  refine without_sweepCb _ hok hst (nodup_expiring hok hes) fun r hr => ?_
  obtain ⟨⟨n, hn⟩, -⟩ := (mem_expiring hok hb hes).1 hr
  exact hb.paired.toA hn

end IpAllocator

/-- In every reachable state in which each unique id goes with one name and no release is
under way, a sweep takes out the orphaned leases and does nothing else, in whatever order
the table lists its entries. -/
theorem sweep_exact {parse : CString → Option Host} {owner : UInt32 → CString}
    {policy : PolicyEngine} {poolName : Option CString} {leaseTimeout : UInt32}
    {calloc : Option (ℕ → UInt8)} {es : List CriticalSection} {w : World}
    (h : World.Run parse (fun _ _ e => e.OnAcquire (·.OwnedBy owner))
      (ipAllocatorCreate policy poolName leaseTimeout calloc) es w)
    (hidle : w.pending = []) (now : ℤ) (checkoutById : UInt32 → Bool) :
    ∃ s', w.alloc.Without (w.alloc.orphans now checkoutById) s' ∧
      ∀ entries, Hashtable.Enumerates entries w.alloc.sessions.byUid →
        w.alloc.sweep now checkoutById entries = s' := by
  obtain ⟨hok, hst⟩ := IpAllocator.stocked_of_create h
  have hb := World.bound_of_create h
  rw [hidle] at hok hst
  obtain ⟨entries, hes⟩ := Hashtable.exists_enumerates w.alloc.sessions.byUid
  have hfirst := IpAllocator.without_sweep hok hst hb now checkoutById hes
  refine ⟨_, hfirst, fun entries' hes' => ?_⟩
  exact (IpAllocator.without_sweep hok hst hb now checkoutById hes').eq hfirst

/-- `a` and `b` log in, and an hour later only `b` is still connected. -/
theorem sweep_exact_two_logins : ∃ w, World.Run (fun _ => none)
      (fun _ _ e => e.OnAcquire (·.OwnedBy oddEven)) (smallAlloc (smallPolicy [] 1 3))
      [.acquire (login (letterSa 1 'a') 0) (.done (some (tenNet 1))),
        .acquire (login (letterSa 2 'b') 0) (.done (some (tenNet 2)))] w ∧
    w.alloc.orphans 4000 (· = 2) = {0} ∧
    ∃ s', w.alloc.Without (w.alloc.orphans 4000 (· = 2)) s' ∧
      ∀ entries, Hashtable.Enumerates entries w.alloc.sessions.byUid →
        w.alloc.sweep 4000 (· = 2) entries = s' := by
  obtain ⟨w, hrun, hfacts⟩ := Run.exists_of_exec (by decide :
    (exec (World.step fun _ => none) (fun _ _ e => e.OnAcquire (·.OwnedBy oddEven)) []
      (.start (smallAlloc (smallPolicy [] 1 3)))
      [.acquire (login (letterSa 1 'a') 0) (.done (some (tenNet 1))),
        .acquire (login (letterSa 2 'b') 0) (.done (some (tenNet 2)))]).map
      (fun w => (w.pending, w.alloc.orphans 4000 (· = 2))) = some ([], {0}))
  obtain ⟨hidle, horphans⟩ := Prod.mk.inj hfacts
  exact ⟨w, hrun, horphans, sweep_exact hrun hidle 4000 (· = 2)⟩

end Cupp
