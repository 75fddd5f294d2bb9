import Cupp.Lib.Objects
import Cupp.Removal

/-!
# Releases in any order

The end of an IKE_SA reaches the allocator twice, as `release_address` and as
`ike_updown(FALSE)`, and several SAs may end together. `without_run` follows such a sequence of
calls : it takes out the leases of the unique ids it mentions and nothing else. So neither the
order nor the number of the calls matters, and of the calls for one unique id only one finds
a lease (`releases_commute`).
-/

set_option linter.unusedSectionVars false

open Transition

namespace Cupp

/-- A call for an IKE_SA that ends. -/
inductive ReleaseCall
  | releaseAddress (pools : Option (List (Option CString))) (address : Option Host)
      (ikeSa : Option IkeSa)
  | ikeDown (ikeSa : Option IkeSa)
  deriving DecidableEq

namespace ReleaseCall

/-- The unique id the call is about. -/
def uid : ReleaseCall → Option UInt32
  | releaseAddress _ _ ikeSa | ikeDown ikeSa => ikeSa.map (·.uniqueId)

/-- The unique ids the calls are about. -/
def uids (calls : List ReleaseCall) : Finset UInt32 :=
  (calls.filterMap uid).toFinset

/-- How many of the calls for a unique id have reported a release. -/
def reports (u : UInt32) (calls : List ReleaseCall) (answers : List Bool) : ℕ :=
  (calls.zip answers).countP fun c => c.1.uid = some u && c.2

variable {c : ReleaseCall} {calls : List ReleaseCall} {u v : UInt32}

theorem mem_uids : u ∈ uids calls ↔ ∃ c ∈ calls, c.uid = some u := by
  rw [uids, List.mem_toFinset, List.mem_filterMap]

theorem uids_cons_of_none (h : c.uid = none) : uids (c :: calls) = uids calls := by
  rw [uids, List.filterMap_cons_none h, uids]

theorem uids_cons_of_some (h : c.uid = some u) : uids (c :: calls) = insert u (uids calls) := by
  rw [uids, List.filterMap_cons_some h, List.toFinset_cons, uids]

theorem reports_cons (a : Bool) (answers : List Bool) : reports u (c :: calls) (a :: answers) =
    reports u calls answers + if c.uid = some u ∧ a = true then 1 else 0 := by
  simp [reports, List.countP_cons]

end ReleaseCall

open ReleaseCall

namespace IpAllocator

variable {s : IpAllocator} {pending : List LeaseRef} {owner : UInt32 → CString}
  {c : ReleaseCall} {U : Finset UInt32} {u v : UInt32} {r r' : LeaseRef}

/-- The call, with what `release_by_uid_impl` reports to it. The hook of the listener drops the
report. -/
def endSa (s : IpAllocator) : ReleaseCall → Bool × IpAllocator
  | .releaseAddress pools address ikeSa => s.releaseAddress pools address ikeSa
  | .ikeDown ikeSa =>
    (ikeSa.any fun sa => (s.releaseByUidImpl sa.uniqueId).1, (s.ikeUpdown ikeSa false).2)

theorem endSa_of_none (h : c.uid = none) : s.endSa c = (false, s) := by
  cases c with
  | releaseAddress pools address ikeSa =>
    obtain rfl := Option.map_eq_none_iff.1 h
    rfl
  | ikeDown ikeSa =>
    obtain rfl := Option.map_eq_none_iff.1 h
    rfl

/-- The end of an SA with a unique id is a release of it. -/
theorem endSa_of_some (h : c.uid = some u) : s.endSa c = s.releaseByUidImpl u := by
  cases c with
  | releaseAddress pools address ikeSa =>
    obtain ⟨sa, rfl, rfl⟩ := Option.map_eq_some_iff.1 h
    rfl
  | ikeDown ikeSa =>
    obtain ⟨sa, rfl, rfl⟩ := Option.map_eq_some_iff.1 h
    rfl

/-! ## The leases of unique ids -/

/-- The filed leases whose current unique id is in `U`. -/
def leasesOf (s : IpAllocator) (U : Finset UInt32) : Finset LeaseRef :=
  (s.sessions.byUser.entries.map fun e => e.2).toFinset.filter fun r => s.sessions.uid r ∈ U

theorem mem_leasesOf : r ∈ s.leasesOf U ↔
    (∃ n, s.sessions.byUser.get n = some r) ∧ s.sessions.uid r ∈ U := by
  rw [leasesOf, Finset.mem_filter, Multiset.mem_toFinset, Hashtable.mem_map_entries]

/-- They are what `by_uid` has for these ids. -/
theorem mem_leasesOf_iff (hok : s.Ok False pending) (hb : s.sessions.Bound owner) :
    r ∈ s.leasesOf U ↔ ∃ u ∈ U, s.sessions.byUid.get u = some r := by
  rw [mem_leasesOf]
  constructor
  · rintro ⟨⟨n, hn⟩, hU⟩
    exact ⟨_, hU, hb.paired.toA hn⟩
  · rintro ⟨u, hU, hu⟩
    exact ⟨⟨_, hok.sessions.filed.toB hu⟩, (hok.sessions.uid_eq hu).symm ▸ hU⟩

/-- A unique id without a lease adds none. -/
theorem leasesOf_insert_of_none (hok : s.Ok False pending) (hb : s.sessions.Bound owner)
    (hu : s.sessions.byUid.get u = none) : s.leasesOf (insert u U) = s.leasesOf U := by
  ext r
  rw [mem_leasesOf_iff hok hb, mem_leasesOf_iff hok hb, Finset.exists_mem_insert, hu]
  simp

/-- What is left of the leases when one is out. -/
theorem leasesOf_insert_of_some {s' : IpAllocator} (hok : s.Ok False pending)
    (hb : s.sessions.Bound owner) (hok' : s'.Ok False pending) (hb' : s'.sessions.Bound owner)
    (hu : s.sessions.byUid.get u = some r) (h : s.Without {r} s') :
    s.leasesOf (insert u U) = {r} ∪ s'.leasesOf U ∧ Disjoint {r} (s'.leasesOf U) := by
  have hleft (r' : LeaseRef) : r' ∈ s'.leasesOf U ↔ r' ∈ s.leasesOf U ∧ r' ≠ r := by
    rw [mem_leasesOf_iff hok' hb', mem_leasesOf_iff hok hb]
    simp only [h.byUid, Option.filter_eq_some_iff, Finset.mem_singleton, decide_eq_true_eq]
    tauto
  refine ⟨?_, Finset.disjoint_singleton_left.2 fun hr => ((hleft r).1 hr).2 rfl⟩
  ext r'
  rw [Finset.mem_union, Finset.mem_singleton, hleft, mem_leasesOf_iff hok hb,
    mem_leasesOf_iff hok hb, Finset.exists_mem_insert, hu, Option.some_inj]
  tauto

/-! ## Sequences of calls -/

/-- The calls take out the leases of the unique ids they are about. -/
theorem without_run (calls : List ReleaseCall) (hok : s.Ok False pending)
    (hst : s.Stocked pending) (hb : s.sessions.Bound owner) :
    s.Without (s.leasesOf (uids calls)) (Object.run endSa s calls).2 := by
  induction calls generalizing s with
  | nil =>
    have hnone : s.leasesOf (uids []) = ∅ := by
      ext r
      simp [mem_leasesOf, uids]
    rw [hnone]
    exact .refl s
  | cons c calls ih =>
    rw [Object.run_cons]
    cases hc : c.uid with
    | none =>
      rw [endSa_of_none hc, uids_cons_of_none hc]
      exact ih hok hst hb
    | some u =>
      rw [endSa_of_some hc, uids_cons_of_some hc]
      cases hu : s.sessions.byUid.get u with
      | none =>
        rw [releaseByUidImpl_of_none hu, leasesOf_insert_of_none hok hb hu]
        exact ih hok hst hb
      | some r =>
        have hok' := hok.releaseByUidImpl u
        have hb' := bound_releaseByUidImpl hb u
        have hone := without_releaseByUidImpl hok hst hu
        obtain ⟨hsplit, hdisj⟩ := leasesOf_insert_of_some hok hb hok' hb' hu hone
        rw [hsplit]
        exact hone.trans (ih hok' (hst.releaseByUidImpl hok u) hb') hdisj

/-- The first call for a unique id reports its lease, if there is one, and no other call
does. -/
theorem reports_run (calls : List ReleaseCall) (hok : s.Ok False pending)
    (hst : s.Stocked pending) (u : UInt32) :
    reports u calls (Object.run endSa s calls).1 =
      if u ∈ uids calls ∧ (s.sessions.byUid.get u).isSome then 1 else 0 := by
  induction calls generalizing s with
  | nil => simp [reports, uids]
  | cons c calls ih =>
    rw [Object.run_cons, reports_cons]
    cases hc : c.uid with
    | none =>
      rw [endSa_of_none hc, uids_cons_of_none hc, ih hok hst]
      simp
    | some v =>
      rw [endSa_of_some hc, uids_cons_of_some hc, ih (hok.releaseByUidImpl v)
        (hst.releaseByUidImpl hok v)]
      cases hv : s.sessions.byUid.get v with
      | none =>
        rw [releaseByUidImpl_of_none hv]
        rcases eq_or_ne u v with rfl | hne
        · simp [hv]
        · simp [hne]
      | some r =>
        rw [(without_releaseByUidImpl hok hst hv).byUid, releaseByUidImpl_of_some hv]
        rcases eq_or_ne u v with rfl | hne
        · simp [hv, Option.filter]
        · -- the lease of another unique id stays
          have hother : s.sessions.byUid.get u ≠ some r := fun hu =>
            hne ((hok.sessions.uid_eq hu).symm.trans (hok.sessions.uid_eq hv))
          rw [filter_notMem_singleton hother]
          simp [hne, hne.symm]

end IpAllocator

open IpAllocator

/-- In every reachable state in which each unique id goes with one name, sequences of releases
for the same unique ids end in the same state. It is the state without the leases of these
unique ids, and no two of the calls for one unique id report a release. -/
theorem releases_commute {parse : CString → Option Host} {owner : UInt32 → CString}
    {policy : PolicyEngine} {poolName : Option CString} {leaseTimeout : UInt32}
    {calloc : Option (ℕ → UInt8)} {es : List CriticalSection} {w : World}
    (h : World.Run parse (fun _ _ e => e.OnAcquire (·.OwnedBy owner))
      (ipAllocatorCreate policy poolName leaseTimeout calloc) es w)
    (calls calls' : List ReleaseCall)
    (hsame : ∀ u, (∃ c ∈ calls, c.uid = some u) ↔ ∃ c ∈ calls', c.uid = some u) :
    (Object.run endSa w.alloc calls).2 = (Object.run endSa w.alloc calls').2 ∧
      w.alloc.Without (w.alloc.leasesOf (uids calls)) (Object.run endSa w.alloc calls).2 ∧
      (∀ r, r ∈ w.alloc.leasesOf (uids calls) ↔
        ∃ u ∈ uids calls, w.alloc.sessions.byUid.get u = some r) ∧
      ∀ u, reports u calls (Object.run endSa w.alloc calls).1 ≤ 1 ∧
        reports u calls (Object.run endSa w.alloc calls).1 =
          reports u calls' (Object.run endSa w.alloc calls').1 := by
  obtain ⟨hok, hst⟩ := IpAllocator.stocked_of_create h
  have hb := World.bound_of_create h
  have huids : uids calls = uids calls' := by
    ext u
    rw [mem_uids, mem_uids, hsame]
  have hfirst := without_run calls hok hst hb
  have hsecond := without_run calls' hok hst hb
  rw [← huids] at hsecond
  refine ⟨hfirst.eq hsecond, hfirst, fun r => mem_leasesOf_iff hok hb, fun u => ⟨?_, ?_⟩⟩
  · rw [reports_run calls hok hst]
    split_ifs <;> omega
  · rw [reports_run calls hok hst, reports_run calls' hok hst, huids]

/-- `a` and `b` log in, and the SA of `a` ends, once or twice. -/
theorem releases_commute_two_logins : ∃ w, World.Run (fun _ => none)
      (fun _ _ e => e.OnAcquire (·.OwnedBy oddEven)) (smallAlloc (smallPolicy [] 1 3))
      [.acquire (login (letterSa 1 'a') 0) (.done (some (tenNet 1))),
        .acquire (login (letterSa 2 'b') 0) (.done (some (tenNet 2)))] w ∧
    w.alloc.leasesOf {1} = {0} ∧
    w.alloc.Without {0} (Object.run endSa w.alloc
      [.ikeDown (some (letterSa 1 'a')), .releaseAddress none none (some (letterSa 1 'a'))]).2 ∧
    (Object.run endSa w.alloc
      [.ikeDown (some (letterSa 1 'a')), .releaseAddress none none (some (letterSa 1 'a'))]).2 =
      (Object.run endSa w.alloc [.ikeDown (some (letterSa 1 'a'))]).2 := by
  obtain ⟨w, hrun, hleases⟩ := Run.exists_of_exec (by decide :
    (exec (World.step fun _ => none) (fun _ _ e => e.OnAcquire (·.OwnedBy oddEven)) []
      (.start (smallAlloc (smallPolicy [] 1 3)))
      [.acquire (login (letterSa 1 'a') 0) (.done (some (tenNet 1))),
        .acquire (login (letterSa 2 'b') 0) (.done (some (tenNet 2)))]).map
      (fun w => w.alloc.leasesOf {1}) = some {0})
  have hsame : ∀ u, (∃ c ∈ [ReleaseCall.ikeDown (some (letterSa 1 'a')),
      .releaseAddress none none (some (letterSa 1 'a'))], c.uid = some u) ↔
      ∃ c ∈ [ReleaseCall.ikeDown (some (letterSa 1 'a'))], c.uid = some u := by
    simp [ReleaseCall.uid]
  obtain ⟨heq, hwithout, -⟩ := releases_commute hrun _ _ hsame
  have huids : uids [.ikeDown (some (letterSa 1 'a')),
      .releaseAddress none none (some (letterSa 1 'a'))] = {1} := by
    decide
  rw [huids, hleases] at hwithout
  exact ⟨w, hrun, hleases, hwithout, heq⟩

end Cupp
