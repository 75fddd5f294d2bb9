import Cupp.Removal

/-!
# Releases of other addresses

An IKE_SA may hold addresses of several providers, and charon offers each of them to the
providers in turn until one says that it was its own. `ReleasesOwn` is what such a provider
has to do. `release_address` looks at the IKE_SA only, so it does this iff every lease it
finds is the one the call is about (`release_address_iff`).
-/

set_option linter.unusedSectionVars false

open Transition

namespace Cupp

namespace IpAllocator

variable {s : IpAllocator} {pending : List LeaseRef} {pools : Option (List (Option CString))}
  {address : Option Host} {ikeSa : Option IkeSa} {sa : IkeSa} {r : LeaseRef}

/-- The lease `r` is filed under the unique id of the IKE_SA. -/
def LeaseOf (s : IpAllocator) (ikeSa : Option IkeSa) (r : LeaseRef) : Prop :=
  ∃ sa, ikeSa = some sa ∧ s.sessions.byUid.get sa.uniqueId = some r

theorem LeaseOf.unique {r' : LeaseRef} (h : s.LeaseOf ikeSa r) (h' : s.LeaseOf ikeSa r') :
    r = r' := by
  obtain ⟨sa, hsa, hr⟩ := h
  obtain ⟨sa', hsa', hr'⟩ := h'
  obtain rfl := Option.some.inj (hsa.symm.trans hsa')
  exact Option.some.inj (hr.symm.trans hr')

/-- The call is for the plugin's pool, and for the address of the lease. -/
def Addressed (s : IpAllocator) (pools : Option (List (Option CString))) (address : Option Host)
    (r : LeaseRef) : Prop :=
  s.poolsInclude pools = true ∧ address = some (s.sessions.obj r).ip

instance : Decidable (s.Addressed pools address r) :=
  inferInstanceAs (Decidable (_ ∧ _))

/-- The call answers TRUE iff it is about the lease of the IKE_SA. Then it removes this
lease, and otherwise it does nothing. -/
structure ReleasesOwn (s : IpAllocator) (pools : Option (List (Option CString)))
    (address : Option Host) (ikeSa : Option IkeSa) : Prop where
  answer : (s.releaseAddress pools address ikeSa).1 = true ↔
    ∃ r, s.LeaseOf ikeSa r ∧ s.Addressed pools address r
  removes : ∀ r, s.LeaseOf ikeSa r → s.Addressed pools address r →
    s.Without {r} (s.releaseAddress pools address ikeSa).2
  keeps : (¬∃ r, s.LeaseOf ikeSa r ∧ s.Addressed pools address r) →
    (s.releaseAddress pools address ikeSa).2 = s

/-- A call without a lease does nothing. -/
theorem releaseAddress_of_none (h : ∀ r, ¬s.LeaseOf ikeSa r)
    (pools : Option (List (Option CString))) (address : Option Host) :
    s.releaseAddress pools address ikeSa = (false, s) := by
  cases ikeSa with
  | none => rfl
  | some sa =>
    have hu : s.sessions.byUid.get sa.uniqueId = none :=
      Option.eq_none_iff_forall_ne_some.2 fun r hr => h r ⟨sa, rfl, hr⟩
    rw [releaseAddress, releaseByUidImpl_of_none hu]

/-- A call with a lease removes it, whatever its pools and its address. -/
theorem releaseAddress_of_lease (hok : s.Ok False pending) (hst : s.Stocked pending)
    (h : s.LeaseOf ikeSa r) : (s.releaseAddress pools address ikeSa).1 = true ∧
      s.Without {r} (s.releaseAddress pools address ikeSa).2 := by
  obtain ⟨sa, rfl, hr⟩ := h
  refine ⟨?_, without_releaseByUidImpl hok hst hr⟩
  rw [releaseAddress, releaseByUidImpl_of_some hr]

/-- The release is right iff the lease of the SA, if there is one, is what the call is for. -/
theorem releasesOwn_iff (hok : s.Ok False pending) (hst : s.Stocked pending) :
    s.ReleasesOwn pools address ikeSa ↔
      ∀ r, s.LeaseOf ikeSa r → s.Addressed pools address r := by
  constructor
  · intro hown r hr
    obtain ⟨r', hr', haddr⟩ := hown.answer.1 (releaseAddress_of_lease hok hst hr).1
    exact hr.unique hr' ▸ haddr
  · intro hall
    by_cases hr : ∃ r, s.LeaseOf ikeSa r
    · obtain ⟨r, hr⟩ := hr
      obtain ⟨htrue, hwithout⟩ := releaseAddress_of_lease hok hst hr
      refine ⟨⟨fun _ => ⟨r, hr, hall r hr⟩, fun _ => htrue⟩, fun r' hr' _ => ?_, fun hno => ?_⟩
      · exact hr.unique hr' ▸ hwithout
      · exact absurd ⟨r, hr, hall r hr⟩ hno
    · have hnone : ∀ r, ¬s.LeaseOf ikeSa r := fun r h => hr ⟨r, h⟩
      have heq := releaseAddress_of_none hnone pools address
      refine ⟨?_, fun r h => absurd h (hnone r), fun _ => by rw [heq]⟩
      rw [heq]
      exact ⟨fun h => absurd h Bool.false_ne_true, fun ⟨r, h, _⟩ => absurd h (hnone r)⟩

end IpAllocator

/-- In every state that threads can reach, `release_address` is a release of the provider's
own address iff the lease of the IKE_SA, if it has one, is of the pools and the address of
the call. -/
theorem release_address_iff {parse : CString → Option Host} {policy : PolicyEngine}
    {poolName : Option CString} {leaseTimeout : UInt32} {calloc : Option (ℕ → UInt8)}
    {es : List CriticalSection} {w : World}
    (h : World.Run parse (fun _ _ _ => True)
      (ipAllocatorCreate policy poolName leaseTimeout calloc) es w)
    (pools : Option (List (Option CString))) (address : Option Host) (ikeSa : Option IkeSa) :
    w.alloc.ReleasesOwn pools address ikeSa ↔
      ∀ r, w.alloc.LeaseOf ikeSa r → w.alloc.Addressed pools address r := by
  obtain ⟨hok, hst⟩ := IpAllocator.stocked_of_create h
  exact IpAllocator.releasesOwn_iff hok hst

/-- `a` gets `10.0.0.1`. -/
def oneLogin : List CriticalSection :=
  [.acquire (login (letterSa 1 'a') 0) (.done (some (tenNet 1)))]

/-- The pools of a connection that uses the plugin. -/
def cuppPools : Option (List (Option CString)) :=
  some [some (.ofBytes (ascii ['c', 'u', 'p', 'p']))]

/-- `a` gives `10.0.0.1` back. -/
theorem release_address_of_login : ∃ w, World.Run (fun _ => none) (fun _ _ _ => True)
      (smallAlloc (smallPolicy [] 1 3)) oneLogin w ∧
    w.alloc.ReleasesOwn cuppPools (some (tenNet 1)) (some (letterSa 1 'a')) := by
  obtain ⟨w, hrun, hfacts⟩ := Run.exists_of_exec (by decide :
    (exec (World.step fun _ => none) (fun _ _ _ => True) []
      (.start (smallAlloc (smallPolicy [] 1 3))) oneLogin).map
      (fun w => (w.alloc.sessions.byUid.get 1,
        (w.alloc.Addressed cuppPools (some (tenNet 1)) 0 : Bool))) = some (some 0, true))
  simp only [Prod.mk.injEq, decide_eq_true_eq] at hfacts
  obtain ⟨huid, haddr⟩ := hfacts
  refine ⟨w, hrun, (release_address_iff hrun _ _ _).2 fun r hr => ?_⟩
  exact hr.unique ⟨letterSa 1 'a', rfl, huid⟩ ▸ haddr

/-- Another address of the IKE_SA, of the plugin's pool or of a pool of another provider,
costs `a` the lease. -/
theorem not_releases_own :
    (¬∀ (es : List CriticalSection) (w : World) (address : Host),
      World.Run (fun _ => none) (fun _ _ _ => True) (smallAlloc (smallPolicy [] 1 3)) es w →
        w.alloc.ReleasesOwn cuppPools (some address) (some (letterSa 1 'a'))) ∧
    ¬∀ (es : List CriticalSection) (w : World) (pools : Option (List (Option CString))),
      World.Run (fun _ => none) (fun _ _ _ => True) (smallAlloc (smallPolicy [] 1 3)) es w →
        w.alloc.ReleasesOwn pools (some (tenNet 1)) (some (letterSa 1 'a')) := by
  obtain ⟨w, hrun, hfacts⟩ := Run.exists_of_exec (by decide :
    (exec (World.step fun _ => none) (fun _ _ _ => True) []
      (.start (smallAlloc (smallPolicy [] 1 3))) oneLogin).map
      (fun w => (w.alloc.sessions.byUid.get 1, (w.alloc.sessions.obj 0).ip,
        w.alloc.poolsInclude (some [some (letter 'x')]),
        (w.alloc.releaseAddress cuppPools (some (tenNet 9)) (some (letterSa 1 'a'))).1,
        (w.alloc.releaseAddress (some [some (letter 'x')]) (some (tenNet 1))
          (some (letterSa 1 'a'))).1)) =
      some (some 0, tenNet 1, false, true, true))
  simp only [Prod.mk.injEq] at hfacts
  obtain ⟨huid, hip, hpools, hforeign, hother⟩ := hfacts
  have hlease : w.alloc.LeaseOf (some (letterSa 1 'a')) 0 := ⟨_, rfl, huid⟩
  constructor <;> intro hall
  · obtain ⟨r, hr, haddr⟩ := (hall _ w (tenNet 9) hrun).answer.1 hforeign
    rw [← hlease.unique hr, IpAllocator.Addressed, hip] at haddr
    exact absurd haddr.2 (by decide)
  · obtain ⟨r, -, haddr⟩ := (hall _ w (some [some (letter 'x')]) hrun).answer.1 hother
    exact Bool.false_ne_true (hpools.symm.trans haddr.1)

end Cupp
