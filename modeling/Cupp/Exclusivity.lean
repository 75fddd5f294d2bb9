import Cupp.Accounting
import Cupp.Book

/-!
# One user for each address, across reloads

A lease outlives the policy it was made under. A later policy may configure an address as
fixed that a lease of another user still holds, and the pool, whose range dates from the
creation of the allocator, may reach an address that a fixed lease still holds. Neither
source looks at the leases, so two users can end up with one address
(`not_exclusive_of_reload`).

`NoClash` is the check that is missing. In a run in which it would pass at every new login,
no two users ever hold the same address, and the first login that does not pass it brings two
users to one address (`exclusive_of_run`). Between leases of the pool the bitmap sees to it,
and a login that renews a lease brings in no new address.
-/

set_option linter.unusedSectionVars false

open Transition

namespace Cupp

variable {parse : CString → Option Host} {owner : UInt32 → CString} {policy : PolicyEngine}
  {poolName : Option CString} {leaseTimeout : UInt32} {calloc : Option (ℕ → UInt8)}
  {es : List CriticalSection} {w w' : World} {e : CriticalSection} {tight : Prop}
  {s : IpAllocator} {pending : List LeaseRef} {n : CString} {call : AcquireCall}
  {ikeSa : IkeSa}

/-! ## The check that is missing -/

namespace IpAllocator

/-- The fixed address configured for the user is in no live lease. For a user without one,
the first free address of the pool is in no live lease of a fixed address. -/
structure NoClash (s : IpAllocator) (n : CString) : Prop where
  fixed : isAnon n = false → ∀ ip ∈ s.policy.lookupFixed n, ∀ l ∈ s.liveLeases, l.ip ≠ ip
  pool : (isAnon n = false → s.policy.lookupFixed n = none) → ∀ p ∈ s.dyn,
    ∀ i, p.FirstFree i → ∀ l ∈ s.liveLeases, l.fixed = true → l.ip ≠ p.addr i

instance (s : IpAllocator) (n : CString) : Decidable (s.NoClash n) :=
  decidable_of_iff
    ((isAnon n = false → ∀ ip ∈ s.policy.lookupFixed n, ∀ l ∈ s.liveLeases, l.ip ≠ ip) ∧
      ((isAnon n = false → s.policy.lookupFixed n = none) → ∀ p ∈ s.dyn,
        ∀ i ∈ p.firstFree, p.used < p.capacity →
          ∀ l ∈ s.liveLeases, l.fixed = true → l.ip ≠ p.addr i))
    ⟨fun h => ⟨h.1, fun hno p hp i hi =>
      h.2 hno p hp i (DynamicPool.firstFree_iff.1 hi).2 hi.used_lt⟩,
      fun h => ⟨h.fixed, fun hno p hp i hi hu =>
        h.pool hno p hp i (DynamicPool.firstFree_iff.2 ⟨hu, hi⟩)⟩⟩

/-- The check passes if the call is a new login. -/
def Separated (s : IpAllocator) (call : AcquireCall) : Prop :=
  ∀ ikeSa ∈ s.served call, s.lease (sessionName ikeSa) = none → s.NoClash (sessionName ikeSa)

instance (s : IpAllocator) (call : AcquireCall) : Decidable (s.Separated call) :=
  inferInstanceAs (Decidable (∀ ikeSa ∈ s.served call, _))

/-- A call of users who have leases passes the check. -/
theorem separated_of_lease (h : ∀ ikeSa ∈ s.served call, s.lease (sessionName ikeSa) ≠ none) :
    s.Separated call :=
  fun ikeSa hserved hnone => absurd hnone (h ikeSa hserved)

/-- For a user without a lease the check is that its address clashes with no lease. -/
theorem separated_iff (hserved : s.served call = some ikeSa)
    (hnone : s.lease (sessionName ikeSa) = none) :
    s.Separated call ↔ s.NoClash (sessionName ikeSa) := by
  refine ⟨fun h => h ikeSa hserved hnone, fun h ikeSa' hserved' _ => ?_⟩
  obtain rfl := Option.some.inj (hserved.symm.trans hserved')
  exact h

/-- The check passes iff the address to be given is in no live lease. -/
theorem noClash_iff (hok : s.Ok tight pending) {ip : Option Host} {isFixed : Bool}
    {dyn : Option DynamicPool} (hnew : NewAddress s n .ok ip isFixed dyn) :
    s.NoClash n ↔ ∀ m l, s.lease m = some l → ip ≠ some l.ip := by
  cases hnew with
  | fixed hanon hlookup =>
    constructor
    · intro h m l hl hip
      exact h.fixed hanon _ hlookup l (mem_liveLeases.2 ⟨m, hl⟩) (Option.some.inj hip).symm
    · intro h
      refine ⟨fun _ ip' hip' l hl heq => ?_, fun hno => by simp [hno hanon] at hlookup⟩
      obtain rfl := Option.some.inj (hlookup.symm.trans hip')
      obtain ⟨m, hm⟩ := mem_liveLeases.1 hl
      exact h m l hm (congrArg some heq.symm)
  | noPool hnofixed hd =>
    refine ⟨fun _ m l _ => by simp, fun _ => ⟨fun ha ip hip => ?_, fun _ p hp => ?_⟩⟩
    · simp [hnofixed ha rfl] at hip
    · simp [hd] at hp
  | @pool p p' ip hnofixed hd hacq =>
    have hfixed : isAnon n = false → ∀ ip ∈ s.policy.lookupFixed n, ∀ l ∈ s.liveLeases,
        l.ip ≠ ip := by
      intro ha ip hip
      simp [hnofixed ha rfl] at hip
    obtain rfl : (p.acquire Alloc.ok.poolHost).1 = ip := congrArg Prod.fst hacq
    rcases p.acquire_answer Alloc.ok.poolHost with ⟨i, -, hi, heq⟩ | ⟨hnofree, heq⟩
    · rw [heq]
      constructor
      · intro h m l hl hip
        -- a lease of the pool has its address marked, and for the others there is the check
        cases hf : l.fixed with
        | false => exact hok.ne_of_free hd hi.lt hi.clear hl hf (Option.some.inj hip).symm
        | true =>
          exact h.pool (fun ha => hnofixed ha rfl) p hd i hi l (mem_liveLeases.2 ⟨m, hl⟩) hf
            (Option.some.inj hip).symm
      · intro h
        refine ⟨hfixed, fun _ q hq j hj l hl _ hip => ?_⟩
        obtain rfl := Option.some.inj (hd.symm.trans hq)
        obtain rfl := hi.eq hj
        obtain ⟨m, hm⟩ := mem_liveLeases.1 hl
        exact h m l hm (congrArg some hip.symm)
    · rw [heq]
      refine ⟨fun _ m l _ => by simp, fun _ => ⟨hfixed, fun _ q hq j hj => ?_⟩⟩
      obtain rfl := Option.some.inj (hd.symm.trans hq)
      exact absurd hj (hnofree rfl j)

end IpAllocator

/-! ## Runs with reloads -/

/-- Regular calls, and reloads that succeed with a policy free of conflicts. -/
def HotReload (parse : CString → Option Host) (owner : UInt32 → CString)
    (_ : List CriticalSection) (_ : World) : CriticalSection → Prop
  | .acquire call _ => call.Regular owner
  | .reload file => ∃ fresh ∈ snapshotLoad parse file, fresh.ConflictFree
  | _ => True

instance (es : List CriticalSection) (w : World) :
    DecidablePred (HotReload parse owner es w)
  | .acquire call _ => inferInstanceAs (Decidable (call.Regular owner))
  | .reload file => inferInstanceAs (Decidable (∃ fresh ∈ snapshotLoad parse file, _))
  | .unbind _ | .finish _ => inferInstanceAs (Decidable True)

/-- A regular section keeps the addresses apart iff it passes the check. -/
theorem World.exclusive_step_iff (hok : w.alloc.Ok tight w.pending)
    (hex : w.alloc.lease.Exclusive) (hreg : HotReload parse owner es w e)
    (h : w.step parse e = some w') :
    w'.alloc.lease.Exclusive ↔ e.OnAcquire w.alloc.Separated := by
  have hkeep : ∀ {b : Book}, b.Within w.alloc.lease → ∀ {P : Prop}, P → (b.Exclusive ↔ P) :=
    fun hw _ hp => iff_of_true (hex.within hw) hp
  cases step_cases h with
  | @acquire call answer alloc hacq =>
    obtain ⟨hmem, -⟩ := hreg
    cases IpAllocator.acquireEnter_cases hacq with
    | skipped hno => exact hkeep (.refl _) (IpAllocator.separated_of_lease (by simp [hno]))
    | @reused ikeSa r hserved hr =>
      dsimp only
      rw [IpAllocator.lease_moveLease hok hr]
      refine hkeep Book.renew_within (IpAllocator.separated_of_lease fun ikeSa' hserved' => ?_)
      obtain rfl := Option.some.inj (hserved.symm.trans hserved')
      simp [IpAllocator.lease_of_byUser hr]
    | @refused ikeSa ip isFixed dyn hserved hn hnew hwhy =>
      rw [hmem] at hnew hwhy
      obtain rfl : ip = none := hwhy.resolve_right (by simp [Alloc.ok])
      refine hkeep (.refl _) ((IpAllocator.separated_iff hserved (IpAllocator.lease_eq_none.2 hn)).2
        ((IpAllocator.noClash_iff hok hnew).2 fun m l _ => by simp))
    | @bound ikeSa ip isFixed dyn hserved hn hnew =>
      rw [hmem] at hnew
      have hnone := IpAllocator.lease_eq_none.2 hn
      dsimp only
      rw [IpAllocator.lease_putLease hok, hex.enter_iff hnone, CriticalSection.OnAcquire,
        IpAllocator.separated_iff hserved hnone, IpAllocator.noClash_iff hok hnew]
      refine forall₂_congr fun m l => imp_congr_right fun _ => ?_
      rw [Ne, Ne, Option.some.injEq, eq_comm]
  | unbindNone => exact hkeep (.refl _) trivial
  | unbindSome => exact hkeep (w.alloc.within_removeLease _ _) trivial
  | finish => exact hkeep (.refl _) trivial
  | reload => exact hkeep (.refl _) trivial

/-- In a run whose new logins all pass the check, no two users hold the same address. A further
section keeps it so iff it passes the check too. -/
theorem exclusive_of_run (h : World.Run parse
    (fun es w e => HotReload parse owner es w e ∧ e.OnAcquire w.alloc.Separated)
    (ipAllocatorCreate policy poolName leaseTimeout calloc) es w) :
    w.alloc.lease.Exclusive ∧ ∀ e w', HotReload parse owner es w e → w.step parse e = some w' →
      (w'.alloc.lease.Exclusive ↔ e.OnAcquire w.alloc.Separated) := by
  obtain ⟨hok, hex⟩ : w.alloc.Ok False w.pending ∧ w.alloc.lease.Exclusive := by
    refine h.invariant (I := fun w => w.alloc.Ok False w.pending ∧ w.alloc.lease.Exclusive)
      ⟨IpAllocator.ok_create policy poolName leaseTimeout calloc False.elim, ?_⟩
      fun es w e w' hi hg hs =>
        ⟨World.loose_step hi.1 hs, (World.exclusive_step_iff hi.1 hi.2 hg.1 hs).2 hg.2⟩
    intro m n l l' hl
    simp [World.start, IpAllocator.lease_create] at hl
  exact ⟨hex, fun e w' hreg hs => World.exclusive_step_iff hok hex hreg hs⟩

theorem exclusive_after_reload : ∃ w, World.Run tenNetFromString
    (fun es w e => HotReload tenNetFromString oddEven es w e ∧ e.OnAcquire w.alloc.Separated)
    (smallAlloc (smallPolicy [] 1 3))
    [.acquire (login (letterSa 1 'a') 0) (.done (some (tenNet 1))),
      .reload (policyFile [('b', '9')] '5' '7'),
      .acquire (login (letterSa 2 'b') 0) (.done (some (tenNet 9)))] w ∧
    w.alloc.lease.Exclusive := by
  obtain ⟨w, hw⟩ := Option.isSome_iff_exists.1 (by decide : (exec (World.step tenNetFromString)
    (fun es w e => HotReload tenNetFromString oddEven es w e ∧ e.OnAcquire w.alloc.Separated) []
    (.start (smallAlloc (smallPolicy [] 1 3)))
    [.acquire (login (letterSa 1 'a') 0) (.done (some (tenNet 1))),
      .reload (policyFile [('b', '9')] '5' '7'),
      .acquire (login (letterSa 2 'b') 0) (.done (some (tenNet 9)))]).isSome = true)
  have hrun := Run.of_exec .nil hw
  exact ⟨w, hrun, (exclusive_of_run hrun).1⟩

/-- User `a` has an address of the pool, a reload makes it the fixed address of `b`, and `b`
logs in. -/
theorem not_exclusive_of_reload : ¬∀ (parse : CString → Option Host) (owner : UInt32 → CString)
    (policy : PolicyEngine) (poolName : Option CString) (leaseTimeout : UInt32)
    (calloc : Option (ℕ → UInt8)) (es : List CriticalSection) (w : World),
    policy.active.ConflictFree → World.Run parse (HotReload parse owner)
      (ipAllocatorCreate policy poolName leaseTimeout calloc) es w →
    w.alloc.lease.Exclusive := by
  intro hall
  obtain ⟨w, hrun, hbook⟩ := Run.exists_of_exec (by decide :
    (exec (World.step tenNetFromString) (HotReload tenNetFromString oddEven) []
      (.start (smallAlloc (smallPolicy [] 1 3)))
      [.acquire (login (letterSa 1 'a') 0) (.done (some (tenNet 1))),
        .reload (policyFile [('b', '1')] '5' '7'),
        .acquire (login (letterSa 2 'b') 0) (.done (some (tenNet 1)))]).map
      (fun w => (w.alloc.lease (letter 'a'), w.alloc.lease (letter 'b'))) =
    some (some ⟨letter 'a', 1, tenNet 1, false, 0⟩, some ⟨letter 'b', 2, tenNet 1, true, 0⟩))
  obtain ⟨ha, hb⟩ := Prod.mk.inj hbook
  have heq := hall _ _ _ _ _ _ _ _ (by decide) hrun _ _ _ _ ha hb rfl
  exact absurd heq (by decide)

end Cupp
