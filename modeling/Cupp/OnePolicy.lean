import Cupp.Exclusivity
import Cupp.Operations

/-!
# Runs under one policy

As long as the policy stays, every fixed lease has the address the policy configures for
its user, and every other lease one of the configured pool (`FollowsPolicy`). So a configured
address is reserved for its user if it is outside the pool and no one else has it
(`fixed_reserved`), and under a policy free of conflicts no two users hold the same address.
A policy with a fixed address in the range of its pool is accepted, and then the pool gives
it away (`not_fixed_reserved`).
-/

set_option linter.unusedSectionVars false

open Transition

namespace Cupp

variable {parse : CString → Option Host} {owner : UInt32 → CString} {policy : PolicyEngine}
  {poolName : Option CString} {leaseTimeout : UInt32} {calloc : Option (ℕ → UInt8)}
  {es : List Operation} {e : Operation} {tight : Prop} {s s' : IpAllocator} {m n : CString}
  {call : AcquireCall} {l l' : Lease} {ip : Host} {ikeSa : IkeSa} {u : UInt32}

namespace IpAllocator

/-- The leases and the pool are those of the policy in force. -/
structure FollowsPolicy (s : IpAllocator) : Prop where
  fixed : ∀ {n l}, s.lease n = some l → l.fixed = true → s.policy.lookupFixed n = some l.ip
  range : ∀ {p}, s.dyn = some p → ∀ ip, p.isInPool ip = s.policy.active.inPool ip

/-- A new allocator follows its policy. -/
theorem followsPolicy_create :
    (ipAllocatorCreate policy poolName leaseTimeout calloc).FollowsPolicy := by
  refine ⟨fun hl => ?_, fun {p} hp ip => ?_⟩
  · simp [lease_create] at hl
  · simp only [ipAllocatorCreate, PolicyEngine.getPool] at hp ⊢
    cases hpool : policy.active.pool with
    | none => simp [hpool] at hp
    | some ends => exact isInPool_eq_inPool hpool (by simpa [hpool] using hp) ip

/-- An operation that keeps the setup keeps to the policy. -/
theorem FollowsPolicy.step (hf : s.FollowsPolicy) (hok : s.Ok tight []) (hsetup : SameSetup s s')
    (h : s.step parse e = some s') : s'.FollowsPolicy := by
  refine ⟨fun {n l'} hl' hfixed => ?_, fun {p'} hp' ip => ?_⟩
  · rw [hsetup.policy]
    -- a lease of the old book has its address from the policy already
    have hold : ∀ {l}, s.lease n = some l → l.ip = l'.ip → l.fixed = l'.fixed →
        s.policy.lookupFixed n = some l'.ip := by
      intro l hl hip hfix
      rw [← hip]
      exact hf.fixed hl (hfix.trans hfixed)
    rcases within_step hok h with hw | ⟨call, answer, l, rfl, henter, hw⟩
    · obtain ⟨l, hl, hip, hfix⟩ := hw n l' hl'
      exact hold hl hip hfix
    · obtain ⟨k, hk, hip, hfix⟩ := hw n l' hl'
      rcases eq_or_ne n l.username with rfl | hne
      · rw [Book.enter_self] at hk
        obtain rfl := Option.some.inj hk
        obtain ⟨ikeSa, dyn, -, -, -, -, hnew⟩ := henter
        rw [hfix, hfixed, hip] at hnew
        cases hnew with
        | fixed _ hlookup => exact hlookup
      · exact hold ((Book.enter_of_ne hne).symm.trans hk) hip hfix
  · obtain ⟨p, hp, hsame⟩ := hsetup.dyn_eq_some hp'
    rw [hsame.isInPool_eq, hsetup.policy]
    exact hf.range hp ip

/-- A leased address outside the pool is the one configured for the user. -/
theorem FollowsPolicy.lookup_of_notInPool (hf : s.FollowsPolicy) (hok : s.Ok tight [])
    (hl : s.lease n = some l) (hout : s.policy.active.inPool l.ip = false) :
    s.policy.lookupFixed n = some l.ip := by
  cases hfixed : l.fixed with
  | true => exact hf.fixed hl hfixed
  | false =>
    obtain ⟨p, hp, -⟩ := hok.lease_slot hl hfixed
    have hin := hok.isInPool_lease hp hl hfixed
    rw [hf.range hp, hout] at hin
    simp at hin

/-- Under a policy free of conflicts, an address configured as fixed is in no lease but its
user's. -/
theorem FollowsPolicy.eq_of_fixed (hf : s.FollowsPolicy) (hok : s.Ok tight [])
    (hcf : s.policy.active.ConflictFree) (hl : s.lease n = some l)
    (hm : s.policy.lookupFixed m = some l.ip) : m = n :=
  hcf.eq_of_lookup hm (hf.lookup_of_notInPool hok hl (hcf.notInPool hm))

/-- Under a policy free of conflicts, no two users hold the same address. -/
theorem FollowsPolicy.exclusive (hf : s.FollowsPolicy) (hok : s.Ok tight [])
    (hcf : s.policy.active.ConflictFree) : s.lease.Exclusive := by
  intro m n l l' hl hl' hip
  cases hfixed : l.fixed with
  | true => exact hf.eq_of_fixed hok hcf hl' (hip ▸ hf.fixed hl hfixed)
  | false =>
    cases hfixed' : l'.fixed with
    | true => exact (hf.eq_of_fixed hok hcf hl (hip ▸ hf.fixed hl' hfixed')).symm
    | false => exact hok.eq_of_ip hl hl' hfixed hfixed' hip

end IpAllocator

/-! ## Configured addresses -/

/-- What runs without a reload keep. -/
theorem IpAllocator.followsPolicy_of_run {guard : List Operation → IpAllocator → Operation → Prop}
    (hguard : ∀ es s e, guard es s e → e.KeepsPolicy)
    (h : IpAllocator.Run parse guard (ipAllocatorCreate policy poolName leaseTimeout calloc) es s) :
    s.Ok False [] ∧ s.FollowsPolicy ∧ s.policy = policy := by
  refine h.invariant (I := fun s => s.Ok False [] ∧ s.FollowsPolicy ∧ s.policy = policy)
    ⟨ok_create policy poolName leaseTimeout calloc False.elim, followsPolicy_create, rfl⟩
    fun es s e s' ⟨hok, hf, hpol⟩ hg hs => ?_
  have hset := sameSetup_of_keepsPolicy (hguard es s e hg) hs
  exact ⟨loose_step hok hs, hf.step hok hset hs, hset.policy.trans hpol⟩

/-- Under the policy, whoever is given an address that is configured is the user it is
configured for. -/
def PolicyEngine.Reserves (policy : PolicyEngine) (parse : CString → Option Host) (ip : Host) :
    Prop :=
  ∀ poolName leaseTimeout calloc es s s' call ikeSa m,
    IpAllocator.Run parse (fun _ _ e => e.KeepsPolicy)
      (ipAllocatorCreate policy poolName leaseTimeout calloc) es s →
    s.step parse (.acquire call (some ip)) = some s' → call.ikeSa = some ikeSa →
    policy.lookupFixed m = some ip → m = sessionName ikeSa

/-- An address is reserved if it is outside the pool and configured for one user at most. -/
theorem fixed_reserved (parse : CString → Option Host) (hout : policy.active.inPool ip = false)
    (hone : ∀ m n, policy.lookupFixed m = some ip → policy.lookupFixed n = some ip → m = n) :
    policy.Reserves parse ip := by
  intro poolName leaseTimeout calloc es s s' call ikeSa m h hacq hsa hm
  have hrun := h.snoc (show Operation.KeepsPolicy (.acquire call (some ip)) from trivial) hacq
  obtain ⟨hok, -, -⟩ := IpAllocator.followsPolicy_of_run (fun _ _ _ hg => hg) h
  obtain ⟨hok', hf', rfl⟩ := IpAllocator.followsPolicy_of_run (fun _ _ _ hg => hg) hrun
  obtain ⟨l, hl, rfl, -⟩ := IpAllocator.lease_of_answer hok hacq hsa
  exact hone m _ hm (hf'.lookup_of_notInPool hok' hl hout)

theorem fixed_reserved_of_login : ∃ s', (smallAlloc
    (smallPolicy [(letter 'a', tenNet 9)] 1 3)).step (fun _ => none)
      (.acquire (login (letterSa 1 'a') 0) (some (tenNet 9))) = some s' ∧
    letter 'a' = sessionName (letterSa 1 'a') := by
  obtain ⟨s', hs'⟩ := Option.isSome_iff_exists.1 (by decide :
    ((smallAlloc (smallPolicy [(letter 'a', tenNet 9)] 1 3)).step (fun _ => none)
      (.acquire (login (letterSa 1 'a') 0) (some (tenNet 9)))).isSome = true)
  have hcf : (smallPolicy [(letter 'a', tenNet 9)] 1 3).ConflictFree := by decide
  have hres : (PolicyEngine.mk (smallPolicy [(letter 'a', tenNet 9)] 1 3)).Reserves
      (fun _ => none) (tenNet 9) :=
    fixed_reserved _ (by decide) fun _ _ hm hn => hcf.eq_of_lookup hm hn
  exact ⟨s', hs', hres _ _ _ _ _ _ _ _ _ .nil hs' rfl (by decide)⟩

/-- The pool covers the fixed address of `a`, or `a` and `b` have the same one. Then `b` logs
in first. -/
theorem not_fixed_reserved :
    (∃ policy, policyEngineCreate tenNetFromString (policyFile [('a', '1')] '1' '3') =
      some policy ∧ ¬policy.Reserves tenNetFromString (tenNet 1)) ∧
    ∃ policy, policyEngineCreate tenNetFromString (policyFile [('a', '9'), ('b', '9')] '1' '3') =
      some policy ∧ ¬policy.Reserves tenNetFromString (tenNet 9) := by
  constructor
  · obtain ⟨policy, hpolicy, hfacts⟩ := Option.map_eq_some_iff.1 (by decide :
      (policyEngineCreate tenNetFromString (policyFile [('a', '1')] '1' '3')).map (fun policy =>
        (policy.lookupFixed (letter 'a'), ((ipAllocatorCreate policy none 0 (some fun _ => 0)).step
          tenNetFromString (.acquire (login (letterSa 2 'b') 0) (some (tenNet 1)))).isSome)) =
      some (some (tenNet 1), true))
    obtain ⟨hm, hstep⟩ := Prod.mk.inj hfacts
    obtain ⟨s', hs'⟩ := Option.isSome_iff_exists.1 hstep
    refine ⟨policy, hpolicy, fun hall => ?_⟩
    exact absurd (hall _ _ _ _ _ _ _ _ _ .nil hs' rfl hm) (by decide)
  · obtain ⟨policy, hpolicy, hfacts⟩ := Option.map_eq_some_iff.1 (by decide :
      (policyEngineCreate tenNetFromString (policyFile [('a', '9'), ('b', '9')] '1' '3')).map
        (fun policy => (policy.lookupFixed (letter 'a'),
          ((ipAllocatorCreate policy none 0 (some fun _ => 0)).step tenNetFromString
            (.acquire (login (letterSa 2 'b') 0) (some (tenNet 9)))).isSome)) =
      some (some (tenNet 9), true))
    obtain ⟨hm, hstep⟩ := Prod.mk.inj hfacts
    obtain ⟨s', hs'⟩ := Option.isSome_iff_exists.1 hstep
    refine ⟨policy, hpolicy, fun hall => ?_⟩
    exact absurd (hall _ _ _ _ _ _ _ _ _ .nil hs' rfl hm) (by decide)

end Cupp
