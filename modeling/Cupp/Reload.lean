import Cupp.Operations

/-!
# What a reload changes for new logins

A reload switches the fixed table at once. The pool is made when the allocator is created,
and no reload makes another. So, as long as memory lasts, a new login under the policy `F` is
answered as `F` prescribes (`Snapshot.Prescribes`) if `F` fixes the user's address, and
otherwise just if the old pool happens to agree with `F` at that moment
(`IpAllocator.PoolAgrees`, `reload_takes_effect_iff`). A policy that moves the pool is not
followed (`not_prescribed_after_reload`).
-/

set_option linter.unusedSectionVars false

open Transition

namespace Cupp

variable {parse : CString → Option Host} {policy : PolicyEngine} {poolName : Option CString}
  {leaseTimeout : UInt32} {calloc : Option (ℕ → UInt8)} {es₁ es₂ : List Operation}
  {tight : Prop} {s₁ s s' : IpAllocator} {F : Snapshot} {file : PolicyFile} {n : CString}
  {call : AcquireCall} {answer : Option Host} {ikeSa : IkeSa} {l : Lease}

/-- The answers `F` prescribes for a new login of `n` while the addresses of `leased` are
taken : the fixed address of `n`, or any address of the pool that is not taken, or none if
the pool has no such address. -/
inductive Snapshot.Prescribes (F : Snapshot) (leased : Set Host) (n : CString) :
    Option Host → Prop
  | fixed {ip : Host} : F.fixed.lookup n = some ip → Prescribes F leased n (some ip)
  | pool {ip : Host} : F.fixed.lookup n = none → F.inPool ip = true → ip ∉ leased →
      Prescribes F leased n (some ip)
  | nothing : F.fixed.lookup n = none → (∀ ip, F.inPool ip = true → ip ∈ leased) →
      Prescribes F leased n none

/-- A configured user is prescribed the configured address. -/
theorem Snapshot.prescribes_fixed_iff {leased : Set Host} {ip : Host}
    (hlookup : F.fixed.lookup n = some ip) : F.Prescribes leased n answer ↔ answer = some ip := by
  constructor
  · rintro (hfix | ⟨hnone, -, -⟩ | ⟨hnone, -⟩)
    · exact hfix.symm.trans hlookup
    · simp [hlookup] at hnone
    · simp [hlookup] at hnone
  · rintro rfl
    exact .fixed hlookup

/-- A user without a fixed address is prescribed a free address of the range. -/
theorem Snapshot.prescribes_some_iff {leased : Set Host} {ip : Host}
    (hlookup : F.fixed.lookup n = none) :
    F.Prescribes leased n (some ip) ↔ F.inPool ip = true ∧ ip ∉ leased := by
  constructor
  · rintro (hfix | ⟨-, hin, hnot⟩)
    · simp [hlookup] at hfix
    · exact ⟨hin, hnot⟩
  · rintro ⟨hin, hnot⟩
    exact .pool hlookup hin hnot

/-- A user without a fixed address is prescribed none iff none is free. -/
theorem Snapshot.prescribes_none_iff {leased : Set Host} (hlookup : F.fixed.lookup n = none) :
    F.Prescribes leased n none ↔ ∀ ip, F.inPool ip = true → ip ∈ leased := by
  constructor
  · rintro (_ | _ | ⟨-, hall⟩)
    exact hall
  · exact .nothing hlookup

namespace IpAllocator

/-- The addresses of the live leases. -/
def leased (s : IpAllocator) : Set Host :=
  {ip | ∃ l ∈ s.liveLeases, l.ip = ip}

/-- The first free address of the allocator's pool is an address of the pool of `F` in no
live lease of a fixed address. If there is none, all addresses of the pool of `F` are in
live leases. -/
structure PoolAgrees (s : IpAllocator) (F : Snapshot) : Prop where
  free : ∀ p ∈ s.dyn, ∀ i, p.FirstFree i →
    F.inPool (p.addr i) = true ∧ ∀ l ∈ s.liveLeases, l.fixed = true → l.ip ≠ p.addr i
  full : (∀ p ∈ s.dyn, ∀ i, ¬p.FirstFree i) → ∀ ip, F.inPool ip = true → ip ∈ s.leased

/-- A new login gets what `F` prescribes. If `F` fixes its address, there is memory, or the first
free address of the pool is the same. If not, the pool agrees with `F`, or there is no memory
and nothing to give. -/
def Honours (s : IpAllocator) (F : Snapshot) (n : CString) (mem : Alloc) : Prop :=
  match F.fixed.lookup n with
  | some ip => mem.lease = true ∧ mem.result = true ∧ (mem.fixedClone = true ∨
      mem.poolHost = true ∧ ∃ p ∈ s.dyn, ∃ i, p.FirstFree i ∧ p.addr i = ip)
  | none =>
    if mem.poolHost = true ∧ mem.lease = true ∧ mem.result = true then s.PoolAgrees F
    else ∀ ip, F.inPool ip = true → ip ∈ s.leased

/-- The answer to a new login. -/
theorem newLogin_answer (hserved : s.served call = some ikeSa)
    (hnone : s.lease (sessionName ikeSa) = none)
    (h : s.step parse (.acquire call answer) = some s') :
    ∃ ip isFixed dyn, NewAddress s (sessionName ikeSa) call.mem ip isFixed dyn ∧
      answer = if call.mem.lease = true ∧ call.mem.result = true then ip else none := by
  cases step_cases h with
  | answered hacq =>
    generalize hout : Acquired.done answer = out at hacq
    cases acquireEnter_cases hacq with
    | skipped hno => simp [hserved] at hno
    | reused hserved' hr =>
      obtain rfl := Option.some.inj (hserved.symm.trans hserved')
      simp [lease_eq_none.1 hnone] at hr
    | @refused ikeSa' ip isFixed dyn hserved' _ hnew hwhy =>
      obtain rfl := Option.some.inj (hserved.symm.trans hserved')
      obtain rfl := Acquired.done.inj hout
      refine ⟨ip, isFixed, dyn, hnew, ?_⟩
      rcases hwhy with rfl | hlease
      · simp
      · simp [hlease]
    | @bound ikeSa' ip isFixed dyn hserved' _ hnew hlease =>
      obtain rfl := Option.some.inj (hserved.symm.trans hserved')
      refine ⟨some ip, isFixed, dyn, hnew, ?_⟩
      by_cases hres : call.mem.result = true
      · rw [if_pos hres] at hout
        rw [if_pos ⟨hlease, hres⟩]
        exact Acquired.done.inj hout
      · simp [hres] at hout
  | rolledBack hacq =>
    generalize hout : Acquired.rollback = out at hacq
    cases acquireEnter_cases hacq with
    | skipped | reused | refused => simp at hout
    | @bound ikeSa' ip isFixed dyn hserved' _ hnew =>
      obtain rfl := Option.some.inj (hserved.symm.trans hserved')
      refine ⟨some ip, isFixed, dyn, hnew, ?_⟩
      by_cases hres : call.mem.result = true
      · simp [hres] at hout
      · simp [hres]
  | release hu => simp [Operation.released] at hu
  | idle he => exact he.elim

/-- The address is the fixed one, or the first free one of the pool, or there is none. -/
theorem NewAddress.source {mem : Alloc} {ip : Option Host} {isFixed : Bool}
    {dyn : Option DynamicPool} (h : NewAddress s n mem ip isFixed dyn) (hanon : isAnon n = false) :
    (mem.fixedClone = true ∧ ip.isSome = true ∧ s.policy.lookupFixed n = ip) ∨
    (mem.fixedClone = true → s.policy.lookupFixed n = none) ∧
      ((∃ p ∈ s.dyn, ∃ i, mem.poolHost = true ∧ p.FirstFree i ∧ ip = some (p.addr i)) ∨
        (mem.poolHost = true → ∀ p ∈ s.dyn, ∀ i, ¬p.FirstFree i) ∧ ip = none) := by
  cases h with
  | fixed _ hlookup hclone => exact Or.inl ⟨hclone, rfl, hlookup⟩
  | noPool hnofixed hd =>
    exact Or.inr ⟨hnofixed hanon, Or.inr ⟨fun _ p hp => by simp [hd] at hp, rfl⟩⟩
  | @pool p p' ip hnofixed hd hacq =>
    refine Or.inr ⟨hnofixed hanon, ?_⟩
    obtain rfl : (p.acquire mem.poolHost).1 = ip := congrArg Prod.fst hacq
    rcases p.acquire_answer mem.poolHost with ⟨i, hhost, hi, heq⟩ | ⟨hnofree, heq⟩
    · exact Or.inl ⟨p, hd, i, hhost, hi, heq⟩
    · refine Or.inr ⟨fun hhost q hq => ?_, heq⟩
      obtain rfl := Option.some.inj (hd.symm.trans hq)
      exact hnofree hhost

/-- A free address of the pool is leased just if a live fixed lease has it. -/
theorem Ok.mem_leased_iff (hok : s.Ok tight []) {p : DynamicPool} (hp : s.dyn = some p) {i : ℕ}
    (hi : p.FirstFree i) :
    p.addr i ∈ s.leased ↔ ∃ l ∈ s.liveLeases, l.fixed = true ∧ l.ip = p.addr i := by
  refine exists_congr fun l => and_congr_right fun hl => ?_
  rw [iff_and_self]
  intro hip
  obtain ⟨m, hm⟩ := mem_liveLeases.1 hl
  by_contra hfixed
  exact hok.ne_of_free hp hi.lt hi.clear hm (by simpa using hfixed) hip

/-- A pool with a free address agrees iff this is in the new range, and not leased. -/
theorem Ok.poolAgrees_iff_of_free (hok : s.Ok tight []) {p : DynamicPool} (hp : s.dyn = some p)
    {i : ℕ} (hi : p.FirstFree i) :
    s.PoolAgrees F ↔ F.inPool (p.addr i) = true ∧ p.addr i ∉ s.leased := by
  rw [hok.mem_leased_iff hp hi]
  push Not
  constructor
  · intro h
    exact h.free p hp i hi
  · intro h
    refine ⟨fun q hq j hj => ?_, fun hfull => absurd hi (hfull p hp i)⟩
    obtain rfl := Option.some.inj (hp.symm.trans hq)
    rwa [← hi.eq hj]

/-- A full pool agrees iff all of the new range is leased. -/
theorem poolAgrees_iff_of_full (hfull : ∀ p ∈ s.dyn, ∀ i, ¬p.FirstFree i) :
    s.PoolAgrees F ↔ ∀ ip, F.inPool ip = true → ip ∈ s.leased :=
  ⟨fun h => h.full hfull, fun h => ⟨fun p hp i hi => absurd hi (hfull p hp i), fun _ => h⟩⟩

/-- When the address of a user with a fixed address is that. -/
theorem NewAddress.eq_fixed_iff {mem : Alloc} {ip : Option Host} {isFixed : Bool}
    {dyn : Option DynamicPool} {fixedIp : Host} (h : NewAddress s n mem ip isFixed dyn)
    (hanon : isAnon n = false) (hlookup : s.policy.lookupFixed n = some fixedIp) :
    ip = some fixedIp ↔ mem.fixedClone = true ∨
      mem.poolHost = true ∧ ∃ p ∈ s.dyn, ∃ i, p.FirstFree i ∧ p.addr i = fixedIp := by
  rcases h.source hanon with ⟨hclone, -, hsrc⟩ | ⟨hnofixed, hpool⟩
  · exact ⟨fun _ => Or.inl hclone, fun _ => hsrc.symm.trans hlookup⟩
  have hclone : mem.fixedClone ≠ true := fun hclone => by simp [hnofixed hclone] at hlookup
  rw [or_iff_right hclone]
  rcases hpool with ⟨p, hp, i, hhost, hi, rfl⟩ | ⟨hnofree, rfl⟩
  · refine ⟨fun heq => ⟨hhost, p, hp, i, hi, Option.some.inj heq⟩, ?_⟩
    rintro ⟨-, q, hq, j, hj, rfl⟩
    obtain rfl := Option.some.inj (Eq.trans (Eq.symm hp) hq)
    rw [hi.eq hj]
  · refine ⟨nofun, ?_⟩
    rintro ⟨hhost, p, hp, i, hi, -⟩
    exact absurd hi (hnofree hhost p hp i)

/-- A new login is answered as the policy in force prescribes iff the allocator honours it. -/
theorem prescribed_iff (hok : s.Ok tight []) (hserved : s.served call = some ikeSa)
    (hanon : isAnon (sessionName ikeSa) = false) (hnone : s.lease (sessionName ikeSa) = none)
    (h : s.step parse (.acquire call answer) = some s') :
    s.policy.active.Prescribes s.leased (sessionName ikeSa) answer ↔
      s.Honours s.policy.active (sessionName ikeSa) call.mem := by
  obtain ⟨ip, isFixed, dyn, hnew, rfl⟩ := newLogin_answer hserved hnone h
  unfold Honours
  cases hlookup : s.policy.active.fixed.lookup (sessionName ikeSa) with
  | some fixedIp =>
    have hip := hnew.eq_fixed_iff hanon hlookup
    rw [Snapshot.prescribes_fixed_iff hlookup]
    by_cases hmem : call.mem.lease = true ∧ call.mem.result = true
    · rw [if_pos hmem, hip]
      simp [hmem.1, hmem.2]
    · rw [if_neg hmem]
      exact ⟨nofun, fun ⟨hl, hr, _⟩ => absurd ⟨hl, hr⟩ hmem⟩
  | none =>
    dsimp only
    rcases hnew.source hanon with ⟨-, hsome, hsrc⟩ | ⟨-, hpool⟩
    · obtain rfl := hsrc.symm.trans hlookup
      simp at hsome
    by_cases hmem : call.mem.poolHost = true ∧ call.mem.lease = true ∧ call.mem.result = true
    · rw [if_pos hmem.2, if_pos hmem]
      rcases hpool with ⟨p, hp, i, -, hi, rfl⟩ | ⟨hnofree, rfl⟩
      · rw [Snapshot.prescribes_some_iff hlookup, hok.poolAgrees_iff_of_free hp hi]
      · rw [Snapshot.prescribes_none_iff hlookup, poolAgrees_iff_of_full (hnofree hmem.1)]
    · rw [if_neg hmem]
      -- without memory there is no answer, whatever the pool has
      have hno : (if call.mem.lease = true ∧ call.mem.result = true then ip else none) = none := by
        rcases hpool with ⟨p, hp, i, hhost, -, -⟩ | ⟨-, rfl⟩
        · exact if_neg fun hlr => hmem ⟨hhost, hlr⟩
        · simp
      rw [hno, Snapshot.prescribes_none_iff hlookup]

end IpAllocator

/-- After a reload that loads `F`, until the next one, a new login is answered as `F`
prescribes iff the allocator honours `F` at that moment. -/
theorem reload_takes_effect_iff
    (h₁ : IpAllocator.Run parse (fun _ _ _ => True)
      (ipAllocatorCreate policy poolName leaseTimeout calloc) es₁ s₁)
    (hF : snapshotLoad parse file = some F)
    (h₂ : IpAllocator.Run parse (fun _ _ e => e.KeepsPolicy) (s₁.reloadPolicy parse file).2 es₂ s)
    (hserved : s.served call = some ikeSa) (hanon : isAnon (sessionName ikeSa) = false)
    (hnone : s.lease (sessionName ikeSa) = none)
    (h : s.step parse (.acquire call answer) = some s') :
    F.Prescribes s.leased (sessionName ikeSa) answer ↔
      s.Honours F (sessionName ikeSa) call.mem := by
  have hcreate := IpAllocator.ok_create policy poolName leaseTimeout calloc False.elim
  have hok₁ := IpAllocator.loose_of_run hcreate h₁
  have hok₂ : (s₁.reloadPolicy parse file).2.Ok False [] :=
    IpAllocator.loose_step (e := .reload file) hok₁ rfl
  have hactive : s.policy.active = F := by
    refine h₂.invariant (I := fun s => s.policy.active = F) ?_ fun es s e s' hi hg hs => ?_
    · simp [IpAllocator.reloadPolicy, PolicyEngine.reload, hF]
    · rw [(IpAllocator.sameSetup_of_keepsPolicy hg hs).policy, hi]
  rw [← hactive]
  exact IpAllocator.prescribed_iff (IpAllocator.loose_of_run hok₂ h₂) hserved hanon hnone h

/-- An allocator with the pool `10.0.0.1` to `10.0.0.3` after a reload that moves the pool to
`10.0.0.5` to `10.0.0.7`, and makes `10.0.0.9` the fixed address of `b`. -/
def movedPool : IpAllocator :=
  ((smallAlloc (smallPolicy [] 1 3)).reloadPolicy tenNetFromString
    (policyFile [('b', '9')] '5' '7')).2

theorem reload_takes_effect_fixed : ∃ F s',
    snapshotLoad tenNetFromString (policyFile [('b', '9')] '5' '7') = some F ∧
    movedPool.step tenNetFromString (.acquire (login (letterSa 2 'b') 0) (some (tenNet 9))) =
      some s' ∧
    F.Prescribes movedPool.leased (sessionName (letterSa 2 'b')) (some (tenNet 9)) := by
  obtain ⟨F, hF, hlookup⟩ := Option.map_eq_some_iff.1 (by decide :
    (snapshotLoad tenNetFromString (policyFile [('b', '9')] '5' '7')).map
      (fun F => F.fixed.lookup (sessionName (letterSa 2 'b'))) = some (some (tenNet 9)))
  obtain ⟨s', hs'⟩ := Option.isSome_iff_exists.1 (by decide : (movedPool.step tenNetFromString
    (.acquire (login (letterSa 2 'b') 0) (some (tenNet 9)))).isSome = true)
  have hserved : movedPool.served (login (letterSa 2 'b') 0) = some (letterSa 2 'b') := by decide
  refine ⟨F, s', hF, hs',
    (reload_takes_effect_iff .nil hF .nil hserved (by decide) (by decide) hs').2 ?_⟩
  simp [IpAllocator.Honours, hlookup, login, Alloc.ok]

/-- The pool has been moved, and `a` logs in. -/
theorem not_prescribed_after_reload : ¬∀ (parse : CString → Option Host) (policy : PolicyEngine)
    (poolName : Option CString) (leaseTimeout : UInt32) (calloc : Option (ℕ → UInt8))
    (es₁ es₂ : List Operation) (s₁ s s' : IpAllocator) (file : PolicyFile) (F : Snapshot)
    (call : AcquireCall) (ikeSa : IkeSa) (answer : Option Host),
    IpAllocator.Run parse (fun _ _ _ => True)
      (ipAllocatorCreate policy poolName leaseTimeout calloc) es₁ s₁ →
    snapshotLoad parse file = some F →
    IpAllocator.Run parse (fun _ _ e => e.KeepsPolicy) (s₁.reloadPolicy parse file).2 es₂ s →
    s.served call = some ikeSa → isAnon (sessionName ikeSa) = false →
    s.lease (sessionName ikeSa) = none → call.mem = .ok →
    s.step parse (.acquire call answer) = some s' →
    F.Prescribes s.leased (sessionName ikeSa) answer := by
  intro hall
  obtain ⟨F, hF, hfacts⟩ := Option.map_eq_some_iff.1 (by decide :
    (snapshotLoad tenNetFromString (policyFile [('b', '9')] '5' '7')).map (fun F =>
      (F.fixed.lookup (sessionName (letterSa 1 'a')), F.inPool (tenNet 1))) = some (none, false))
  obtain ⟨hlookup, hin⟩ := Prod.mk.inj hfacts
  obtain ⟨s', hs'⟩ := Option.isSome_iff_exists.1 (by decide : (movedPool.step tenNetFromString
    (.acquire (login (letterSa 1 'a') 0) (some (tenNet 1)))).isSome = true)
  have hserved : movedPool.served (login (letterSa 1 'a') 0) = some (letterSa 1 'a') := by decide
  have hpres := hall _ _ _ _ _ _ _ _ _ _ _ _ _ _ _ .nil hF .nil hserved (by decide) (by decide)
    rfl hs'
  have hin' := ((Snapshot.prescribes_some_iff hlookup).1 hpres).1
  simp [hin] at hin'

end Cupp
