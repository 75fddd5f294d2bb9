import Cupp.Sections

/-!
# Sweeps among other threads

A sweep lists the expired leases under the session mutex, and then looks at one after the
other without a lock : it reads the unique id of the lease and asks for the IKE_SA, and if
there is none it reads the unique id again and takes out the lease it finds under that. So
here a sweep is a sequence of steps, and between them any other thread may run a critical
section, SAs may come up and go down, and other sweeps may take theirs (`SweepEvent`).

A login may move a lease to its own SA after the probe of the old one has failed. Then the
sweep takes out the lease of an SA that is up (`not_sweep_sound`). And a release may destroy
a lease that a sweep has still to look at. In runs where neither happens, a sweep takes out
leases of SAs that are gone only, and reads no lease that is destroyed (`sweep_sound`). Either
of the two sets a sweep up for one or the other (`SweepWorld.disturbed`).
-/

set_option linter.unusedSectionVars false

open Transition

namespace Cupp

/-- A thread in `foreach_expiring` : the leases of its snapshot that are left, whether the
probe of the first one has failed, and the lease the callback has taken out last. -/
structure Sweeping where
  rest : List LeaseRef
  dead : Bool
  taken : Option LeaseRef

/-- The lease whose probe has failed, until the sweep has acted on it. -/
def Sweeping.probed (sw : Sweeping) : Option LeaseRef :=
  if sw.dead then sw.rest.head? else none

/-- The allocator, the IKE_SAs that exist, the unique ids given so far, and the threads that
sweep. -/
structure SweepWorld (T : Type) where
  world : World
  present : Finset UInt32
  known : Finset UInt32
  sweeps : T → Sweeping

/-- A critical section of some thread, an SA that comes up or goes down, or one step of a
sweep. The pool release of a sweep is a `finish` like any other. -/
inductive SweepEvent (T : Type)
  | other (e : CriticalSection)
  | up (uid : UInt32)
  | down (uid : UInt32)
  | snapshot (t : T) (now : ℤ) (entries : List (Σ _ : UInt32, LeaseRef))
  | probe (t : T)
  | unbind (t : T)

namespace SweepWorld

variable {T : Type} [DecidableEq T] (parse : CString → Option Host)

/-- No IKE_SA exists, and no thread sweeps. -/
def start (alloc : IpAllocator) : SweepWorld T :=
  ⟨.start alloc, ∅, ∅, fun _ => ⟨[], false, none⟩⟩

/-- The session manager. -/
abbrev sessions (w : SweepWorld T) : SessionManager :=
  w.world.alloc.sessions

/-- A sweep comes to its next point. -/
def setSweep (w : SweepWorld T) (t : T) (sw : Sweeping) : SweepWorld T :=
  { w with sweeps := Function.update w.sweeps t sw }

/-- The callback of `t` has returned. -/
def Returned (w : SweepWorld T) (t : T) : Prop :=
  ∀ r ∈ (w.sweeps t).taken, r ∉ w.world.pending

instance (w : SweepWorld T) (t : T) : Decidable (w.Returned t) :=
  inferInstanceAs (Decidable (∀ r ∈ (w.sweeps t).taken, r ∉ w.world.pending))

/-- One event. An SA exists while its `acquire_address` runs, and its unique id is new when it
comes up. `checkout_by_id` finds the SAs that exist. `probe` is the read of the unique id and the
call of `checkout_by_id` with it in one step, so what disturbs a sweep between its steps counts
from that read on. -/
def step (w : SweepWorld T) : SweepEvent T → Option (SweepWorld T)
  | .other e =>
    if e.OnAcquire fun call => ∀ ikeSa ∈ call.ikeSa, ikeSa.uniqueId ∈ w.present then
      (w.world.step parse e).map fun world => { w with world := world }
    else none
  | .up uid =>
    if uid ∈ w.known then none
    else some { w with present := insert uid w.present, known := insert uid w.known }
  | .down uid => some { w with present := w.present.erase uid }
  | .snapshot t now entries =>
    if (w.sweeps t).rest = [] ∧ w.Returned t ∧ Hashtable.Enumerates entries w.sessions.byUid then
      let rest := w.sessions.expiring now w.world.alloc.leaseTimeout entries
      some (w.setSweep t ⟨rest, false, none⟩)
    else none
  | .probe t =>
    match w.sweeps t with
    | ⟨r :: rest, false, _⟩ =>
      if w.Returned t then
        -- an SA that is found is checked in again, and the next lease is next
        if w.sessions.uid r ∈ w.present then some (w.setSweep t ⟨rest, false, none⟩)
        else some (w.setSweep t ⟨r :: rest, true, none⟩)
      else none
    | _ => none
  | .unbind t =>
    match w.sweeps t with
    | ⟨r :: rest, true, _⟩ =>
      let taken := w.sessions.byUid.get (w.sessions.uid r)
      (w.world.step parse (.unbind (w.sessions.uid r))).map fun world =>
        setSweep { w with world := world } t ⟨rest, false, taken⟩
    | _ => none

/-- The runs whose events meet a guard. -/
abbrev Run (guard : List (SweepEvent T) → SweepWorld T → SweepEvent T → Prop)
    (alloc : IpAllocator) : List (SweepEvent T) → SweepWorld T → Prop :=
  Transition.Run (fun w e w' => w.step parse e = some w') guard (.start alloc)

variable {parse}

/-! ## What a sweep should do -/

/-- The lease a sweep takes out in an event. -/
def removed (w : SweepWorld T) : SweepEvent T → Option LeaseRef
  | .unbind t => (w.sweeps t).probed.bind fun r => w.sessions.byUid.get (w.sessions.uid r)
  | _ => none

/-- The lease whose fields a callback reads in an event, before it has taken it out or after. -/
def touched (w : SweepWorld T) : SweepEvent T → Option LeaseRef
  | .probe t | .unbind t => (w.sweeps t).rest.head?
  | .other (.finish r) => some r
  | _ => none

/-- A sweep takes out the lease of an SA only if that does not exist. -/
def TakesOrphan (w : SweepWorld T) (e : SweepEvent T) : Prop :=
  ∀ r ∈ w.removed e, w.sessions.uid r ∉ w.present

/-- The callback reads no lease that is destroyed. -/
def ReadsLive (w : SweepWorld T) (e : SweepEvent T) : Prop :=
  ∀ r ∈ w.touched e, r ∉ w.sessions.freed

/-- No login moves a lease a sweep has found to be an orphan, and no lease is destroyed that a
sweep has still to look at. -/
def Undisturbed (w : SweepWorld T) : SweepEvent T → Prop
  | .other (.acquire call _) => ∀ t, ∀ r ∈ (w.sweeps t).probed,
      ∀ ikeSa ∈ w.world.alloc.served call, w.sessions.byUser.get (sessionName ikeSa) ≠ some r
  | .other (.finish r) => ∀ t, r ∉ (w.sweeps t).rest
  | _ => True

instance [Fintype T] (w : SweepWorld T) : DecidablePred w.Undisturbed
  | .other (.acquire call _) => inferInstanceAs (Decidable (∀ t, ∀ r ∈ (w.sweeps t).probed,
      ∀ ikeSa ∈ w.world.alloc.served call, w.sessions.byUser.get (sessionName ikeSa) ≠ some r))
  | .other (.finish r) => inferInstanceAs (Decidable (∀ t, r ∉ (w.sweeps t).rest))
  | .other (.unbind _) | .other (.reload _) | .up _ | .down _ | .snapshot .. | .probe _
  | .unbind _ => inferInstanceAs (Decidable True)

end SweepWorld

/-! ## What a section does to the lease objects -/

namespace World

variable {parse : CString → Option Host} {w w' : World} {e : CriticalSection} {r : LeaseRef}

/-- A section writes the unique id of a call to the lease the user has, or to a new one. -/
theorem uid_step (h : w.step parse e = some w') (r : LeaseRef) :
    (w'.alloc.sessions.uid r = w.alloc.sessions.uid r ∧
      (r < w'.alloc.sessions.next → r < w.alloc.sessions.next)) ∨
    ∃ call answer ikeSa, e = .acquire call answer ∧ w.alloc.served call = some ikeSa ∧
      w'.alloc.sessions.uid r = ikeSa.uniqueId ∧
      (w.alloc.sessions.byUser.get (sessionName ikeSa) = some r ∨ r = w.alloc.sessions.next) := by
  cases step_cases h with
  | @acquire call answer alloc hacq =>
    cases IpAllocator.acquireEnter_cases hacq with
    | skipped => exact Or.inl ⟨rfl, id⟩
    | refused => exact Or.inl ⟨rfl, id⟩
    | @reused ikeSa r' hsa hr =>
      dsimp only
      rw [SessionManager.uid_moveLease]
      rcases eq_or_ne r r' with rfl | hne
      · exact Or.inr ⟨call, _, ikeSa, rfl, hsa, Function.update_self _ _ _, Or.inl hr⟩
      · exact Or.inl ⟨Function.update_of_ne hne _ _, id⟩
    | @bound ikeSa ip isFixed dyn hsa hn =>
      dsimp only
      rw [SessionManager.uid_putLease]
      rcases eq_or_ne r w.alloc.sessions.next with rfl | hne
      · exact Or.inr ⟨call, _, ikeSa, rfl, hsa, Function.update_self _ _ _, Or.inr rfl⟩
      · exact Or.inl ⟨Function.update_of_ne hne _ _,
          fun hlt => (Nat.lt_succ_iff.1 hlt).lt_of_ne hne⟩
  | unbindNone | unbindSome | finish | reload => exact Or.inl ⟨rfl, id⟩

theorem next_le_step (h : w.step parse e = some w') :
    w.alloc.sessions.next ≤ w'.alloc.sessions.next := by
  cases step_cases h with
  | acquire hacq =>
    cases IpAllocator.acquireEnter_cases hacq with
    | skipped | refused | reused => exact le_rfl
    | bound => exact Nat.le_succ _
  | unbindNone | unbindSome | finish | reload => exact le_rfl

/-- Only the end of a release destroys a lease. -/
theorem freed_step (h : w.step parse e = some w') (hr : r ∈ w'.alloc.sessions.freed) :
    r ∈ w.alloc.sessions.freed ∨ e = .finish r := by
  cases step_cases h with
  | acquire hacq =>
    cases IpAllocator.acquireEnter_cases hacq with
    | skipped | refused | reused | bound => exact Or.inl hr
  | @finish r' =>
    rcases Finset.mem_insert.1 hr with rfl | hr
    · exact Or.inr rfl
    · exact Or.inl hr
  | unbindNone | unbindSome | reload => exact Or.inl hr

end World

namespace SweepWorld

variable {T : Type} [DecidableEq T] {parse : CString → Option Host} {w w' : SweepWorld T}
  {e : SweepEvent T} {t : T} {r : LeaseRef} {sw : Sweeping} {world : World}

/-- The ways an event can go. -/
inductive StepCase (parse : CString → Option Host) (w : SweepWorld T) :
    SweepEvent T → SweepWorld T → Prop
  | other {e : CriticalSection} {world : World} :
      (e.OnAcquire fun call => ∀ ikeSa ∈ call.ikeSa, ikeSa.uniqueId ∈ w.present) →
      w.world.step parse e = some world → StepCase parse w (.other e) { w with world := world }
  | up {uid : UInt32} : uid ∉ w.known → StepCase parse w (.up uid)
      { w with present := insert uid w.present, known := insert uid w.known }
  | down {uid : UInt32} : StepCase parse w (.down uid) { w with present := w.present.erase uid }
  | snapshot {t : T} {now : ℤ} {entries : List (Σ _ : UInt32, LeaseRef)} :
      Hashtable.Enumerates entries w.sessions.byUid → StepCase parse w (.snapshot t now entries)
        (w.setSweep t ⟨w.sessions.expiring now w.world.alloc.leaseTimeout entries, false, none⟩)
  | alive {t : T} {r : LeaseRef} {rest : List LeaseRef} : (w.sweeps t).rest = r :: rest →
      w.sessions.uid r ∈ w.present →
      StepCase parse w (.probe t) (w.setSweep t ⟨rest, false, none⟩)
  | orphan {t : T} {r : LeaseRef} {rest : List LeaseRef} : (w.sweeps t).rest = r :: rest →
      w.sessions.uid r ∉ w.present →
      StepCase parse w (.probe t) (w.setSweep t ⟨r :: rest, true, none⟩)
  | unbind {t : T} {r : LeaseRef} {rest : List LeaseRef} {taken : Option LeaseRef}
      {world : World} : (w.sweeps t).rest = r :: rest →
      w.world.step parse (.unbind (w.sessions.uid r)) = some world →
      StepCase parse w (.unbind t) (setSweep { w with world := world } t ⟨rest, false, taken⟩)

/-- What an event does. -/
theorem step_cases (h : w.step parse e = some w') : StepCase parse w e w' := by
  cases e with
  | other e =>
    simp only [step] at h
    split_ifs at h with hpresent
    obtain ⟨world, hworld, rfl⟩ := Option.map_eq_some_iff.1 h
    exact .other hpresent hworld
  | up uid =>
    simp only [step] at h
    split_ifs at h with hnew
    obtain rfl := Option.some.inj h
    exact .up hnew
  | down uid =>
    obtain rfl := Option.some.inj h
    exact .down
  | snapshot t now entries =>
    simp only [step] at h
    split_ifs at h with hes
    obtain rfl := Option.some.inj h
    exact .snapshot hes.2.2
  | probe t =>
    cases hsw : w.sweeps t with
    | mk rest dead taken =>
      match rest, dead with
      | [], _ => simp [step, hsw] at h
      | _ :: _, true => simp [step, hsw] at h
      | r :: rest, false =>
        have hrest : (w.sweeps t).rest = r :: rest := by rw [hsw]
        simp only [step, hsw] at h
        split_ifs at h with _ hp
        · obtain rfl := Option.some.inj h
          exact .alive hrest hp
        · obtain rfl := Option.some.inj h
          exact .orphan hrest hp
  | unbind t =>
    cases hsw : w.sweeps t with
    | mk rest dead taken =>
      match rest, dead with
      | [], _ => simp [step, hsw] at h
      | _ :: _, false => simp [step, hsw] at h
      | r :: rest, true =>
        have hrest : (w.sweeps t).rest = r :: rest := by rw [hsw]
        simp only [step, hsw] at h
        obtain ⟨world, hworld, rfl⟩ := Option.map_eq_some_iff.1 h
        exact .unbind hrest hworld

/-! ## What undisturbed runs keep -/

/-- Unique ids of leases have been given, the leases a sweep has to look at are not destroyed,
and the one it is about to take out has no SA. -/
structure Sound (w : SweepWorld T) : Prop where
  ok : w.world.alloc.Ok False w.world.pending
  present : w.present ⊆ w.known
  known : ∀ {r}, r < w.sessions.next → w.sessions.uid r ∈ w.known
  rest : ∀ {t r}, r ∈ (w.sweeps t).rest → r < w.sessions.next ∧ r ∉ w.sessions.freed
  probed : ∀ {t r}, r ∈ (w.sweeps t).probed → w.sessions.uid r ∉ w.present

@[simp] theorem sweeps_setSweep_self : (w.setSweep t sw).sweeps t = sw :=
  Function.update_self _ _ _

theorem sweeps_setSweep_of_ne {t' : T} (h : t' ≠ t) : (w.setSweep t sw).sweeps t' = w.sweeps t' :=
  Function.update_of_ne h _ _

theorem mem_rest_of_probed (h : r ∈ sw.probed) : r ∈ sw.rest := by
  unfold Sweeping.probed at h
  split_ifs at h with hdead
  · exact List.mem_of_mem_head? h
  · simp at h

/-- A sweep may come to a point where its leases are alive and its probes hold. -/
theorem Sound.setSweep (h : w.Sound)
    (hrest : ∀ r ∈ sw.rest, r < w.sessions.next ∧ r ∉ w.sessions.freed)
    (hprobed : ∀ r ∈ sw.probed, w.sessions.uid r ∉ w.present) : (w.setSweep t sw).Sound := by
  refine ⟨h.ok, h.present, h.known, fun {t' r} hr => ?_, fun {t' r} hr => ?_⟩ <;>
    rcases eq_or_ne t' t with rfl | hne
  · rw [sweeps_setSweep_self] at hr
    exact hrest r hr
  · rw [sweeps_setSweep_of_ne hne] at hr
    exact h.rest hr
  · rw [sweeps_setSweep_self] at hr
    exact hprobed r hr
  · rw [sweeps_setSweep_of_ne hne] at hr
    exact h.probed hr

/-- A critical section of another thread. -/
theorem Sound.other {e : CriticalSection} (h : w.Sound) (hund : w.Undisturbed (.other e))
    (hpresent : e.OnAcquire fun call => ∀ ikeSa ∈ call.ikeSa, ikeSa.uniqueId ∈ w.present)
    (hs : w.world.step parse e = some world) : Sound { w with world := world } where
  ok := World.loose_step h.ok hs
  present := h.present
  known {r} hr := by
    rcases World.uid_step hs r with ⟨huid, hlt⟩ | ⟨call, answer, ikeSa, rfl, hserved, huid, -⟩
    · exact huid ▸ h.known (hlt hr)
    · exact huid ▸ h.present (hpresent ikeSa (IpAllocator.ikeSa_of_served hserved))
  rest {t r} hr := by
    obtain ⟨hlt, hfreed⟩ := h.rest hr
    refine ⟨hlt.trans_le (World.next_le_step hs), fun hf => ?_⟩
    rcases World.freed_step hs hf with hf | rfl
    · exact hfreed hf
    · exact hund t hr
  probed {t r} hr := by
    rcases World.uid_step hs r with ⟨huid, -⟩ | ⟨call, answer, ikeSa, rfl, hserved, -, hr' | rfl⟩
    · exact huid ▸ h.probed hr
    · exact absurd hr' (hund t r hr ikeSa hserved)
    · exact absurd (h.rest (mem_rest_of_probed hr)).1 (lt_irrefl _)

/-- An event that disturbs no sweep keeps the invariant. -/
theorem Sound.step (h : w.Sound) (hund : w.Undisturbed e) (hs : w.step parse e = some w') :
    w'.Sound := by
  cases step_cases hs with
  | other hpresent hworld => exact h.other hund hpresent hworld
  | @up uid hnew =>
    refine ⟨h.ok, Finset.insert_subset_insert _ h.present,
      fun hr => Finset.mem_insert_of_mem (h.known hr), h.rest, fun {t r} hr hp => ?_⟩
    -- the SA that comes up has a unique id no lease records
    rcases Finset.mem_insert.1 hp with heq | hp
    · exact hnew (heq ▸ h.known (h.rest (mem_rest_of_probed hr)).1)
    · exact h.probed hr hp
  | down =>
    exact ⟨h.ok, (Finset.erase_subset _ _).trans h.present, h.known, h.rest,
      fun hr hp => h.probed hr (Finset.mem_of_mem_erase hp)⟩
  | @snapshot t now entries hes =>
    refine h.setSweep (fun r hr => ?_) (by simp [Sweeping.probed])
    obtain ⟨⟨u, r'⟩, he, rfl⟩ := List.mem_map.1 (List.mem_filter.1 hr).1
    have hfiled := h.ok.sessions.filed.toB ((hes.mem_iff u r').1 he)
    exact ⟨h.ok.sessions.lt hfiled, h.ok.sessions.notFreed hfiled⟩
  | alive hrest =>
    exact h.setSweep (fun r hr => h.rest (hrest ▸ List.mem_cons_of_mem _ hr))
      (by simp [Sweeping.probed])
  | orphan hrest hp =>
    refine h.setSweep (fun r hr => h.rest (hrest ▸ hr)) ?_
    simpa [Sweeping.probed] using hp
  | unbind hrest hworld =>
    have hother := h.other (e := .unbind _) trivial trivial hworld
    exact hother.setSweep (fun r hr => hother.rest (hrest ▸ List.mem_cons_of_mem _ hr))
      (by simp [Sweeping.probed])

/-- Under the invariant a sweep takes out leases without an SA only. -/
theorem Sound.takesOrphan (h : w.Sound) (e : SweepEvent T) : w.TakesOrphan e := by
  intro r hr
  cases e with
  | unbind t =>
    obtain ⟨r', hprobed, hu⟩ := Option.bind_eq_some_iff.1 hr
    rw [h.ok.sessions.uid_eq hu]
    exact h.probed hprobed
  | other | up | down | snapshot | probe => simp [removed] at hr

/-- Under the invariant a sweep reads leases that are alive. -/
theorem Sound.readsLive (h : w.Sound) (hs : w.step parse e = some w') : w.ReadsLive e := by
  intro r hr
  cases step_cases hs with
  | @other e world _ hworld =>
    cases e with
    | finish r' =>
      obtain rfl := Option.some.inj hr
      cases World.step_cases hworld with
      | finish hmem => exact h.ok.detached.notFreed hmem
    | acquire | unbind | reload => simp [touched] at hr
  | alive | orphan | unbind => exact (h.rest (List.mem_of_mem_head? hr)).2
  | up | down | snapshot => simp [touched] at hr

/-- A sweep that is disturbed has a destroyed lease to look at, or is about to take out the
lease of an SA that exists. -/
theorem disturbed (hund : ¬w.Undisturbed e) (hs : w.step parse e = some w') :
    ∃ t, (∃ r ∈ (w'.sweeps t).rest, r ∈ w'.sessions.freed) ∨ ¬w'.TakesOrphan (.unbind t) := by
  cases step_cases hs with
  | @other e world hpresent hworld =>
    cases e with
    | finish r =>
      simp only [Undisturbed, not_forall, not_not] at hund
      obtain ⟨t, hr⟩ := hund
      cases World.step_cases hworld with
      | finish => exact ⟨t, Or.inl ⟨r, hr, Finset.mem_insert_self _ _⟩⟩
    | acquire call answer =>
      simp only [Undisturbed, not_forall, not_not] at hund
      obtain ⟨t, r, hr, ikeSa, hserved, hfiled⟩ := hund
      refine ⟨t, Or.inr fun horphan => ?_⟩
      cases World.step_cases hworld with
      | acquire hacq =>
        cases IpAllocator.acquireEnter_cases hacq with
        | skipped hnone => simp [hnone] at hserved
        | refused hserved' hnone | bound hserved' hnone =>
          obtain rfl := Option.some.inj (hserved'.symm.trans hserved)
          simp [hnone] at hfiled
        | @reused ikeSa' r' hserved' hfiled' =>
          obtain rfl := Option.some.inj (hserved'.symm.trans hserved)
          obtain rfl := Option.some.inj (hfiled'.symm.trans hfiled)
          -- the lease is filed under the unique id of the call now
          refine horphan r' ?_ ?_
          · simp only [removed, sessions, SessionManager.uid_moveLease,
              SessionManager.byUid_moveLease]
            exact Option.bind_eq_some_iff.2 ⟨r', hr, by simp⟩
          · simpa [sessions, SessionManager.uid_moveLease] using
              hpresent ikeSa' (IpAllocator.ikeSa_of_served hserved)
    | unbind | reload => exact absurd trivial hund
  | up | down | snapshot | alive | orphan | unbind => exact absurd trivial hund

variable {policy : PolicyEngine} {poolName : Option CString} {leaseTimeout : UInt32}
  {calloc : Option (ℕ → UInt8)} {es : List (SweepEvent T)}

theorem sound_start :
    (start (ipAllocatorCreate policy poolName leaseTimeout calloc) : SweepWorld T).Sound where
  ok := IpAllocator.ok_create policy poolName leaseTimeout calloc False.elim
  present := Finset.empty_subset _
  known hr := absurd hr (Nat.not_lt_zero _)
  rest hr := by simp [start] at hr
  probed hr := by simp [start, Sweeping.probed] at hr

/-- An undisturbed run keeps the invariant. -/
theorem sound_of_run (h : Run parse (fun _ w e => w.Undisturbed e)
    (ipAllocatorCreate policy poolName leaseTimeout calloc) es w) : w.Sound := by
  refine h.invariant (I := Sound) sound_start ?_
  intro es w e w' hi hg hs
  exact hi.step hg hs

end SweepWorld

/-- In runs in which nothing disturbs a sweep between its steps, sweeps take out orphans only,
and their callbacks read no lease that is destroyed. -/
theorem sweep_sound {T : Type} [DecidableEq T] {parse : CString → Option Host}
    {policy : PolicyEngine} {poolName : Option CString} {leaseTimeout : UInt32}
    {calloc : Option (ℕ → UInt8)} {es : List (SweepEvent T)} {w w' : SweepWorld T}
    {e : SweepEvent T}
    (h : SweepWorld.Run parse (fun _ w e => w.Undisturbed e)
      (ipAllocatorCreate policy poolName leaseTimeout calloc) es w)
    (hs : w.step parse e = some w') : w.TakesOrphan e ∧ w.ReadsLive e :=
  ⟨(SweepWorld.sound_of_run h).takesOrphan e, (SweepWorld.sound_of_run h).readsLive hs⟩

/-- `a` gets `10.0.0.1`, more than an hour passes after the login, and a sweep begins. -/
def lateSweep : List (SweepEvent Unit) :=
  [.up 1, .other (.acquire (login (letterSa 1 'a') 0) (.done (some (tenNet 1)))),
    .snapshot () 4000 [⟨1, 0⟩]]

/-- The connection is lost, and the sweep takes out the lease. -/
theorem sweep_sound_of_lost : ∃ w w' : SweepWorld Unit,
    w.step (fun _ => none) (.unbind ()) = some w' ∧ w.removed (.unbind ()) = some 0 ∧
    w.TakesOrphan (.unbind ()) ∧ w.ReadsLive (.unbind ()) := by
  obtain ⟨w, hrun, hfacts⟩ := Run.exists_of_exec (by decide :
    (exec (SweepWorld.step fun _ => none) (fun _ w e => w.Undisturbed e) []
      (.start (smallAlloc (smallPolicy [] 1 3))) (lateSweep ++ [.down 1, .probe ()])).map
        (fun w => (w.removed (.unbind ()), (w.step (fun _ => none) (.unbind ())).isSome)) =
      some (some 0, true))
  obtain ⟨hrem, hstep⟩ := Prod.mk.inj hfacts
  obtain ⟨w', hw'⟩ := Option.isSome_iff_exists.1 hstep
  exact ⟨w, w', hw', hrem, sweep_sound hrun hw'⟩

/-- Between the probe and the release, `a` logs in with another SA. And before the probe, the
connection is lost and the lease released. -/
theorem not_sweep_sound :
    (¬∀ (es : List (SweepEvent Unit)) (w w' : SweepWorld Unit) (e : SweepEvent Unit),
      SweepWorld.Run (fun _ => none) (fun _ _ _ => True) (smallAlloc (smallPolicy [] 1 3)) es w →
        w.step (fun _ => none) e = some w' → w.TakesOrphan e) ∧
    ¬∀ (es : List (SweepEvent Unit)) (w w' : SweepWorld Unit) (e : SweepEvent Unit),
      SweepWorld.Run (fun _ => none) (fun _ _ _ => True) (smallAlloc (smallPolicy [] 1 3)) es w →
        w.step (fun _ => none) e = some w' → w.ReadsLive e := by
  constructor <;> intro hall
  · obtain ⟨w, hrun, hfacts⟩ := Run.exists_of_exec (by decide :
      (exec (SweepWorld.step fun _ => none) (fun _ _ _ => True) []
        (.start (smallAlloc (smallPolicy [] 1 3)))
        (lateSweep ++ [.down 1, .probe (), .up 3,
          .other (.acquire (login (letterSa 3 'a') 4000) (.done (some (tenNet 1)))),
          .other (.unbind 1)])).map (fun w => (w.removed (.unbind ()), w.sessions.uid 0,
            (3 ∈ w.present : Bool), (w.step (fun _ => none) (.unbind ())).isSome)) =
        some (some 0, 3, true, true))
    simp only [Prod.mk.injEq, decide_eq_true_eq] at hfacts
    obtain ⟨hrem, huid, hpresent, hstep⟩ := hfacts
    obtain ⟨w', hw'⟩ := Option.isSome_iff_exists.1 hstep
    exact hall _ w w' _ hrun hw' 0 hrem (huid ▸ hpresent)
  · obtain ⟨w, hrun, hfacts⟩ := Run.exists_of_exec (by decide :
      (exec (SweepWorld.step fun _ => none) (fun _ _ _ => True) []
        (.start (smallAlloc (smallPolicy [] 1 3)))
        (lateSweep ++ [.down 1, .other (.unbind 1), .other (.finish 0)])).map
          (fun w => (w.touched (.probe ()), (0 ∈ w.sessions.freed : Bool),
            (w.step (fun _ => none) (.probe ())).isSome)) = some (some 0, true, true))
    simp only [Prod.mk.injEq, decide_eq_true_eq] at hfacts
    obtain ⟨htouched, hfreed, hstep⟩ := hfacts
    obtain ⟨w', hw'⟩ := Option.isSome_iff_exists.1 hstep
    exact hall _ w w' _ hrun hw' 0 htouched hfreed

end Cupp
