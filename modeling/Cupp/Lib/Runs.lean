import Mathlib.Data.List.Basic
import Mathlib.Logic.Function.Iterate
import Mathlib.Tactic.Choose

/-!
# Guarded runs of a labelled transition relation

`Run step guard s es s'` : from `s` the system takes the steps `es` in order and ends in
`s'`. The guard is read before each step, at the events so far, the state and the next
event, so an assumption on the environment, or a condition on the steps of a run, is a
guard. `Run.induction` proves a property of every reachable state together with the
history that led there, `Run.invariant` one of the state alone, and `Run.simulate` carries
a run over to another system that answers each step with a run of its own, and
`Run.refines` does so for systems that show some of their steps. `exec` computes runs of a
step function. `Forever` is about runs that do not end.
-/

namespace Transition

variable {S E S' E' : Type*}

/-- The steps `es` lead from `s` to the last argument, each allowed by `guard`. -/
inductive Run (step : S → E → S → Prop) (guard : List E → S → E → Prop) (s : S) :
    List E → S → Prop
  | nil : Run step guard s [] s
  | snoc {es : List E} {s₁ s₂ : S} {e : E} : Run step guard s es s₁ → guard es s₁ e →
      step s₁ e s₂ → Run step guard s (es ++ [e]) s₂

namespace Run

variable {step : S → E → S → Prop} {guard : List E → S → E → Prop} {s s' : S} {es : List E}

/-- What holds of the empty history and is kept by every guarded step holds of every run,
with its history. -/
theorem induction {P : List E → S → Prop} (h0 : P [] s)
    (hs : ∀ es s₁ e s₂, Run step guard s es s₁ → P es s₁ → guard es s₁ e → step s₁ e s₂ →
      P (es ++ [e]) s₂) (h : Run step guard s es s') : P es s' := by
  induction h with
  | nil => exact h0
  | snoc hr hg hst ih => exact hs _ _ _ _ hr ih hg hst

/-- An invariant of the guarded steps holds in every reachable state. -/
theorem invariant {I : S → Prop} (h0 : I s)
    (hs : ∀ es s₁ e s₂, I s₁ → guard es s₁ e → step s₁ e s₂ → I s₂)
    (h : Run step guard s es s') : I s' :=
  induction (P := fun _ => I) h0 (fun es s₁ e s₂ _ hi hg hst => hs es s₁ e s₂ hi hg hst) h

/-- A run under a guard is one under a weaker guard. -/
theorem mono {guard' : List E → S → E → Prop} (hg : ∀ es s e, guard es s e → guard' es s e)
    (h : Run step guard s es s') : Run step guard' s es s' := by
  induction h with
  | nil => exact .nil
  | snoc _ hge hst ih => exact .snoc ih (hg _ _ _ hge) hst

/-- One guarded step is a run. -/
theorem single {e : E} (hg : guard [] s e) (hst : step s e s') : Run step guard s [e] s' :=
  .snoc .nil hg hst

/-- Two runs in sequence, under a guard that does not read the history. -/
theorem append {g : S → E → Prop} {s₁ : S} {es' : List E}
    (h : Run step (fun _ => g) s es s₁) (h' : Run step (fun _ => g) s₁ es' s') :
    Run step (fun _ => g) s (es ++ es') s' := by
  induction h' with
  | nil => simpa using h
  | snoc _ hg hst ih =>
    rw [← List.append_assoc]
    exact .snoc ih hg hst

/-- If `rel` relates the start states, and every guarded step from related states is
answered by a run of the other system to related states, every run is. -/
theorem simulate {step' : S' → E' → S' → Prop} {g' : S' → E' → Prop} (rel : S → S' → Prop)
    {t : S'} (h0 : rel s t)
    (hs : ∀ es s₁ e s₂ t₁, rel s₁ t₁ → guard es s₁ e → step s₁ e s₂ →
      ∃ es' t₂, Run step' (fun _ => g') t₁ es' t₂ ∧ rel s₂ t₂)
    (h : Run step guard s es s') :
    ∃ es' t', Run step' (fun _ => g') t es' t' ∧ rel s' t' := by
  induction h with
  | nil => exact ⟨[], t, .nil, h0⟩
  | snoc _ hg hst ih =>
    obtain ⟨es₁, t₁, hr₁, hrel₁⟩ := ih
    obtain ⟨es₂, t₂, hr₂, hrel₂⟩ := hs _ _ _ _ t₁ hrel₁ hg hst
    exact ⟨es₁ ++ es₂, t₂, hr₁.append hr₂, hrel₂⟩

/-- The same with labels : what each step shows is shown by the run that answers it, so the two
runs show the same. -/
theorem refines {L : Type*} {shown : E → Option L} {shown' : E' → Option L}
    {step' : S' → E' → S' → Prop} {g' : S' → E' → Prop} (rel : S → S' → Prop) {t : S'}
    (h0 : rel s t)
    (hs : ∀ es s₁ e s₂ t₁, Run step guard s es s₁ → rel s₁ t₁ → guard es s₁ e → step s₁ e s₂ →
      ∃ es' t₂, Run step' (fun _ => g') t₁ es' t₂ ∧ es'.filterMap shown' = (shown e).toList ∧
        rel s₂ t₂)
    (h : Run step guard s es s') :
    ∃ es' t', Run step' (fun _ => g') t es' t' ∧
      es'.filterMap shown' = es.filterMap shown ∧ rel s' t' := by
  induction h with
  | nil => exact ⟨[], t, .nil, rfl, h0⟩
  | @snoc es _ _ e hr hg hst ih =>
    obtain ⟨es₁, t₁, hr₁, hshown₁, hrel₁⟩ := ih
    obtain ⟨es₂, t₂, hr₂, hshown₂, hrel₂⟩ := hs _ _ _ _ t₁ hr hrel₁ hg hst
    refine ⟨es₁ ++ es₂, t₂, hr₁.append hr₂, ?_, hrel₂⟩
    rw [List.filterMap_append, List.filterMap_append, hshown₁, hshown₂]
    cases he : shown e <;> simp [he]

end Run

/-! ## Runs of a step function -/

/-- Take the steps `es` one by one after the history `hist`, as long as the guard allows
them and they can be taken. -/
def exec (f : S → E → Option S) (guard : List E → S → E → Prop)
    [∀ es s e, Decidable (guard es s e)] : List E → S → List E → Option S
  | _, s, [] => some s
  | hist, s, e :: es =>
    if guard hist s e then (f s e).bind fun s' => exec f guard (hist ++ [e]) s' es else none

/-- What `exec` computes is a run. -/
theorem Run.of_exec {f : S → E → Option S} {guard : List E → S → E → Prop}
    [∀ es s e, Decidable (guard es s e)] {s₀ s s' : S} {hist es : List E}
    (hr : Run (fun s e s' => f s e = some s') guard s₀ hist s)
    (h : exec f guard hist s es = some s') :
    Run (fun s e s' => f s e = some s') guard s₀ (hist ++ es) s' := by
  induction es generalizing hist s with
  | nil =>
    obtain rfl : s = s' := by simpa [exec] using h
    simpa using hr
  | cons e es ih =>
    by_cases hg : guard hist s e
    · obtain ⟨s₁, hs₁, hrest⟩ : ∃ s₁, f s e = some s₁ ∧
          exec f guard (hist ++ [e]) s₁ es = some s' := by
        simpa [exec, hg, Option.bind_eq_some_iff] using h
      simpa using ih (.snoc hr hg hs₁) hrest
    · simp [exec, hg] at h

/-- The steps of a function lead to one state. -/
theorem Run.unique {f : S → E → Option S} {guard : List E → S → E → Prop} {s s₁ s₂ : S}
    {es : List E} (h₁ : Run (fun s e s' => f s e = some s') guard s es s₁)
    (h₂ : Run (fun s e s' => f s e = some s') guard s es s₂) : s₁ = s₂ := by
  induction h₁ generalizing s₂ with
  | nil =>
    generalize hes : ([] : List E) = es at h₂
    cases h₂ with
    | nil => rfl
    | snoc => simp at hes
  | @snoc es₁ s₁ s₁' e _ _ hst ih =>
    generalize hes : es₁ ++ [e] = es at h₂
    cases h₂ with
    | nil => simp at hes
    | snoc hr _ hst' =>
      obtain ⟨rfl, he⟩ := List.append_inj' hes rfl
      obtain rfl := List.singleton_inj.1 he
      obtain rfl := ih hr
      exact Option.some.inj (hst.symm.trans hst')

/-- A run with facts about the state it leads to, computed together. -/
theorem Run.exists_of_exec {X : Type*} {f : S → E → Option S} {guard : List E → S → E → Prop}
    [∀ es s e, Decidable (guard es s e)] {s : S} {es : List E} {facts : S → X} {x : X}
    (h : (exec f guard [] s es).map facts = some x) :
    ∃ s', Run (fun s e s' => f s e = some s') guard s es s' ∧ facts s' = x := by
  obtain ⟨s', hs', hx⟩ := Option.map_eq_some_iff.1 h
  exact ⟨s', of_exec .nil hs', hx⟩

/-! ## Runs that do not end -/

/-- From `s` there is a run of steps without end. -/
def Forever (step : S → S → Prop) (s : S) : Prop :=
  ∃ f : ℕ → S, f 0 = s ∧ ∀ i, step (f i) (f (i + 1))

variable {step : S → S → Prop} {I : S → Prop} {s : S}

theorem Forever.tail (h : Forever step s) : ∃ s', step s s' ∧ Forever step s' := by
  obtain ⟨f, rfl, hf⟩ := h
  exact ⟨f 1, hf 0, fun i => f (i + 1), rfl, fun i => hf (i + 1)⟩

/-- If each step goes down in `r`, and keeps what that rests on, all runs end. -/
theorem not_forever {r : S → S → Prop} (hwf : WellFounded r)
    (hstep : ∀ s s', I s → step s s' → I s' ∧ r s' s) (hi : I s) : ¬Forever step s := by
  induction s using hwf.induction with
  | _ s ih =>
    intro h
    obtain ⟨s', hs', h'⟩ := h.tail
    obtain ⟨hi', hr⟩ := hstep s s' hi hs'
    exact ih s' hr hi' h'

/-- If there is always a step that keeps `I`, there are such steps without end. -/
theorem forever_of_keeps (hstep : ∀ s, I s → ∃ s', step s s' ∧ I s') (hi : I s) :
    Forever step s := by
  choose! next hnext hkeep using hstep
  have hall (i : ℕ) : I (next^[i] s) := by
    induction i with
    | zero => exact hi
    | succ i ih =>
      rw [Function.iterate_succ_apply']
      exact hkeep _ ih
  refine ⟨fun i => next^[i] s, rfl, fun i => ?_⟩
  dsimp only
  rw [Function.iterate_succ_apply']
  exact hnext _ (hall i)

end Transition
