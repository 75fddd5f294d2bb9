import Mathlib.Data.List.Basic

/-!
# Machines that emit

An `Emitter` reads events one by one and emits at most one value for each. `final` is the
state after some events and `emitted` what has been emitted by then. With events that carry
labels, `labelled` keeps with every value the label of the event it was emitted for.
A stretch of events is `Silent` between two states if it leads from one to the other and
nothing is emitted. `foldl_eq` is the refinement lemma : a program that follows the machine
in one part of its state, and only puts what the machine emits into the rest of it, ends
where the machine ends, with all that was emitted put in.
-/

/-- A machine with states `S` that reads `E` and emits `O`. -/
structure Emitter (S E O : Type*) where
  next : S → E → S
  emit : S → E → Option O

namespace Emitter

variable {S E O L T A : Type*} (M : Emitter S E O)

/-- The state after some events. -/
def final (s : S) (es : List E) : S :=
  es.foldl M.next s

/-- What is emitted for some events. -/
def emitted : S → List E → List O
  | _, [] => []
  | s, e :: es => (M.emit s e).toList ++ emitted (M.next s e) es

/-- What is emitted, with the labels of the events. -/
def labelled : S → List (L × E) → List (L × O)
  | _, [] => []
  | s, (l, e) :: es => (M.emit s e).toList.map (fun o => (l, o)) ++ labelled (M.next s e) es

variable {M} {s s' s'' : S} {es es' : List E}

@[simp] theorem final_nil : M.final s [] = s :=
  rfl

@[simp] theorem final_cons (e : E) : M.final s (e :: es) = M.final (M.next s e) es :=
  rfl

@[simp] theorem final_append : M.final s (es ++ es') = M.final (M.final s es) es' :=
  List.foldl_append

@[simp] theorem emitted_nil : M.emitted s [] = [] :=
  rfl

@[simp] theorem emitted_cons (e : E) :
    M.emitted s (e :: es) = (M.emit s e).toList ++ M.emitted (M.next s e) es :=
  rfl

@[simp] theorem emitted_append :
    M.emitted s (es ++ es') = M.emitted s es ++ M.emitted (M.final s es) es' := by
  induction es generalizing s with
  | nil => rfl
  | cons e es ih => simp [ih]

/-- As long as the states satisfy `I`, what is emitted satisfies `P`. -/
theorem forall_emitted {I : S → Prop} {P : O → Prop} (hnext : ∀ s e, I s → I (M.next s e))
    (hemit : ∀ s e o, I s → M.emit s e = some o → P o) (hs : I s) : ∀ o ∈ M.emitted s es, P o := by
  induction es generalizing s with
  | nil => simp
  | cons e es ih =>
    intro o ho
    rcases List.mem_append.1 ho with ho | ho
    · exact hemit s e o hs (Option.mem_toList.1 ho)
    · exact ih (hnext s e hs) o ho

@[simp] theorem labelled_nil : M.labelled s ([] : List (L × E)) = [] :=
  rfl

@[simp] theorem labelled_cons (l : L) (e : E) (les : List (L × E)) : M.labelled s ((l, e) :: les) =
    (M.emit s e).toList.map (fun o => (l, o)) ++ M.labelled (M.next s e) les :=
  rfl

@[simp] theorem labelled_append (les les' : List (L × E)) : M.labelled s (les ++ les') =
    M.labelled s les ++ M.labelled (M.final s (les.map Prod.snd)) les' := by
  induction les generalizing s with
  | nil => rfl
  | cons e les ih =>
    obtain ⟨l, e⟩ := e
    simp [ih]

/-- Without the labels, it is what is emitted. -/
theorem map_snd_labelled (les : List (L × E)) :
    (M.labelled s les).map Prod.snd = M.emitted s (les.map Prod.snd) := by
  induction les generalizing s with
  | nil => rfl
  | cons e les ih =>
    obtain ⟨l, e⟩ := e
    cases he : M.emit s e <;> simp [he, ih]

variable (M) in
/-- The events lead from `s` to `s'`, and nothing is emitted. -/
structure Silent (s : S) (es : List E) (s' : S) : Prop where
  final_eq : M.final s es = s'
  emitted_eq : M.emitted s es = []

instance [DecidableEq S] [DecidableEq O] : Decidable (M.Silent s es s') :=
  decidable_of_iff (M.final s es = s' ∧ M.emitted s es = [])
    ⟨fun h => ⟨h.1, h.2⟩, fun h => ⟨h.final_eq, h.emitted_eq⟩⟩

/-- Two silent stretches make one. -/
theorem Silent.append (h : M.Silent s es s') (h' : M.Silent s' es' s'') :
    M.Silent s (es ++ es') s'' := by
  refine ⟨?_, ?_⟩
  · rw [final_append, h.final_eq, h'.final_eq]
  · rw [emitted_append, h.emitted_eq, h.final_eq, h'.emitted_eq, List.append_nil]

theorem Silent.labelled_eq {les : List (L × E)} (h : M.Silent s (les.map Prod.snd) s') :
    M.labelled s les = [] := by
  rw [← List.map_eq_nil_iff (f := Prod.snd), map_snd_labelled, h.emitted_eq]

/-- A program that follows the machine and puts in what it emits. -/
theorem foldl_eq {step : T → E → T} {state : T → S} {acc : T → A} {put : A → O → A}
    (hstate : ∀ t e, state (step t e) = M.next (state t) e)
    (hacc : ∀ t e, acc (step t e) = (M.emit (state t) e).toList.foldl put (acc t)) (t : T)
    (es : List E) : state (es.foldl step t) = M.final (state t) es ∧
      acc (es.foldl step t) = (M.emitted (state t) es).foldl put (acc t) := by
  induction es generalizing t with
  | nil => exact ⟨rfl, rfl⟩
  | cons e es ih =>
    obtain ⟨hs, ha⟩ := ih (step t e)
    refine ⟨?_, ?_⟩
    · rw [List.foldl_cons, hs, hstate, final_cons]
    · rw [List.foldl_cons, ha, hstate, hacc, emitted_cons, List.foldl_append]

end Emitter
