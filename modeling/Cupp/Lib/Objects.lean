import Mathlib.Data.List.Basic

/-!
# Objects with answers

A call of an object has an answer and leaves the object in another state. `run` makes a
sequence of calls. If two objects answer each call alike in related states, and are in related
states after it, they answer every sequence alike (`run_refines`). Where they take calls of
different types, it is enough that a call and what it is for the other object are answered alike
(`run_simulates`).
-/

namespace Object

variable {S T C D A : Type*}

/-- The answers to the calls, and the state after them. -/
def run (call : S → C → A × S) : S → List C → List A × S
  | s, [] => ([], s)
  | s, c :: cs =>
    let first := call s c
    let rest := run call first.2 cs
    (first.1 :: rest.1, rest.2)

@[simp] theorem run_nil (call : S → C → A × S) (s : S) : run call s [] = ([], s) :=
  rfl

@[simp] theorem run_cons (call : S → C → A × S) (s : S) (c : C) (cs : List C) :
    run call s (c :: cs) =
      ((call s c).1 :: (run call (call s c).2 cs).1, (run call (call s c).2 cs).2) :=
  rfl

/-- Objects that answer each call alike in related states do so for every sequence. -/
theorem run_refines {f : S → C → A × S} {g : T → C → A × T} {rel : S → T → Prop}
    (hcall : ∀ s t c, rel s t → (f s c).1 = (g t c).1 ∧ rel (f s c).2 (g t c).2) {s : S} {t : T}
    (h : rel s t) (cs : List C) :
    (run f s cs).1 = (run g t cs).1 ∧ rel (run f s cs).2 (run g t cs).2 := by
  induction cs generalizing s t with
  | nil => exact ⟨rfl, h⟩
  | cons c cs ih =>
    obtain ⟨hanswer, hnext⟩ := hcall s t c h
    obtain ⟨hanswers, hlast⟩ := ih hnext
    exact ⟨congrArg₂ List.cons hanswer hanswers, hlast⟩

/-- The object `g` stands for `f`, if each call that `f` may be made is answered like the request
that it is for `g`. -/
theorem run_simulates {f : S → C → A × S} {g : T → D → A × T} {request : C → D} {may : C → Prop}
    {rel : S → T → Prop}
    (hcall : ∀ s t c, rel s t → may c →
      (f s c).1 = (g t (request c)).1 ∧ rel (f s c).2 (g t (request c)).2)
    {s : S} {t : T} (h : rel s t) {cs : List C} (hmay : ∀ c ∈ cs, may c) :
    (run f s cs).1 = (run g t (cs.map request)).1 ∧
      rel (run f s cs).2 (run g t (cs.map request)).2 := by
  induction cs generalizing s t with
  | nil => exact ⟨rfl, h⟩
  | cons c cs ih =>
    obtain ⟨hc, hcs⟩ := List.forall_mem_cons.1 hmay
    obtain ⟨hanswer, hnext⟩ := hcall s t c h hc
    obtain ⟨hanswers, hlast⟩ := ih hnext hcs
    exact ⟨congrArg₂ List.cons hanswer hanswers, hlast⟩

end Object
