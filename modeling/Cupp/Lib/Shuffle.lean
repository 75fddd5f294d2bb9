import Mathlib.Data.List.Basic
import Mathlib.Data.List.Perm.Basic
import Mathlib.Data.Set.Basic

/-!
# Steps of several threads in one sequence

A list of pairs `(t, a)` tells in which order threads have taken steps. `ofThread t` is what
`t` sees of it. Two sequences in which each thread sees the same are permutations of each other
(`perm_of_ofThread`), so one is the other with steps of different threads in another order.

A sequence respects real time if what had been done at some `Moment` comes before all that threads
did which had not begun then (`Moment.Precedes`). `Moment.Kept` is what is known of this while the
sequence still grows in the middle, before some steps `late` that can wait.
-/

namespace Shuffle

variable {T A : Type*} [DecidableEq T] {t t' : T} {a : A} {es es' late : List (T × A)}

/-- The steps of `t`, in order. -/
def ofThread (t : T) (es : List (T × A)) : List A :=
  (es.filter fun x => x.1 = t).map Prod.snd

@[simp] theorem ofThread_nil : ofThread t ([] : List (T × A)) = [] :=
  rfl

@[simp] theorem ofThread_append : ofThread t (es ++ es') = ofThread t es ++ ofThread t es' := by
  simp [ofThread]

theorem ofThread_cons_self : ofThread t ((t, a) :: es) = a :: ofThread t es := by
  simp [ofThread]

theorem ofThread_cons_of_ne (h : t' ≠ t) : ofThread t ((t', a) :: es) = ofThread t es := by
  simp [ofThread, h]

theorem ofThread_eq_nil (h : ∀ x ∈ es, x.1 ≠ t) : ofThread t es = [] := by
  unfold ofThread
  rw [List.filter_eq_nil_iff.2 fun x hx => by simpa using h x hx, List.map_nil]

theorem ofThread_map_self (as : List A) : ofThread t (as.map fun a => (t, a)) = as := by
  induction as with
  | nil => rfl
  | cons a as ih => rw [List.map_cons, ofThread_cons_self, ih]

theorem ofThread_map_of_ne (h : t' ≠ t) (as : List A) :
    ofThread t (as.map fun a => (t', a)) = [] :=
  ofThread_eq_nil fun x hx => by
    obtain ⟨a, -, rfl⟩ := List.mem_map.1 hx
    exact h

/-- A step of a thread that does nothing later may as well come after what others do later. -/
theorem ofThread_insert (h : ∀ x ∈ late, x.1 ≠ t) :
    ofThread t' (es ++ (t, a) :: late) = ofThread t' (es ++ late ++ [(t, a)]) := by
  rcases eq_or_ne t t' with rfl | hne
  · simp [ofThread_cons_self, ofThread_eq_nil h]
  · simp [ofThread_cons_of_ne hne]

theorem count_ofThread [DecidableEq A] : (ofThread t es).count a = es.count (t, a) := by
  induction es with
  | nil => rfl
  | cons x es ih =>
    obtain ⟨t', b⟩ := x
    rcases eq_or_ne t' t with rfl | hne
    · rw [ofThread_cons_self, List.count_cons, List.count_cons, ih]
      simp
    · rw [ofThread_cons_of_ne hne, ih, List.count_cons_of_ne]
      simp [hne]

/-- Two lists in which every thread has the same list are permutations of each other. -/
theorem perm_of_ofThread (h : ∀ t, ofThread t es = ofThread t es') : es.Perm es' := by
  classical
  refine List.perm_iff_count.2 fun ⟨t, a⟩ => ?_
  rw [← count_ofThread, h, count_ofThread]

/-! ## Real time -/

/-- What each thread had done at some time, and the threads that were doing nothing. -/
structure Moment (T A : Type*) where
  done : T → List A
  outside : Set T

namespace Moment

variable {x : Moment T A} {away away' : Set T}

/-- All that had been done comes before all that those outside have done since. -/
def Precedes (x : Moment T A) (es : List (T × A)) : Prop :=
  ∃ before after, es = before ++ after ∧ (∀ t, x.done t <+: ofThread t before) ∧
    ∀ t ∈ x.outside, ofThread t before = x.done t

/-- The sequence `es ++ late` may still get steps before `late`. Then all of `late` is new, or else
those who were outside are all still `away`, which means that their next steps come after `late`. -/
def Kept (x : Moment T A) (away : Set T) (es late : List (T × A)) : Prop :=
  ∃ before after, es ++ late = before ++ after ∧ (∀ t, x.done t <+: ofThread t before) ∧
    (∀ t ∈ x.outside, ofThread t before = x.done t) ∧
    (late <:+ after ∨ es <+: before ∧ late ≠ [] ∧ x.outside ⊆ away)

/-- The sequence as it is now respects the moment. -/
theorem Kept.precedes (h : x.Kept away es late) : x.Precedes (es ++ late) := by
  obtain ⟨before, after, heq, hdone, hout, -⟩ := h
  exact ⟨before, after, heq, hdone, hout⟩

/-- A moment that is now. -/
theorem kept_now (hdone : ∀ t, x.done t <+: ofThread t (es ++ late))
    (hout : ∀ t ∈ x.outside, ofThread t (es ++ late) = x.done t) (haway : x.outside ⊆ away) :
    x.Kept away es late := by
  refine ⟨es ++ late, [], by simp, hdone, hout, ?_⟩
  by_cases hlate : late = []
  · exact Or.inl (by simp [hlate])
  · exact Or.inr ⟨List.prefix_append es late, hlate, haway⟩

theorem Kept.mono (h : x.Kept away es late) (haway : late ≠ [] → away ⊆ away') :
    x.Kept away' es late := by
  obtain ⟨before, after, heq, hdone, hout, hsplit⟩ := h
  refine ⟨before, after, heq, hdone, hout, hsplit.imp_right ?_⟩
  rintro ⟨hes, hlate, hsub⟩
  exact ⟨hes, hlate, hsub.trans (haway hlate)⟩

/-- A step at the end. -/
theorem Kept.snoc (h : x.Kept away es late) (t : T) (a : A) :
    x.Kept away es (late ++ [(t, a)]) := by
  obtain ⟨before, after, heq, hdone, hout, hsplit⟩ := h
  refine ⟨before, after ++ [(t, a)], by rw [← List.append_assoc, heq, List.append_assoc], hdone,
    hout, ?_⟩
  rcases hsplit with ⟨new, rfl⟩ | ⟨hes, -, hsub⟩
  · exact Or.inl ⟨new, by simp⟩
  · exact Or.inr ⟨hes, by simp, hsub⟩

/-- The steps `late` need not wait any more. -/
theorem Kept.flush (h : x.Kept away es late) : x.Kept away (es ++ late) [] := by
  obtain ⟨before, after, heq, hdone, hout, -⟩ := h
  exact ⟨before, after, by rw [List.append_nil, heq], hdone, hout, Or.inl (List.nil_suffix)⟩

/-- A step before those that can wait, by a thread that is not away. -/
theorem Kept.insert (h : x.Kept away es late) (haway : t ∉ away) (hlate : ∀ y ∈ late, y.1 ≠ t)
    (a : A) : x.Kept away (es ++ [(t, a)]) late := by
  obtain ⟨before, after, heq, hdone, hout, hsplit⟩ := h
  rcases hsplit with ⟨new, rfl⟩ | ⟨⟨old, rfl⟩, hne, hsub⟩
  · have hes : es = before ++ new := by
      rw [← List.append_assoc] at heq
      exact List.append_cancel_right heq
    subst hes
    exact ⟨before, new ++ [(t, a)] ++ late, by simp, hdone, hout, Or.inl (List.suffix_append _ _)⟩
  · -- the step comes before some that had been done, but these are of other threads
    have hsplit : late = old ++ after := by
      rw [List.append_assoc] at heq
      exact List.append_cancel_left heq
    have hold (y : T × A) (hy : y ∈ old) : y.1 ≠ t :=
      hlate y (hsplit ▸ List.mem_append_left after hy)
    have hbefore (t' : T) : ofThread t' (es ++ (t, a) :: old) =
        ofThread t' (es ++ old) ++ ofThread t' [(t, a)] := by
      rw [ofThread_insert hold, ofThread_append]
    refine ⟨es ++ (t, a) :: old, after, by rw [hsplit]; simp, fun t' => ?_, fun t' ht' => ?_,
      Or.inr ⟨⟨old, by simp⟩, hne, hsub⟩⟩
    · rw [hbefore t']
      exact (hdone t').trans (List.prefix_append _ _)
    · have hne' : t ≠ t' := by
        rintro rfl
        exact haway (hsub ht')
      rw [hbefore t', hout t' ht', ofThread_cons_of_ne hne', ofThread_nil, List.append_nil]

end Moment

end Shuffle
