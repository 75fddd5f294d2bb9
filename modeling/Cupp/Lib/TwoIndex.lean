import Mathlib.Logic.Function.Basic

/-!
# Records filed under two keys

Records `R` are filed in one index by the key `keyA` and in another by `keyB`. `Filed`
says that an entry of either index is filed under the record's own key, and that a record
found by `a` is found by `b` too. It survives every insertion, re-keying and removal,
whatever the keys. `Paired` adds that a record found by `b` is found by `a`. It survives
an operation that does not take the `a`-key of another record.
-/

set_option linter.unusedSectionVars false

namespace TwoIndex

variable {A B R : Type*}

/-- Every entry is filed under its record's own keys, and the `a`-index names only
records of the `b`-index. -/
structure Filed (byA : A → Option R) (byB : B → Option R) (keyA : R → A) (keyB : R → B) :
    Prop where
  keyA_eq : ∀ {a r}, byA a = some r → keyA r = a
  keyB_eq : ∀ {b r}, byB b = some r → keyB r = b
  toB : ∀ {a r}, byA a = some r → byB (keyB r) = some r

/-- The two indices hold the same records. -/
structure Paired (byA : A → Option R) (byB : B → Option R) (keyA : R → A) (keyB : R → B) : Prop
    extends Filed byA byB keyA keyB where
  toA : ∀ {b r}, byB b = some r → byA (keyA r) = some r

/-- The record `r` is in neither index. -/
def Fresh (byA : A → Option R) (byB : B → Option R) (r : R) : Prop :=
  (∀ a, byA a ≠ some r) ∧ ∀ b, byB b ≠ some r

variable {byA : A → Option R} {byB : B → Option R} {keyA : R → A} {keyB : R → B}

theorem Filed.empty : Filed (fun _ => none) (fun _ => none) keyA keyB :=
  ⟨nofun, nofun, nofun⟩

theorem Paired.empty : Paired (fun _ => none) (fun _ => none) keyA keyB :=
  ⟨.empty, nofun⟩

/-- A record is filed under one `b`-key only. -/
theorem Filed.eq_of_byB (h : Filed byA byB keyA keyB) {b b' : B} {r : R} (hb : byB b = some r)
    (hb' : byB b' = some r) : b = b' :=
  (h.keyB_eq hb).symm.trans (h.keyB_eq hb')

/-- If every record's `a`-key has its `b`-key as owner, an `a`-key owned by `b` is free or
the key of the record of `b`. -/
theorem Filed.eq_of_owner (h : Filed byA byB keyA keyB) {owner : A → B}
    (hown : ∀ {b r}, byB b = some r → owner (keyA r) = b) {a : A} {r r' : R}
    (hr : byB (owner a) = some r) (ha : byA a = some r') : r' = r := by
  have hb := h.toB ha
  have hkey : owner a = keyB r' := by
    rw [← hown hb, h.keyA_eq ha]
  exact Option.some.inj (hb.symm.trans (hkey ▸ hr))

variable [DecidableEq A] [DecidableEq B] [DecidableEq R]

/-! ## Removing a record by its `a`-key -/

/-- Removing a record found by its `a`-key from both indices. -/
theorem Filed.remove (h : Filed byA byB keyA keyB) {a : A} {r : R} (ha : byA a = some r) :
    Filed (Function.update byA a none) (Function.update byB (keyB r) none) keyA keyB := by
  refine ⟨fun {a' r'} h' => ?_, fun {b' r'} h' => ?_, fun {a' r'} h' => ?_⟩
  · rcases eq_or_ne a' a with rfl | hne
    · simp at h'
    · exact h.keyA_eq (by simpa [hne] using h')
  · rcases eq_or_ne b' (keyB r) with rfl | hne
    · simp at h'
    · exact h.keyB_eq (by simpa [hne] using h')
  · rcases eq_or_ne a' a with rfl | hne
    · simp at h'
    · have hr' : byA a' = some r' := by simpa [hne] using h'
      -- equal `b`-keys would make `r'` the removed record, filed under `a`
      have hb : keyB r' ≠ keyB r := by
        intro heq
        have hrr : r' = r := Option.some.inj ((h.toB hr').symm.trans (heq ▸ h.toB ha))
        exact hne ((h.keyA_eq hr').symm.trans (hrr ▸ h.keyA_eq ha))
      rw [Function.update_of_ne hb]
      exact h.toB hr'

theorem Paired.remove (h : Paired byA byB keyA keyB) {a : A} {r : R} (ha : byA a = some r) :
    Paired (Function.update byA a none) (Function.update byB (keyB r) none) keyA keyB := by
  refine ⟨h.toFiled.remove ha, fun {b' r'} h' => ?_⟩
  rcases eq_or_ne b' (keyB r) with rfl | hne
  · simp at h'
  · have hr' : byB b' = some r' := by simpa [hne] using h'
    have hkey : keyA r' ≠ a := by
      intro heq
      have hrr : r' = r := Option.some.inj ((h.toA hr').symm.trans (heq ▸ ha))
      exact hne ((h.keyB_eq hr').symm.trans (hrr ▸ rfl))
    rw [Function.update_of_ne hkey]
    exact h.toA hr'

/-! ## Giving a record another `a`-key -/

/-- A record found by its `b`-key moves to another `a`-key. -/
theorem Filed.rekey (h : Filed byA byB keyA keyB) {b : B} {r : R} (hb : byB b = some r) (a' : A) :
    Filed (Function.update (Function.update byA (keyA r) none) a' (some r)) byB
      (Function.update keyA r a') keyB := by
  have hold : ∀ {a r'}, a ≠ a' →
      Function.update (Function.update byA (keyA r) none) a' (some r) a = some r' →
        byA a = some r' ∧ r' ≠ r := by
    intro a r' hne h'
    rw [Function.update_of_ne hne] at h'
    rcases eq_or_ne a (keyA r) with rfl | hne'
    · simp at h'
    · rw [Function.update_of_ne hne'] at h'
      exact ⟨h', fun hrr => hne' (hrr ▸ (h.keyA_eq h').symm)⟩
  refine ⟨fun {a r'} h' => ?_, h.keyB_eq, fun {a r'} h' => ?_⟩
  · rcases eq_or_ne a a' with rfl | hne
    · obtain rfl : r = r' := by simpa using h'
      simp
    · obtain ⟨hr', hrr⟩ := hold hne h'
      rw [Function.update_of_ne hrr]
      exact h.keyA_eq hr'
  · rcases eq_or_ne a a' with rfl | hne
    · obtain rfl : r = r' := by simpa using h'
      rw [h.keyB_eq hb]
      exact hb
    · exact h.toB (hold hne h').1

/-- The new `a`-key is free or the record's own. -/
theorem Paired.rekey (h : Paired byA byB keyA keyB) {b : B} {r : R} (hb : byB b = some r) {a' : A}
    (hfree : ∀ r', byA a' = some r' → r' = r) :
    Paired (Function.update (Function.update byA (keyA r) none) a' (some r)) byB
      (Function.update keyA r a') keyB := by
  refine ⟨h.toFiled.rekey hb a', fun {b' r'} h' => ?_⟩
  rcases eq_or_ne r' r with rfl | hrr
  · simp
  · have hr' := h.toA h'
    have hne : keyA r' ≠ a' := fun heq => hrr (hfree r' (heq ▸ hr'))
    have hne' : keyA r' ≠ keyA r := fun heq =>
      hrr (Option.some.inj (hr'.symm.trans (heq ▸ h.toA hb)))
    rw [Function.update_of_ne hrr, Function.update_of_ne hne, Function.update_of_ne hne']
    exact hr'

/-! ## Filing a new record -/

/-- A new record is filed under an `a`-key, with or without a record there, and a new `b`-key. -/
theorem Filed.insert (h : Filed byA byB keyA keyB) {r : R} (hr : Fresh byA byB r) {b : B}
    (hb : byB b = none) (a : A) :
    Filed (Function.update byA a (some r)) (Function.update byB b (some r))
      (Function.update keyA r a) (Function.update keyB r b) := by
  have hA : ∀ {a' r'}, a' ≠ a → Function.update byA a (some r) a' = some r' →
      byA a' = some r' ∧ r' ≠ r := by
    intro a' r' hne h'
    rw [Function.update_of_ne hne] at h'
    exact ⟨h', fun hrr => hr.1 a' (hrr ▸ h')⟩
  have hB : ∀ {b' r'}, b' ≠ b → Function.update byB b (some r) b' = some r' →
      byB b' = some r' ∧ r' ≠ r := by
    intro b' r' hne h'
    rw [Function.update_of_ne hne] at h'
    exact ⟨h', fun hrr => hr.2 b' (hrr ▸ h')⟩
  refine ⟨fun {a' r'} h' => ?_, fun {b' r'} h' => ?_, fun {a' r'} h' => ?_⟩
  · rcases eq_or_ne a' a with rfl | hne
    · obtain rfl : r = r' := by simpa using h'
      simp
    · obtain ⟨hr', hrr⟩ := hA hne h'
      rw [Function.update_of_ne hrr]
      exact h.keyA_eq hr'
  · rcases eq_or_ne b' b with rfl | hne
    · obtain rfl : r = r' := by simpa using h'
      simp
    · obtain ⟨hr', hrr⟩ := hB hne h'
      rw [Function.update_of_ne hrr]
      exact h.keyB_eq hr'
  · rcases eq_or_ne a' a with rfl | hne
    · obtain rfl : r = r' := by simpa using h'
      simp
    · obtain ⟨hr', hrr⟩ := hA hne h'
      have hne' : keyB r' ≠ b := fun heq => by
        have hbr := h.toB hr'
        rw [heq, hb] at hbr
        simp at hbr
      rw [Function.update_of_ne hrr, Function.update_of_ne hne']
      exact h.toB hr'

/-- The `a`-key of the new record is free. -/
theorem Paired.insert (h : Paired byA byB keyA keyB) {r : R} (hr : Fresh byA byB r) {b : B}
    (hb : byB b = none) {a : A} (ha : byA a = none) :
    Paired (Function.update byA a (some r)) (Function.update byB b (some r))
      (Function.update keyA r a) (Function.update keyB r b) := by
  refine ⟨h.toFiled.insert hr hb a, fun {b' r'} h' => ?_⟩
  rcases eq_or_ne b' b with rfl | hne
  · obtain rfl : r = r' := by simpa using h'
    simp
  · have hr' : byB b' = some r' := by simpa [hne] using h'
    have hrr : r' ≠ r := fun heq => hr.2 b' (heq ▸ hr')
    have hne' : keyA r' ≠ a := fun heq => by
      have har := h.toA hr'
      rw [heq, ha] at har
      simp at har
    rw [Function.update_of_ne hrr, Function.update_of_ne hne']
    exact h.toA hr'

end TwoIndex
