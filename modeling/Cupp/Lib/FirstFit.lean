import Mathlib.Data.Finset.Card

/-!
# First fit

Resources are handed out from a range, which lists them in order : `acquire` takes the first one
that is not taken, `release` gives one back, whether it is taken or not. An answer is missing
just if the whole range is taken (`acquire_eq_none_iff`), and if the range is listed in an
order it is the first in that order of those not taken (`acquire_eq_some_iff`).
-/

namespace FirstFit

variable {α : Type*} [DecidableEq α]

/-- A client asks for an element or gives one back. -/
inductive Call (α : Type*)
  | acquire
  | release (a : α)
  deriving DecidableEq

/-- Take the first resource of the range that is not taken. -/
def acquire (range : List α) (taken : Finset α) : Option α × Finset α :=
  match range.find? (· ∉ taken) with
  | some a => (some a, insert a taken)
  | none => (none, taken)

/-- A call with its answer. A release has none. -/
def call (range : List α) (taken : Finset α) : Call α → Option α × Finset α
  | .acquire => acquire range taken
  | .release a => (none, taken.erase a)

variable {range : List α} {taken : Finset α} {a : α}

theorem acquire_of_some (h : range.find? (· ∉ taken) = some a) :
    acquire range taken = (some a, insert a taken) := by
  rw [acquire, h]

theorem acquire_of_none (h : range.find? (· ∉ taken) = none) :
    acquire range taken = (none, taken) := by
  rw [acquire, h]

/-- There is no answer just if the whole range is taken. -/
theorem acquire_eq_none_iff : (acquire range taken).1 = none ↔ ∀ a ∈ range, a ∈ taken := by
  cases h : range.find? (· ∉ taken) with
  | none =>
    rw [acquire_of_none h]
    simpa using h
  | some a =>
    have hmem := List.mem_of_find?_eq_some h
    have hfree : a ∉ taken := by simpa using List.find?_some h
    rw [acquire_of_some h]
    exact iff_of_false (Option.some_ne_none a) fun hall => hfree (hall a hmem)

/-- In a range listed in the order `r`, the answer is the first of the resources that are not
taken. -/
theorem acquire_eq_some_iff {r : α → α → Prop} [Std.Asymm r] (hr : range.Pairwise r) :
    (acquire range taken).1 = some a ↔
      a ∈ range ∧ a ∉ taken ∧ ∀ b ∈ range, b ∉ taken → b ≠ a → r a b := by
  have hfirst {c : α} (hc : range.find? (· ∉ taken) = some c) :
      c ∈ range ∧ c ∉ taken ∧ ∀ b ∈ range, b ∉ taken → b ≠ c → r c b := by
    refine ⟨List.mem_of_find?_eq_some hc, by simpa using List.find?_some hc,
      fun b hb hfree hne => ?_⟩
    obtain ⟨-, before, after, rfl, hbefore⟩ := List.find?_eq_some_iff_append.1 hc
    rcases List.mem_append.1 hb with hb | hb
    · exact absurd (by simpa using hbefore b hb) hfree
    · exact List.rel_of_pairwise_cons (List.pairwise_append.1 hr).2.1
        ((List.mem_cons.1 hb).resolve_left hne)
  cases h : range.find? (· ∉ taken) with
  | none =>
    rw [acquire_of_none h]
    refine iff_of_false (by simp) fun ⟨hmem, hfree, _⟩ => hfree ?_
    simpa using List.find?_eq_none.1 h a hmem
  | some c =>
    obtain ⟨hc, hcfree, hleast⟩ := hfirst h
    rw [acquire_of_some h]
    constructor
    · rintro ⟨rfl⟩
      exact ⟨hc, hcfree, hleast⟩
    · rintro ⟨hmem, hfree, hle⟩
      by_contra hne
      have hne' : a ≠ c := fun heq => hne (heq ▸ rfl)
      exact Std.Asymm.asymm _ _ (hleast a hmem hfree hne') (hle c hc hcfree hne'.symm)

end FirstFit
