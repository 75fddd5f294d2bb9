import Mathlib.Data.Set.Card

/-!
# Owners of marked slots

A table of `n` slots marks some of them, and each owner holds one slot. `Held` says that
the owners hold distinct marked slots, `Exact` that every marked slot has an owner. Taking
an unmarked slot and giving one back keep both, and under `Exact` the number of marked
slots is the number of owners.
-/

namespace Slots

variable {R : Type*}

/-- The owners hold distinct slots below `n`, all marked. -/
structure Held (n : ℕ) (taken : ℕ → Bool) (owners : Set R) (slot : R → ℕ) : Prop where
  lt : ∀ {r}, r ∈ owners → slot r < n
  marked : ∀ {r}, r ∈ owners → taken (slot r) = true
  inj : Set.InjOn slot owners

/-- The marked slots are the slots of the owners. -/
structure Exact (n : ℕ) (taken : ℕ → Bool) (owners : Set R) (slot : R → ℕ) : Prop
    extends Held n taken owners slot where
  owned : ∀ {i}, i < n → taken i = true → ∃ r ∈ owners, slot r = i

variable {n : ℕ} {taken taken' : ℕ → Bool} {owners : Set R} {slot slot' : R → ℕ} {r : R} {i : ℕ}

theorem Held.empty : Held n taken (∅ : Set R) slot :=
  ⟨nofun, nofun, Set.injOn_empty slot⟩

/-- With no slot marked there are no owners to account for. -/
theorem Exact.empty (h : ∀ i < n, taken i = false) : Exact n taken (∅ : Set R) slot :=
  ⟨.empty, fun hi ht => by simp [h _ hi] at ht⟩

/-! ## Taking a slot -/

/-- A new owner takes an unmarked slot. -/
theorem Held.insert (h : Held n taken owners slot) (hi : i < n) (hfree : taken i = false)
    (hset : taken' i = true) (hkeep : ∀ j, j ≠ i → taken' j = taken j) (hr : slot' r = i)
    (hold : ∀ r' ∈ owners, slot' r' = slot r') : Held n taken' (insert r owners) slot' := by
  -- no old owner holds the unmarked slot
  have hne : ∀ r' ∈ owners, slot r' ≠ i := by
    intro r' hr' heq
    have hm := h.marked hr'
    simp [heq, hfree] at hm
  refine ⟨?_, ?_, ?_⟩
  · rintro r' (rfl | hr')
    · exact hr ▸ hi
    · exact hold r' hr' ▸ h.lt hr'
  · rintro r' (rfl | hr')
    · exact hr ▸ hset
    · rw [hold r' hr', hkeep _ (hne r' hr')]
      exact h.marked hr'
  · rintro a (rfl | ha) b (rfl | hb) heq
    · rfl
    · exact (hne b hb (by rw [← hold b hb, ← heq, hr])).elim
    · exact (hne a ha (by rw [← hold a ha, heq, hr])).elim
    · exact h.inj ha hb (by rwa [← hold a ha, ← hold b hb])

/-- A free slot goes to a new owner. -/
theorem Exact.insert (h : Exact n taken owners slot) (hi : i < n) (hfree : taken i = false)
    (hset : taken' i = true) (hkeep : ∀ j, j ≠ i → taken' j = taken j) (hr : slot' r = i)
    (hold : ∀ r' ∈ owners, slot' r' = slot r') : Exact n taken' (insert r owners) slot' := by
  refine ⟨h.toHeld.insert hi hfree hset hkeep hr hold, fun {j} hj ht => ?_⟩
  rcases eq_or_ne j i with rfl | hne
  · exact ⟨r, Set.mem_insert r owners, hr⟩
  · obtain ⟨r', hr', rfl⟩ := h.owned hj (by rwa [hkeep j hne] at ht)
    exact ⟨r', Set.mem_insert_of_mem r hr', hold r' hr'⟩

/-! ## Giving a slot back -/

/-- An owner leaves and its slot is cleared. -/
theorem Held.remove (h : Held n taken owners slot) (hr : r ∈ owners)
    (hkeep : ∀ j, j ≠ slot r → taken' j = taken j) : Held n taken' (owners \ {r}) slot := by
  refine ⟨fun hr' => h.lt hr'.1, fun {r'} hr' => ?_, h.inj.mono Set.sdiff_subset⟩
  have hne : slot r' ≠ slot r := fun heq => hr'.2 (h.inj hr'.1 hr heq)
  rw [hkeep _ hne]
  exact h.marked hr'.1

/-- An owner leaves, and its slot is cleared. -/
theorem Exact.remove (h : Exact n taken owners slot) (hr : r ∈ owners)
    (hclear : taken' (slot r) = false) (hkeep : ∀ j, j ≠ slot r → taken' j = taken j) :
    Exact n taken' (owners \ {r}) slot := by
  refine ⟨h.toHeld.remove hr hkeep, fun {i} hi ht => ?_⟩
  have hne : i ≠ slot r := by
    rintro rfl
    simp [hclear] at ht
  obtain ⟨r', hr', rfl⟩ := h.owned hi (by rwa [hkeep i hne] at ht)
  exact ⟨r', ⟨hr', fun heq => hne (heq ▸ rfl)⟩, rfl⟩

/-! ## Reading the table -/

theorem Held.congr_slot (h : Held n taken owners slot) (hs : ∀ r ∈ owners, slot' r = slot r) :
    Held n taken owners slot' :=
  ⟨fun {r} hr => hs r hr ▸ h.lt hr, fun {r} hr => hs r hr ▸ h.marked hr,
    fun a ha b hb heq => h.inj ha hb (by rwa [← hs a ha, ← hs b hb])⟩

theorem Exact.congr_slot (h : Exact n taken owners slot) (hs : ∀ r ∈ owners, slot' r = slot r) :
    Exact n taken owners slot' := by
  refine ⟨h.toHeld.congr_slot hs, fun {i} hi ht => ?_⟩
  obtain ⟨r, hr, rfl⟩ := h.owned hi ht
  exact ⟨r, hr, hs r hr⟩

/-- Marking more slots takes none from an owner. -/
theorem Held.mono (h : Held n taken owners slot) (hm : ∀ i, taken i = true → taken' i = true) :
    Held n taken' owners slot :=
  ⟨h.lt, fun hr => hm _ (h.marked hr), h.inj⟩

/-- There are finitely many owners, since each has a slot below the bound. -/
theorem Held.finite (h : Held n taken owners slot) : owners.Finite :=
  Set.Finite.of_injOn (fun _ hr => Finset.mem_coe.2 (Finset.mem_range.2 (h.lt hr))) h.inj
    (Finset.range n).finite_toSet

/-- A slot is marked iff exactly one owner holds it. -/
theorem Exact.marked_iff (h : Exact n taken owners slot) (hi : i < n) :
    taken i = true ↔ ∃! r, r ∈ owners ∧ slot r = i := by
  constructor
  · intro ht
    obtain ⟨r, hr, hri⟩ := h.owned hi ht
    exact ⟨r, ⟨hr, hri⟩, fun r' hr' => h.inj hr'.1 hr (hr'.2.trans hri.symm)⟩
  · rintro ⟨r, ⟨hr, rfl⟩, -⟩
    exact h.marked hr

/-- As many slots are marked as there are owners. -/
theorem Exact.card_marked (h : Exact n taken owners slot) :
    ((Finset.range n).filter fun i => taken i = true).card = owners.ncard := by
  have himage : slot '' owners = ((Finset.range n).filter fun i => taken i = true : Finset ℕ) := by
    ext i
    simp only [Set.mem_image, Finset.coe_filter, Finset.mem_range, Set.mem_ofPred_eq]
    constructor
    · rintro ⟨r, hr, rfl⟩
      exact ⟨h.lt hr, h.marked hr⟩
    · rintro ⟨hi, ht⟩
      exact h.owned hi ht
  rw [← Set.ncard_coe_finset, ← himage, h.inj.ncard_image]

end Slots
