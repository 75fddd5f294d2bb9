import Mathlib.Data.Multiset.Range

/-!
# An account of memory

Blocks are numbered in the order in which they are allocated. `freed` are the calls of `free`, and
`lost` the blocks to which the last pointer has been stored over, the last one first. `Owns bs` says
that the blocks `bs` are in use, and that all others have been freed or lost, each once. An
operation takes such a statement to another one, in which the blocks it has allocated are added and
those it has freed or lost are gone.
-/

/-- How many blocks there are, and what has become of them. -/
structure Ledger where
  next : ℕ
  freed : List ℕ
  lost : List ℕ

namespace Ledger

variable {m m' : Ledger} {b : ℕ} {bs bs' : Multiset ℕ}

/-- No block has been allocated. -/
def empty : Ledger :=
  ⟨0, [], []⟩

/-- Allocate the block `m.next`. -/
def alloc (m : Ledger) : Ledger :=
  { m with next := m.next + 1 }

/-- Free one block. Whether that was in use is not checked. -/
def free (m : Ledger) (b : ℕ) : Ledger :=
  { m with freed := b :: m.freed }

/-- Free blocks one after the other. -/
def freeAll (m : Ledger) (bs : List ℕ) : Ledger :=
  bs.foldl free m

@[simp] theorem next_alloc (m : Ledger) : m.alloc.next = m.next + 1 :=
  rfl

@[simp] theorem freed_alloc (m : Ledger) : m.alloc.freed = m.freed :=
  rfl

@[simp] theorem lost_alloc (m : Ledger) : m.alloc.lost = m.lost :=
  rfl

@[simp] theorem next_free (m : Ledger) (b : ℕ) : (m.free b).next = m.next :=
  rfl

@[simp] theorem freed_free (m : Ledger) (b : ℕ) : (m.free b).freed = b :: m.freed :=
  rfl

@[simp] theorem lost_free (m : Ledger) (b : ℕ) : (m.free b).lost = m.lost :=
  rfl

theorem freeAll_append (m : Ledger) (bs bs' : List ℕ) :
    m.freeAll (bs ++ bs') = (m.freeAll bs).freeAll bs' :=
  List.foldl_append

@[simp] theorem lost_freeAll (m : Ledger) (bs : List ℕ) : (m.freeAll bs).lost = m.lost := by
  unfold freeAll
  induction bs generalizing m with
  | nil => rfl
  | cons b bs ih => exact ih (m.free b)

/-- `free` does nothing with a null pointer. -/
def freeOpt (m : Ledger) (b : Option ℕ) : Ledger :=
  m.freeAll b.toList

@[simp] theorem lost_freeOpt (m : Ledger) (b : Option ℕ) : (m.freeOpt b).lost = m.lost :=
  m.lost_freeAll b.toList

/-- A pointer is stored over. -/
def lose (m : Ledger) (b : Option ℕ) : Ledger :=
  { m with lost := b.toList ++ m.lost }

@[simp] theorem freed_lose (m : Ledger) (b : Option ℕ) : (m.lose b).freed = m.freed :=
  rfl

@[simp] theorem lost_lose (m : Ledger) (b : Option ℕ) : (m.lose b).lost = b.toList ++ m.lost :=
  rfl

/-! ## Blocks in use -/

/-- The blocks that have not been freed or lost are `bs`, and no block has been freed or lost
twice. -/
def Owns (m : Ledger) (bs : Multiset ℕ) : Prop :=
  (m.freed : Multiset ℕ) + (m.lost + bs) = Multiset.range m.next

theorem owns_empty : empty.Owns 0 :=
  rfl

/-- The new block is in use. -/
theorem Owns.alloc (h : m.Owns bs) : m.alloc.Owns (m.next ::ₘ bs) := by
  unfold Owns at *
  rw [freed_alloc, lost_alloc, next_alloc, Multiset.add_cons, Multiset.add_cons, h,
    Multiset.range_succ]

/-- A block in use may be freed. -/
theorem Owns.free (h : m.Owns (b ::ₘ bs)) : (m.free b).Owns bs := by
  unfold Owns at *
  rw [freed_free, lost_free, next_free, ← Multiset.cons_coe, Multiset.cons_add,
    ← Multiset.add_cons, ← Multiset.add_cons, h]

/-- Freeing blocks in use leaves the rest in use. -/
theorem Owns.freeAll {l : List ℕ} (h : m.Owns (l + bs)) : (m.freeAll l).Owns bs := by
  induction l generalizing m with
  | nil => simpa [Ledger.freeAll] using h
  | cons b l ih =>
    refine ih (m := m.free b) (Owns.free ?_)
    rwa [← Multiset.cons_coe, Multiset.cons_add] at h

theorem Owns.freeOpt {b : Option ℕ} (h : m.Owns (b.toList + bs)) : (m.freeOpt b).Owns bs :=
  Owns.freeAll h

/-- A block in use whose pointer is stored over is lost. -/
theorem Owns.lose {b : Option ℕ} (h : m.Owns (b.toList + bs)) : (m.lose b).Owns bs := by
  unfold Owns at *
  rw [freed_lose, lost_lose, ← Multiset.coe_add, Multiset.add_comm (b.toList : Multiset ℕ),
    Multiset.add_assoc]
  exact h

theorem Owns.congr (h : m.Owns bs) (hbs : bs = bs') : m.Owns bs' :=
  hbs ▸ h

/-- No block has been freed twice, and none that is lost. -/
theorem Owns.nodup (h : m.Owns bs) : m.freed.Nodup := by
  have hrange := Multiset.nodup_range m.next
  rw [← h] at hrange
  exact Multiset.coe_nodup.1 (Multiset.nodup_add.1 hrange).1

/-! ## Blocks freed twice -/

theorem suffix_free (m : Ledger) (b : ℕ) : m.freed <:+ (m.free b).freed :=
  List.suffix_cons b m.freed

/-- Nothing is ever taken back from what was freed. -/
theorem suffix_freeAll (m : Ledger) (bs : List ℕ) : m.freed <:+ (m.freeAll bs).freed := by
  unfold freeAll
  induction bs generalizing m with
  | nil => exact List.suffix_rfl
  | cons b bs ih => exact (m.suffix_free b).trans (ih (m.free b))

/-- To free blocks of which one has been freed before frees that one twice. -/
theorem not_nodup_of_mem {bs : List ℕ} (hb : b ∈ bs) (hfreed : b ∈ m.freed) :
    ¬(m.freeAll bs).freed.Nodup := by
  obtain ⟨pre, post, rfl⟩ := List.append_of_mem hb
  rw [freeAll_append]
  intro hnodup
  have hcons := (((m.freeAll pre).free b).suffix_freeAll post).sublist.nodup hnodup
  exact (List.nodup_cons.1 hcons).1 ((m.suffix_freeAll pre).subset hfreed)

end Ledger
