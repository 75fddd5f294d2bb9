import Mathlib.Data.Nat.Bitwise
import Mathlib.Logic.Function.Basic
import Mathlib.Tactic.IntervalCases

/-!
# Bits in byte memory

Bit `i` of a byte memory is bit `i % 8` of byte `i / 8`. `setBit` and `clearBit` are the
read-modify-write of one byte with a shifted mask. `bit_setBit` and `bit_clearBit` say
that they change this bit and no other, and a memory is determined by its bits (`ext_bit`).
-/

namespace Bitmap

/-- The mask `1 << (i % 8)`. -/
def mask (i : ℕ) : UInt8 :=
  1 <<< UInt8.ofNat (i % 8)

/-- Bit `i` of the memory `m`. -/
def bit (m : ℕ → UInt8) (i : ℕ) : Bool :=
  m (i / 8) &&& mask i != 0

/-- `m[i / 8] |= 1 << (i % 8)`. -/
def setBit (m : ℕ → UInt8) (i : ℕ) : ℕ → UInt8 :=
  Function.update m (i / 8) (m (i / 8) ||| mask i)

/-- `m[i / 8] &= ~(1 << (i % 8))`. -/
def clearBit (m : ℕ → UInt8) (i : ℕ) : ℕ → UInt8 :=
  Function.update m (i / 8) (m (i / 8) &&& ~~~mask i)

/-! ## One byte -/

theorem toNat_mask (i : ℕ) : (mask i).toNat = 2 ^ (i % 8) := by
  have h : i % 8 < 8 := Nat.mod_lt i (by decide)
  unfold mask
  interval_cases i % 8 <;> rfl

theorem testBit_mask (i j : ℕ) : (mask i).toNat.testBit (j % 8) = decide (j % 8 = i % 8) := by
  rw [toNat_mask, Nat.testBit_two_pow, decide_eq_decide]
  exact eq_comm

/-- The masked test reads one bit of the byte's value. -/
theorem bit_eq_testBit (m : ℕ → UInt8) (i : ℕ) : bit m i = (m (i / 8)).toNat.testBit (i % 8) := by
  rw [Bool.eq_iff_iff, bit, bne_iff_ne, ne_eq, ← UInt8.toNat_inj, UInt8.toNat_and, toNat_mask,
    Nat.and_two_pow]
  cases (m (i / 8)).toNat.testBit (i % 8) <;> simp

theorem testBit_not (b : UInt8) {j : ℕ} (hj : j < 8) :
    (~~~b).toNat.testBit j = !b.toNat.testBit j := by
  change (~~~b).toBitVec.getLsbD j = !b.toBitVec.getLsbD j
  simp [hj]

/-! ## The whole memory -/

/-- Setting a bit changes no other bit. -/
theorem bit_setBit (m : ℕ → UInt8) (i j : ℕ) :
    bit (setBit m i) j = (decide (j = i) || bit m j) := by
  rw [bit_eq_testBit, bit_eq_testBit, setBit]
  by_cases hb : j / 8 = i / 8
  · have hij : j = i ↔ j % 8 = i % 8 := by omega
    rw [hb, Function.update_self, UInt8.toNat_or, Nat.testBit_or, testBit_mask, Bool.or_comm,
      decide_eq_decide.2 hij]
  · have hij : j ≠ i := by omega
    simp [Function.update_of_ne hb, hij]

/-- Clearing a bit changes no other bit. -/
theorem bit_clearBit (m : ℕ → UInt8) (i j : ℕ) :
    bit (clearBit m i) j = (decide (j ≠ i) && bit m j) := by
  rw [bit_eq_testBit, bit_eq_testBit, clearBit]
  by_cases hb : j / 8 = i / 8
  · have hij : j = i ↔ j % 8 = i % 8 := by omega
    rw [hb, Function.update_self, UInt8.toNat_and, Nat.testBit_and,
      testBit_not _ (Nat.mod_lt j (by decide)), testBit_mask, Bool.and_comm]
    simp [hij]
  · have hij : j ≠ i := by omega
    simp [Function.update_of_ne hb, hij]

@[simp] theorem bit_setBit_self (m : ℕ → UInt8) (i : ℕ) : bit (setBit m i) i = true := by
  simp [bit_setBit]

@[simp] theorem bit_clearBit_self (m : ℕ → UInt8) (i : ℕ) : bit (clearBit m i) i = false := by
  simp [bit_clearBit]

theorem bit_setBit_of_ne (m : ℕ → UInt8) {i j : ℕ} (h : j ≠ i) :
    bit (setBit m i) j = bit m j := by
  simp [bit_setBit, h]

theorem bit_clearBit_of_ne (m : ℕ → UInt8) {i j : ℕ} (h : j ≠ i) :
    bit (clearBit m i) j = bit m j := by
  simp [bit_clearBit, h]

/-- A memory is its bits. -/
theorem ext_bit {m m' : ℕ → UInt8} (h : ∀ i, bit m i = bit m' i) : m = m' := by
  funext k
  rw [← UInt8.toNat_inj]
  refine Nat.eq_of_testBit_eq fun j => ?_
  rcases Nat.lt_or_ge j 8 with hj | hj
  · have hbit := h (8 * k + j)
    have hk : (8 * k + j) / 8 = k := by omega
    have hj' : (8 * k + j) % 8 = j := by omega
    rwa [bit_eq_testBit, bit_eq_testBit, hk, hj'] at hbit
  · have hpow : 2 ^ 8 ≤ 2 ^ j := Nat.pow_le_pow_right (by omega) hj
    rw [Nat.testBit_lt_two_pow ((m k).toNat_lt.trans_le hpow),
      Nat.testBit_lt_two_pow ((m' k).toNat_lt.trans_le hpow)]

/-- Zeroed memory has no bit set. -/
theorem bit_of_eq_zero {m : ℕ → UInt8} {i : ℕ} (h : m (i / 8) = 0) : bit m i = false := by
  simp [bit, h]

end Bitmap
