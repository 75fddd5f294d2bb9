import Cupp.Basic
import Cupp.Lib.Bitmap
import Cupp.Lib.Slots

/-!
# The dynamic address pool

`dynamic_pool_t` hands out the IPv4 addresses of `[start, end]`. A bitmap marks the
addresses handed out and `used` counts them. `acquire` gives the first unmarked address
(`acquire_cases`), `release` unmarks an address of the range (`release_cases`), and both
leave the range alone (`SameRange`).

The bitmap is the memory behind `this->bits`, of which `calloc` zeroed the first `bytes`
bytes. For a range of more than `2^32 - 8` addresses the 32-bit size computation wraps and
the scan reads memory the pool does not own. `create_empty` needs a smaller range, and with
it `used` is the number of marked addresses from then on (`Counted`).
-/

namespace Cupp

/-- `private_dynamic_pool_t`, less the endpoints it keeps for the log. -/
structure DynamicPool where
  startH : UInt32
  endH : UInt32
  capacity : UInt32
  /-- Memory from `this->bits` on. -/
  bits : ℕ → UInt8
  /-- Bytes allocated for the bitmap. -/
  bytes : UInt32
  used : UInt32

namespace DynamicPool

/-- The bit of address number `i`. -/
def taken (this : DynamicPool) (i : ℕ) : Bool :=
  Bitmap.bit this.bits i

/-- Address number `i`. -/
def addr (this : DynamicPool) (i : ℕ) : Host :=
  u32ToHost (this.startH + UInt32.ofNat i)

/-- The index `release` computes for an address. -/
def slot (this : DynamicPool) (ip : Host) : ℕ :=
  (hostToU32 ip - this.startH).toNat

/-- Where the scan of `acquire` stops. -/
def firstFree (this : DynamicPool) : Option ℕ :=
  (List.range this.capacity.toNat).find? fun i => !this.taken i

/-- Hand out an address. `hostOk` : `u32_to_host` gets its memory. -/
def acquire (this : DynamicPool) (hostOk : Bool) : Option Host × DynamicPool :=
  if this.used < this.capacity then
    match this.firstFree with
    | some i =>
      (if hostOk then some (this.addr i) else none,
        { this with bits := Bitmap.setBit this.bits i, used := this.used + 1 })
    | none => (none, this)
  else (none, this)

/-- `is_in_pool` : the host is IPv4 and lies between the ends. -/
def isInPool (this : DynamicPool) (ip : Host) : Bool :=
  ip.isInet && (this.startH ≤ hostToU32 ip && hostToU32 ip ≤ this.endH)

/-- Take an address back. -/
def release (this : DynamicPool) (ip : Host) : DynamicPool :=
  if !ip.isInet then this
  else if hostToU32 ip < this.startH || this.endH < hostToU32 ip then this
  else
    let i := this.slot ip
    if this.taken i then
      { this with
        bits := Bitmap.clearBit this.bits i
        used := if 0 < this.used then this.used - 1 else this.used }
    else this

end DynamicPool

/-- `calloc` is the memory block that `calloc` returns with what lies behind it, before
zeroing, or `none`. -/
def dynamicPoolCreate (start end_ : Host) (calloc : Option (ℕ → UInt8)) : Option DynamicPool :=
  if !start.isInet || !end_.isInet then none
  else
    let s := hostToU32 start
    let e := hostToU32 end_
    if e < s then none
    else
      let cap := e - s + 1
      let bytes := (cap + 7) / 8
      match calloc with
      | none => none
      | some mem =>
        some
          { startH := s, endH := e, capacity := cap, bytes := bytes, used := 0
            bits := fun k => if k < bytes.toNat then 0 else mem k }

namespace DynamicPool

/-! ## The range -/

/-- `p` and `q` have the same range. -/
structure SameRange (p q : DynamicPool) : Prop where
  startH : q.startH = p.startH
  endH : q.endH = p.endH
  capacity : q.capacity = p.capacity
  bytes : q.bytes = p.bytes

namespace SameRange

theorem refl (p : DynamicPool) : SameRange p p :=
  ⟨rfl, rfl, rfl, rfl⟩

theorem trans {p q r : DynamicPool} (h : SameRange p q) (h' : SameRange q r) : SameRange p r :=
  ⟨h'.startH.trans h.startH, h'.endH.trans h.endH, h'.capacity.trans h.capacity,
    h'.bytes.trans h.bytes⟩

theorem addr_eq {p q : DynamicPool} (h : SameRange p q) (i : ℕ) : q.addr i = p.addr i := by
  rw [addr, addr, h.startH]

theorem slot_eq {p q : DynamicPool} (h : SameRange p q) (ip : Host) : q.slot ip = p.slot ip := by
  rw [slot, slot, h.startH]

theorem isInPool_eq {p q : DynamicPool} (h : SameRange p q) (ip : Host) :
    q.isInPool ip = p.isInPool ip := by
  rw [isInPool, isInPool, h.startH, h.endH]

end SameRange

/-- Asking for an address does not change the range. -/
theorem sameRange_acquire (p : DynamicPool) (hostOk : Bool) :
    SameRange p (p.acquire hostOk).2 := by
  unfold acquire
  by_cases hu : p.used < p.capacity
  · rw [if_pos hu]
    cases p.firstFree <;> exact ⟨rfl, rfl, rfl, rfl⟩
  · rw [if_neg hu]
    exact .refl p

/-- Giving one back does not change it either. -/
theorem sameRange_release (p : DynamicPool) (ip : Host) : SameRange p (p.release ip) := by
  unfold release
  simp only
  split_ifs <;> exact ⟨rfl, rfl, rfl, rfl⟩

/-- The capacity is that of the range, computed in 32 bits. -/
structure Sized (p : DynamicPool) : Prop where
  le : p.startH ≤ p.endH
  capacity : p.capacity = p.endH - p.startH + 1

theorem Sized.of_sameRange {p q : DynamicPool} (h : p.Sized) (hs : SameRange p q) : q.Sized :=
  ⟨by rw [hs.startH, hs.endH]; exact h.le,
    by rw [hs.capacity, hs.endH, hs.startH]; exact h.capacity⟩

/-- The capacity is 0 if the range is all of IPv4. -/
theorem Sized.toNat_capacity {p : DynamicPool} (h : p.Sized) :
    p.capacity.toNat = (p.endH.toNat - p.startH.toNat + 1) % 2 ^ 32 := by
  rw [h.capacity, UInt32.toNat_add, UInt32.toNat_sub_of_le _ _ h.le]
  rfl

/-- An index the scan can reach is an offset into the range. -/
theorem Sized.add_le {p : DynamicPool} (h : p.Sized) {i : ℕ} (hi : i < p.capacity.toNat) :
    p.startH.toNat + i ≤ p.endH.toNat := by
  have hle : p.startH.toNat ≤ p.endH.toNat := UInt32.le_iff_toNat_le.1 h.le
  have he := p.endH.toNat_lt
  have hc := h.toNat_capacity
  omega

/-- The addresses of a pool of a proper size do not wrap around. -/
theorem Sized.toNat_add {p : DynamicPool} (h : p.Sized) {i : ℕ} (hi : i < p.capacity.toNat) :
    (p.startH + UInt32.ofNat i).toNat = p.startH.toNat + i := by
  have hle := h.add_le hi
  have he := p.endH.toNat_lt
  rw [UInt32.toNat_add, UInt32.toNat_ofNat']
  omega

/-- `release` computes the index the address was handed out at. -/
theorem Sized.slot_addr {p : DynamicPool} (h : p.Sized) {i : ℕ} (hi : i < p.capacity.toNat) :
    p.slot (p.addr i) = i := by
  have ha := h.toNat_add hi
  have hle : p.startH ≤ p.startH + UInt32.ofNat i := by
    rw [UInt32.le_iff_toNat_le, ha]
    omega
  rw [slot, addr, hostToU32_u32ToHost, UInt32.toNat_sub_of_le _ _ hle, ha]
  omega

/-- Every address of the pool is in it. -/
theorem Sized.isInPool_addr {p : DynamicPool} (h : p.Sized) {i : ℕ} (hi : i < p.capacity.toNat) :
    p.isInPool (p.addr i) = true := by
  have ha := h.toNat_add hi
  have hle := h.add_le hi
  simp only [isInPool, addr, isInet_u32ToHost, hostToU32_u32ToHost, Bool.true_and,
    Bool.and_eq_true, decide_eq_true_eq, UInt32.le_iff_toNat_le, ha]
  omega

/-- Every address of the range has a number, if the capacity did not wrap. -/
theorem Sized.exists_addr {p : DynamicPool} (h : p.Sized) (hcap : p.capacity ≠ 0) {ip : Host}
    (hip : p.isInPool ip = true) : ∃ i < p.capacity.toNat, ip = p.addr i := by
  simp only [isInPool, Bool.and_eq_true, decide_eq_true_eq] at hip
  obtain ⟨hf, hs, he⟩ := hip
  have hle : p.startH.toNat ≤ p.endH.toNat := UInt32.le_iff_toNat_le.1 h.le
  have hs' : p.startH.toNat ≤ (hostToU32 ip).toNat := UInt32.le_iff_toNat_le.1 hs
  have he' : (hostToU32 ip).toNat ≤ p.endH.toNat := UInt32.le_iff_toNat_le.1 he
  have hlt := p.endH.toNat_lt
  have hc := h.toNat_capacity
  have hc0 : p.capacity.toNat ≠ 0 := fun h0 => hcap (UInt32.toNat_inj.1 h0)
  refine ⟨(hostToU32 ip).toNat - p.startH.toNat, by omega, ?_⟩
  have hv : p.startH + UInt32.ofNat ((hostToU32 ip).toNat - p.startH.toNat) = hostToU32 ip := by
    rw [← UInt32.toNat_inj, UInt32.toNat_add, UInt32.toNat_ofNat']
    omega
  rw [addr, hv, u32ToHost_hostToU32 hf]

/-! ## What an operation can do -/

/-- The scan of `acquire` stops at the first clear bit below the capacity. -/
theorem firstFree_eq_some {p : DynamicPool} {i : ℕ} : p.firstFree = some i ↔
    i < p.capacity.toNat ∧ p.taken i = false ∧ ∀ j < i, p.taken j = true := by
  rw [firstFree, List.find?_range_eq_some]
  simp only [Bool.not_eq_eq_eq_not, Bool.not_true, List.mem_range, Bool.not_false]
  tauto

/-- Either the pool is exhausted, or `acquire` marks the first free address and answers
with it, or with NULL for want of memory. -/
theorem acquire_cases (p : DynamicPool) (hostOk : Bool) : p.acquire hostOk = (none, p) ∨
    ∃ i, p.firstFree = some i ∧ p.used < p.capacity ∧
      p.acquire hostOk = (if hostOk then some (p.addr i) else none,
        { p with bits := Bitmap.setBit p.bits i, used := p.used + 1 }) := by
  unfold acquire
  by_cases hu : p.used < p.capacity
  · rw [if_pos hu]
    cases hf : p.firstFree with
    | none => exact Or.inl rfl
    | some i => exact Or.inr ⟨i, rfl, hu, rfl⟩
  · rw [if_neg hu]
    exact Or.inl rfl

/-- The pool counts a free address, and number `i` is the first one. -/
structure FirstFree (p : DynamicPool) (i : ℕ) : Prop where
  used_lt : p.used < p.capacity
  lt : i < p.capacity.toNat
  clear : p.taken i = false
  before : ∀ j < i, p.taken j = true

theorem FirstFree.eq {p : DynamicPool} {i j : ℕ} (hi : p.FirstFree i)
    (hj : p.FirstFree j) : i = j := by
  rcases lt_trichotomy i j with hlt | heq | hgt
  · exact absurd (hj.before i hlt) (by simp [hi.clear])
  · exact heq
  · exact absurd (hi.before j hgt) (by simp [hj.clear])

/-- The first free index is the one `acquire` finds, as long as `used` is below the capacity. -/
theorem firstFree_iff {p : DynamicPool} {i : ℕ} :
    p.FirstFree i ↔ p.used < p.capacity ∧ p.firstFree = some i := by
  rw [firstFree_eq_some]
  exact ⟨fun h => ⟨h.used_lt, h.lt, h.clear, h.before⟩, fun ⟨hu, hi, hclear, hbefore⟩ =>
    ⟨hu, hi, hclear, hbefore⟩⟩

/-- With a first free index, `acquire` marks it, counts it and makes its address. -/
theorem acquire_of_firstFree {p : DynamicPool} {i : ℕ} (h : p.FirstFree i) (hostOk : Bool) :
    p.acquire hostOk = (if hostOk then some (p.addr i) else none,
      { p with bits := Bitmap.setBit p.bits i, used := p.used + 1 }) := by
  obtain ⟨hu, hf⟩ := firstFree_iff.1 h
  rw [acquire, if_pos hu, hf]

/-- Without one, `acquire` changes nothing. -/
theorem acquire_of_full {p : DynamicPool} (h : ∀ i, ¬p.FirstFree i) (hostOk : Bool) :
    p.acquire hostOk = (none, p) := by
  rcases p.acquire_cases hostOk with heq | ⟨i, hf, hu, -⟩
  · exact heq
  · exact absurd (firstFree_iff.2 ⟨hu, hf⟩) (h i)

/-- `acquire` gives the first free address, if there is one and memory for it. -/
theorem acquire_answer (p : DynamicPool) (hostOk : Bool) :
    (∃ i, hostOk = true ∧ p.FirstFree i ∧ (p.acquire hostOk).1 = some (p.addr i)) ∨
      (hostOk = true → ∀ i, ¬p.FirstFree i) ∧ (p.acquire hostOk).1 = none := by
  by_cases hfree : ∃ i, p.FirstFree i
  · obtain ⟨i, hi⟩ := hfree
    rw [acquire_of_firstFree hi]
    cases hostOk with
    | true => exact Or.inl ⟨i, rfl, hi, rfl⟩
    | false => exact Or.inr ⟨by simp, rfl⟩
  · have hfull : ∀ i, ¬p.FirstFree i := fun i hi => hfree ⟨i, hi⟩
    rw [acquire_of_full hfull]
    exact Or.inr ⟨fun _ => hfull, rfl⟩

/-- Either nothing happens, or `release` unmarks a marked address of the range. -/
theorem release_cases (p : DynamicPool) (ip : Host) : p.release ip = p ∨
    p.taken (p.slot ip) = true ∧ p.release ip =
      { p with
        bits := Bitmap.clearBit p.bits (p.slot ip)
        used := if 0 < p.used then p.used - 1 else p.used } := by
  unfold release
  by_cases h1 : !ip.isInet
  · rw [if_pos h1]
    exact Or.inl rfl
  rw [if_neg h1]
  by_cases h2 : hostToU32 ip < p.startH || p.endH < hostToU32 ip
  · rw [if_pos h2]
    exact Or.inl rfl
  rw [if_neg h2]
  by_cases h3 : p.taken (p.slot ip)
  · exact Or.inr ⟨h3, if_pos h3⟩
  · exact Or.inl (if_neg h3)

/-- `release` leaves the pool alone if the host is not in it. -/
theorem release_of_notInPool {p : DynamicPool} {ip : Host} (h : ¬p.isInPool ip = true) :
    p.release ip = p := by
  unfold release
  by_cases hf : ip.isInet
  · have hout : (hostToU32 ip < p.startH || p.endH < hostToU32 ip) = true := by
      simp only [isInPool, hf, Bool.true_and, Bool.and_eq_true, decide_eq_true_eq] at h
      rw [Bool.or_eq_true, decide_eq_true_eq, decide_eq_true_eq, ← UInt32.not_le, ← UInt32.not_le]
      tauto
    rw [if_neg (by simp [hf]), if_pos hout]
  · rw [if_pos (by simpa using hf)]

/-- `release` of a marked address of the range unmarks it. -/
theorem release_addr {p : DynamicPool} (h : p.Sized) {i : ℕ} (hi : i < p.capacity.toNat)
    (ht : p.taken i = true) : p.release (p.addr i) =
      { p with
        bits := Bitmap.clearBit p.bits i
        used := if 0 < p.used then p.used - 1 else p.used } := by
  have hin := h.isInPool_addr hi
  simp only [isInPool, Bool.and_eq_true, decide_eq_true_eq] at hin
  obtain ⟨hf, hs, he⟩ := hin
  have hr : (hostToU32 (p.addr i) < p.startH || p.endH < hostToU32 (p.addr i)) = false := by
    simp [UInt32.not_lt.2 hs, UInt32.not_lt.2 he]
  unfold release
  simp only [hf, hr, h.slot_addr hi, ht, Bool.not_true, Bool.false_eq_true, if_false, if_true]

/-- `release` clears the bit of the address and no other. -/
theorem taken_release_addr {p : DynamicPool} (h : p.Sized) {i : ℕ} (hi : i < p.capacity.toNat)
    (j : ℕ) : (p.release (p.addr i)).taken j = (decide (j ≠ i) && p.taken j) := by
  by_cases ht : p.taken i = true
  · rw [release_addr h hi ht]
    exact Bitmap.bit_clearBit _ _ _
  · rcases p.release_cases (p.addr i) with hr | ⟨ht', -⟩
    · rw [hr]
      rcases eq_or_ne j i with rfl | hne
      · simpa using ht
      · simp [hne]
    · exact absurd (h.slot_addr hi ▸ ht') ht

theorem toNat_add_one {u c : UInt32} (h : u < c) : (u + 1).toNat = u.toNat + 1 := by
  have hlt := UInt32.lt_iff_toNat_lt.1 h
  have hc := c.toNat_lt
  rw [UInt32.toNat_add]
  change (u.toNat + 1) % 2 ^ 32 = _
  omega

theorem toNat_sub_one {u : UInt32} (h : 0 < u.toNat) :
    (if 0 < u then u - 1 else u).toNat = u.toNat - 1 := by
  have hlt : (0 : UInt32) < u := UInt32.lt_iff_toNat_lt.2 h
  have hle : (1 : UInt32) ≤ u := UInt32.le_iff_toNat_le.2 h
  rw [if_pos hlt, UInt32.toNat_sub_of_le _ _ hle]
  rfl

/-- `release` undoes an `acquire`. -/
theorem release_acquired {p : DynamicPool} (h : p.Sized) {i : ℕ} (hi : p.FirstFree i) :
    release { p with bits := Bitmap.setBit p.bits i, used := p.used + 1 } (p.addr i) = p := by
  have hs : Sized { p with bits := Bitmap.setBit p.bits i, used := p.used + 1 } :=
    ⟨h.le, h.capacity⟩
  have hbits : Bitmap.clearBit (Bitmap.setBit p.bits i) i = p.bits := by
    refine Bitmap.ext_bit fun j => ?_
    rcases eq_or_ne j i with rfl | hne
    · rw [Bitmap.bit_clearBit_self]
      exact hi.clear.symm
    · rw [Bitmap.bit_clearBit_of_ne _ hne, Bitmap.bit_setBit_of_ne _ hne]
  have hused : (if 0 < p.used + 1 then p.used + 1 - 1 else p.used + 1) = p.used := by
    have hone := toNat_add_one hi.used_lt
    rw [← UInt32.toNat_inj, toNat_sub_one (by omega), hone, Nat.add_sub_cancel]
  have hrelease := release_addr hs (i := i) hi.lt (Bitmap.bit_setBit_self _ _)
  simp only [hbits, hused] at hrelease
  exact hrelease

/-! ## Counting -/

/-- The numbers of the marked addresses. -/
def marked (p : DynamicPool) : Finset ℕ :=
  (Finset.range p.capacity.toNat).filter fun i => p.taken i = true

theorem mem_marked {p : DynamicPool} {i : ℕ} :
    i ∈ p.marked ↔ i < p.capacity.toNat ∧ p.taken i = true := by
  simp [marked]

/-- `used` counts the marked addresses. -/
def Counted (p : DynamicPool) : Prop :=
  p.used.toNat = p.marked.card

/-- `acquire` keeps `used` the number of marks. -/
theorem Counted.acquire {p : DynamicPool} (h : p.Counted) (hostOk : Bool) :
    (p.acquire hostOk).2.Counted := by
  rcases p.acquire_cases hostOk with heq | ⟨i, hf, hu, heq⟩
  · rw [heq]
    exact h
  · obtain ⟨hi, hfree, -⟩ := firstFree_eq_some.1 hf
    have hset : marked { p with bits := Bitmap.setBit p.bits i, used := p.used + 1 } =
        insert i p.marked := by
      ext j
      rw [Finset.mem_insert, mem_marked, mem_marked, taken, Bitmap.bit_setBit]
      rcases eq_or_ne j i with rfl | hne
      · simp [hi]
      · simp [hne, taken]
    have hnot : i ∉ p.marked := by simp [mem_marked, hfree]
    rw [heq, Counted, hset, Finset.card_insert_of_notMem hnot, ← h]
    exact toNat_add_one hu

/-- So does `release`, of an address of the pool. -/
theorem Counted.release {p : DynamicPool} (h : p.Counted) (hs : p.Sized) {i : ℕ}
    (hi : i < p.capacity.toNat) : (p.release (p.addr i)).Counted := by
  by_cases ht : p.taken i = true
  · have hmem : i ∈ p.marked := mem_marked.2 ⟨hi, ht⟩
    have hclear : marked
        { p with
          bits := Bitmap.clearBit p.bits i
          used := if 0 < p.used then p.used - 1 else p.used } = p.marked.erase i := by
      ext j
      rw [Finset.mem_erase, mem_marked, mem_marked, taken, Bitmap.bit_clearBit]
      rcases eq_or_ne j i with rfl | hne
      · simp
      · simp [hne, taken]
    rw [release_addr hs hi ht, Counted, hclear, Finset.card_erase_of_mem hmem, ← h]
    exact toNat_sub_one (h ▸ Finset.card_pos.2 ⟨i, hmem⟩)
  · rcases p.release_cases (p.addr i) with hr | ⟨ht', -⟩
    · rw [hr]
      exact h
    · exact absurd (hs.slot_addr hi ▸ ht') ht

end DynamicPool

/-! ## A new pool -/

/-- A pool is created between two IPv4 hosts only. -/
theorem isInet_of_create {start end_ : Host} {calloc : Option (ℕ → UInt8)} {p : DynamicPool}
    (h : dynamicPoolCreate start end_ calloc = some p) :
    start.isInet = true ∧ end_.isInet = true := by
  unfold dynamicPoolCreate at h
  simp only at h
  split_ifs at h with h1
  simpa using h1

theorem sized_of_create {start end_ : Host} {calloc : Option (ℕ → UInt8)} {p : DynamicPool}
    (h : dynamicPoolCreate start end_ calloc = some p) :
    p.Sized ∧ p.startH = hostToU32 start ∧ p.endH = hostToU32 end_ := by
  unfold dynamicPoolCreate at h
  simp only at h
  split_ifs at h with h1 h2
  cases calloc with
  | none => simp at h
  | some mem =>
    obtain rfl := Option.some.inj h
    exact ⟨⟨UInt32.not_lt.1 h2, rfl⟩, rfl, rfl⟩

/-- A new pool of at most `2^32 - 8` addresses has no address marked. -/
theorem create_empty {start end_ : Host} {calloc : Option (ℕ → UInt8)} {p : DynamicPool}
    (h : dynamicPoolCreate start end_ calloc = some p)
    (hsize : (hostToU32 end_).toNat - (hostToU32 start).toNat + 1 ≤ 2 ^ 32 - 8) :
    (∀ i < p.capacity.toNat, p.taken i = false) ∧ p.used = 0 := by
  unfold dynamicPoolCreate at h
  simp only at h
  split_ifs at h with h1 h2
  cases calloc with
  | none => simp at h
  | some mem =>
    obtain rfl := Option.some.inj h
    refine ⟨fun i hi => Bitmap.bit_of_eq_zero (if_pos ?_), rfl⟩
    have hle := UInt32.not_lt.1 h2
    simp only [UInt32.toNat_add, UInt32.toNat_sub_of_le _ _ hle, UInt32.toNat_ofNat,
      UInt32.toNat_div, Nat.reduceMod, Nat.reducePow] at hi ⊢
    omega

/-- A new pool that is not too large counts its marks. -/
theorem counted_of_create {start end_ : Host} {calloc : Option (ℕ → UInt8)} {p : DynamicPool}
    (h : dynamicPoolCreate start end_ calloc = some p)
    (hsize : (hostToU32 end_).toNat - (hostToU32 start).toNat + 1 ≤ 2 ^ 32 - 8) : p.Counted := by
  obtain ⟨hfree, hused⟩ := create_empty h hsize
  have hempty : p.marked = ∅ := Finset.eq_empty_of_forall_notMem fun i hi => by
    obtain ⟨hi, ht⟩ := DynamicPool.mem_marked.1 hi
    simp [hfree i hi] at ht
  rw [DynamicPool.Counted, hused, hempty]
  rfl

/-! ## Asking again and again -/

namespace DynamicPool

/-- The answers of up to `n` calls of `acquire`, until one has no answer. -/
def handOut (this : DynamicPool) : ℕ → List Host
  | 0 => []
  | n + 1 =>
    match this.acquire true with
    | (some ip, next) => ip :: next.handOut n
    | (none, _) => []

/-- The first `k` addresses are marked, and counted. -/
structure Filled (p : DynamicPool) (k : ℕ) : Prop where
  taken : ∀ i < p.capacity.toNat, p.taken i = decide (i < k)
  used : p.used.toNat = k

/-- In a pool filled up to an index, that index is the first free one. -/
theorem Filled.firstFree {p : DynamicPool} {k : ℕ} (h : p.Filled k)
    (hk : k < p.capacity.toNat) : p.FirstFree k where
  used_lt := UInt32.lt_iff_toNat_lt.2 (h.used ▸ hk)
  lt := hk
  clear := by simp [h.taken k hk]
  before := fun j hj => by simp [h.taken j (hj.trans hk), hj]

theorem Filled.succ {p : DynamicPool} {k : ℕ} (h : p.Filled k) (hk : k < p.capacity.toNat) :
    Filled { p with bits := Bitmap.setBit p.bits k, used := p.used + 1 } (k + 1) where
  taken := by
    intro i hi
    rw [DynamicPool.taken, Bitmap.bit_setBit]
    rcases eq_or_ne i k with rfl | hne
    · simp
    · rw [decide_eq_false hne, Bool.false_or]
      exact (h.taken i hi).trans (decide_eq_decide.2 (by omega))
  used := (toNat_add_one (h.firstFree hk).used_lt).trans (congrArg (· + 1) h.used)

/-- The rest of the addresses is handed out in order. -/
theorem Filled.handOut {p : DynamicPool} {k : ℕ} (h : p.Filled k) (hk : k ≤ p.capacity.toNat)
    (n : ℕ) : p.handOut n = (List.range' k (min n (p.capacity.toNat - k))).map p.addr := by
  induction n generalizing p k with
  | zero => simp [DynamicPool.handOut]
  | succ n ih =>
    rcases hk.lt_or_eq with hlt | heq
    · have hmin : min (n + 1) (p.capacity.toNat - k) =
          min n (p.capacity.toNat - (k + 1)) + 1 := by
        omega
      rw [DynamicPool.handOut, acquire_of_firstFree (h.firstFree hlt), hmin, List.range'_succ,
        List.map_cons]
      exact congrArg (p.addr k :: ·) (ih (h.succ hlt) hlt)
    · have hfull (i : ℕ) : ¬p.FirstFree i := fun hi => by
        have hclear := hi.clear
        rw [h.taken i hi.lt] at hclear
        exact of_decide_eq_false hclear (heq ▸ hi.lt)
      rw [DynamicPool.handOut, acquire_of_full hfull, heq, Nat.sub_self, Nat.min_zero]
      rfl

end DynamicPool

/-- A new pool of at most `2^32 - 8` addresses hands them all out in order. -/
theorem handOut_of_create {start end_ : Host} {calloc : Option (ℕ → UInt8)} {p : DynamicPool}
    (h : dynamicPoolCreate start end_ calloc = some p)
    (hsize : (hostToU32 end_).toNat - (hostToU32 start).toNat + 1 ≤ 2 ^ 32 - 8) (n : ℕ) :
    p.handOut n =
      (List.range (min n ((hostToU32 end_).toNat - (hostToU32 start).toNat + 1))).map fun i =>
        u32ToHost (hostToU32 start + UInt32.ofNat i) := by
  obtain ⟨hfree, hused⟩ := create_empty h hsize
  obtain ⟨hsized, hs, he⟩ := sized_of_create h
  have hcapacity : p.capacity.toNat =
      (hostToU32 end_).toNat - (hostToU32 start).toNat + 1 := by
    rw [hsized.toNat_capacity, hs, he]
    omega
  have hfilled : p.Filled 0 := ⟨fun i hi => by simp [hfree i hi], by rw [hused]; rfl⟩
  rw [hfilled.handOut (Nat.zero_le _), Nat.sub_zero, hcapacity, ← List.range_eq_range']
  exact List.map_congr_left fun i _ => by rw [DynamicPool.addr, hs]

end Cupp
