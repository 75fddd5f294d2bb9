import Mathlib.Data.List.Find
import Cupp.DynamicPool
import Cupp.Lib.FirstFit
import Cupp.Lib.Objects

/-!
# The pool as a set of addresses

`dynamic_pool_create` computes the size of the range and of the bitmap in 32 bits. Up to
`2^32 - 8` addresses the sizes are right and every access to the bitmap is in it, and for
larger ranges they are not (`pool_in_bounds_iff`).

Such a pool is the set of the addresses that are taken : `acquire` takes the smallest address
of the range that is not in the set, `release` takes an address out of it. Whatever the calls,
the answers are those of the set, and the bitmap and the counter show it
(`pool_refines_set`).
-/

namespace Cupp

namespace DynamicPool

variable {start end_ ip : Host} {calloc : Option (ℕ → UInt8)} {p p₀ : DynamicPool}

/-! ## Sizes -/

/-- The number of addresses from `start` to `end_`. -/
def rangeSize (start end_ : Host) : ℕ :=
  (hostToU32 end_).toNat - (hostToU32 start).toNat + 1

/-- The capacity is the size of the range, the bitmap has a bit for each address, and the bytes
that the scan of `acquire` and `release` of an address of the range read are in it. -/
structure InBounds (start end_ : Host) (p : DynamicPool) : Prop where
  capacity : p.capacity.toNat = rangeSize start end_
  bitmap : p.capacity.toNat ≤ 8 * p.bytes.toNat
  acquire : ∀ i < p.capacity.toNat, i / 8 < p.bytes.toNat
  release : ∀ ip, p.isInPool ip = true → p.slot ip / 8 < p.bytes.toNat

theorem bytes_of_create (h : dynamicPoolCreate start end_ calloc = some p) :
    p.bytes = (p.capacity + 7) / 8 := by
  unfold dynamicPoolCreate at h
  simp only at h
  split_ifs at h
  cases calloc with
  | none => simp at h
  | some mem =>
    obtain rfl := Option.some.inj h
    rfl

/-- The capacity is the number of addresses, reduced to 32 bits. -/
theorem toNat_capacity_of_create (h : dynamicPoolCreate start end_ calloc = some p) :
    p.capacity.toNat = rangeSize start end_ % 2 ^ 32 := by
  obtain ⟨hsized, hs, he⟩ := sized_of_create h
  rw [hsized.toNat_capacity, hs, he, rangeSize]

theorem toNat_bytes_of_create (h : dynamicPoolCreate start end_ calloc = some p) :
    p.bytes.toNat = (p.capacity.toNat + 7) % 2 ^ 32 / 8 := by
  rw [bytes_of_create h, UInt32.toNat_div, UInt32.toNat_add]
  rfl

theorem rangeSize_le (start end_ : Host) : rangeSize start end_ ≤ 2 ^ 32 := by
  have hlt := (hostToU32 end_).toNat_lt
  unfold rangeSize
  omega

/-- A range of at most `2 ^ 32 - 8` addresses has a capacity. -/
theorem capacity_ne_zero (h : dynamicPoolCreate start end_ calloc = some p)
    (hsize : rangeSize start end_ ≤ 2 ^ 32 - 8) : p.capacity ≠ 0 := by
  rintro h0
  have hcap := toNat_capacity_of_create h
  have hpos : 0 < rangeSize start end_ := Nat.succ_pos _
  rw [h0, UInt32.toNat_zero] at hcap
  omega

/-- An index that `release` computes is below the capacity, if that did not wrap. -/
theorem slot_lt (h : p.Sized) (hcap : p.capacity ≠ 0) (hip : p.isInPool ip = true) :
    p.slot ip < p.capacity.toNat := by
  obtain ⟨i, hi, rfl⟩ := h.exists_addr hcap hip
  rwa [h.slot_addr hi]

/-- For such a range all that is computed stays in bounds. -/
theorem inBounds_of_create (h : dynamicPoolCreate start end_ calloc = some p)
    (hsize : rangeSize start end_ ≤ 2 ^ 32 - 8) : p.InBounds start end_ := by
  have hcap := toNat_capacity_of_create h
  have hbytes := toNat_bytes_of_create h
  have hpos : 0 < rangeSize start end_ := Nat.succ_pos _
  refine ⟨by omega, by omega, fun i hi => by omega, fun ip hip => ?_⟩
  have hlt := slot_lt (sized_of_create h).1 (capacity_ne_zero h hsize) hip
  omega

end DynamicPool

open DynamicPool

/-- The sizes are right and the accesses in bounds just for ranges of at most `2^32 - 8`
addresses. -/
theorem pool_in_bounds_iff {start end_ : Host} {calloc : Option (ℕ → UInt8)} {p : DynamicPool}
    (h : dynamicPoolCreate start end_ calloc = some p) :
    p.InBounds start end_ ↔ rangeSize start end_ ≤ 2 ^ 32 - 8 := by
  constructor
  · intro hin
    have hcap := toNat_capacity_of_create h
    have hbytes := toNat_bytes_of_create h
    have hle := rangeSize_le start end_
    have hcapacity := hin.capacity
    have hbitmap := hin.bitmap
    -- a larger capacity would have wrapped, or the size of the bitmap would be 0
    omega
  · exact inBounds_of_create h

theorem pool_in_bounds_of_three : ∃ p,
    dynamicPoolCreate (.inet 10 0 0 1) (.inet 10 0 0 3) (some fun _ => 255) = some p ∧
      p.InBounds (.inet 10 0 0 1) (.inet 10 0 0 3) := by
  obtain ⟨p, hp⟩ := Option.isSome_iff_exists.1 (by decide :
    (dynamicPoolCreate (.inet 10 0 0 1) (.inet 10 0 0 3) (some fun _ => 255)).isSome = true)
  exact ⟨p, hp, (pool_in_bounds_iff hp).2 (by decide)⟩

/-- All of IPv4 has a capacity of 0, and with one address less the bitmap has no byte. -/
theorem not_pool_in_bounds :
    (∃ p, dynamicPoolCreate (.inet 0 0 0 0) (.inet 255 255 255 255) (some fun _ => 0) = some p ∧
      ¬p.InBounds (.inet 0 0 0 0) (.inet 255 255 255 255)) ∧
    ∃ p, dynamicPoolCreate (.inet 0 0 0 0) (.inet 255 255 255 254) (some fun _ => 0) = some p ∧
      ¬p.InBounds (.inet 0 0 0 0) (.inet 255 255 255 254) := by
  constructor
  · obtain ⟨p, hp, hcap⟩ := Option.map_eq_some_iff.1 (by decide :
      (dynamicPoolCreate (.inet 0 0 0 0) (.inet 255 255 255 255) (some fun _ => 0)).map
        (·.capacity) = some 0)
    refine ⟨p, hp, fun hin => ?_⟩
    have hcapacity := hin.capacity
    rw [hcap] at hcapacity
    exact absurd hcapacity (by decide)
  · obtain ⟨p, hp, hfacts⟩ := Option.map_eq_some_iff.1 (by decide :
      (dynamicPoolCreate (.inet 0 0 0 0) (.inet 255 255 255 254) (some fun _ => 0)).map
        (fun p => (p.capacity, p.bytes)) = some (4294967295, 0))
    obtain ⟨hcap, hbytes⟩ := Prod.mk.inj hfacts
    refine ⟨p, hp, fun hin => ?_⟩
    have hbitmap := hin.bitmap
    rw [hcap, hbytes] at hbitmap
    exact absurd hbitmap (by decide)

namespace DynamicPool

variable {ip : Host} {p p₀ : DynamicPool} {taken : Finset Host} {i : ℕ}

/-! ## Taken addresses -/

/-- The addresses in order. -/
def addresses (p : DynamicPool) : List Host :=
  (List.range p.capacity.toNat).map p.addr

/-- A call, with memory for the host that `acquire` answers with. -/
def call (p : DynamicPool) : FirstFit.Call Host → Option Host × DynamicPool
  | .acquire => p.acquire true
  | .release ip => (none, p.release ip)

/-- The pool `p` that was created as `p₀` shows that the addresses `taken` are taken. -/
structure Shows (p₀ p : DynamicPool) (taken : Finset Host) : Prop where
  sameRange : SameRange p₀ p
  /-- Only addresses of the range are taken. -/
  subset : ∀ ip ∈ taken, ip ∈ p₀.addresses
  /-- The bit of an address says whether it is taken. -/
  taken_iff : ∀ i < p₀.capacity.toNat, p.taken i = true ↔ p₀.addr i ∈ taken
  used : p.used.toNat = taken.card
  /-- The last byte has no other bits, and what is behind it stays as it was. -/
  clear : ∀ i, p₀.capacity.toNat ≤ i → i < 8 * p₀.bytes.toNat → p.taken i = false
  behind : ∀ k, p₀.bytes.toNat ≤ k → p.bits k = p₀.bits k

theorem Sized.addr_inj (h : p.Sized) {i j : ℕ} (hi : i < p.capacity.toNat)
    (hj : j < p.capacity.toNat) (heq : p.addr i = p.addr j) : i = j := by
  rw [← h.slot_addr hi, ← h.slot_addr hj, heq]

/-- The addresses of the pool are what `is_in_pool` accepts. -/
theorem Sized.mem_addresses (h : p.Sized) (hcap : p.capacity ≠ 0) :
    ip ∈ p.addresses ↔ p.isInPool ip = true := by
  rw [addresses, List.mem_map]
  constructor
  · rintro ⟨i, hi, rfl⟩
    exact h.isInPool_addr (List.mem_range.1 hi)
  · intro hip
    obtain ⟨i, hi, rfl⟩ := h.exists_addr hcap hip
    exact ⟨i, List.mem_range.2 hi, rfl⟩

/-- The addresses ascend. -/
theorem Sized.pairwise_addresses (h : p.Sized) :
    p.addresses.Pairwise fun a b => hostToU32 a < hostToU32 b := by
  rw [addresses, List.pairwise_map]
  refine List.Pairwise.imp_of_mem (fun {i j} hi hj hij => ?_) List.pairwise_lt_range
  have hi' := h.toNat_add (List.mem_range.1 hi)
  have hj' := h.toNat_add (List.mem_range.1 hj)
  rw [addr, addr, hostToU32_u32ToHost, hostToU32_u32ToHost, UInt32.lt_iff_toNat_lt, hi', hj']
  omega

/-- The scan finds the first address that is not taken. -/
theorem Shows.find_addresses (h : Shows p₀ p taken) :
    p₀.addresses.find? (· ∉ taken) = p.firstFree.map p₀.addr := by
  rw [addresses, List.find?_map, firstFree, h.sameRange.capacity]
  congr 1
  refine List.find?_congr fun i hi => ?_
  have hiff := h.taken_iff i (List.mem_range.1 hi)
  simp only [Function.comp_apply]
  cases ht : p.taken i <;> simp_all

/-- A clear bit is the bit of a free address. -/
theorem Shows.notMem (h : Shows p₀ p taken) (hi : i < p₀.capacity.toNat)
    (hclear : p.taken i = false) : p₀.addr i ∉ taken := fun hmem => by
  simp [(h.taken_iff i hi).2 hmem] at hclear

/-- While an address is free, fewer than all are taken. -/
theorem Shows.used_lt (h : Shows p₀ p taken) (hi : p.firstFree = some i) :
    p.used < p.capacity := by
  obtain ⟨hlt, hclear, -⟩ := firstFree_eq_some.1 hi
  rw [h.sameRange.capacity] at hlt
  have hmem : p₀.addr i ∈ p₀.addresses.toFinset :=
    List.mem_toFinset.2 (List.mem_map_of_mem (List.mem_range.2 hlt))
  have hsub : taken ⊆ p₀.addresses.toFinset := fun ip hip => List.mem_toFinset.2 (h.subset ip hip)
  have hcard := Finset.card_lt_card (hsub.ssubset_of_mem_notMem hmem (h.notMem hlt hclear))
  have hle := p₀.addresses.toFinset_card_le
  rw [addresses, List.length_map, List.length_range] at hle
  rw [UInt32.lt_iff_toNat_lt, h.used, h.sameRange.capacity]
  exact hcard.trans_le hle

/-- Taking the first free address. -/
theorem Shows.insert (hs : p₀.Sized) (hfits : p₀.capacity.toNat ≤ 8 * p₀.bytes.toNat)
    (h : Shows p₀ p taken) (hi : p.FirstFree i) :
    Shows p₀ { p with bits := Bitmap.setBit p.bits i, used := p.used + 1 }
      (insert (p₀.addr i) taken) := by
  have hlt : i < p₀.capacity.toNat := h.sameRange.capacity ▸ hi.lt
  have hfree := h.notMem hlt hi.clear
  refine ⟨h.sameRange.trans ⟨rfl, rfl, rfl, rfl⟩, ?_, fun j hj => ?_, ?_, fun j hj hj' => ?_,
    fun k hk => ?_⟩
  · refine Finset.forall_mem_insert _ _ _ |>.2 ⟨?_, h.subset⟩
    exact List.mem_map_of_mem (List.mem_range.2 hlt)
  · rw [DynamicPool.taken, Bitmap.bit_setBit, Finset.mem_insert, Bool.or_eq_true,
      decide_eq_true_eq]
    refine or_congr ⟨fun heq => heq ▸ rfl, hs.addr_inj hj hlt⟩ (h.taken_iff j hj)
  · rw [Finset.card_insert_of_notMem hfree, ← h.used]
    exact toNat_add_one hi.used_lt
  · rw [DynamicPool.taken, Bitmap.bit_setBit_of_ne _ (by omega)]
    exact h.clear j hj hj'
  · exact (Function.update_of_ne (by omega) _ _).trans (h.behind k hk)

/-- Giving an address of the range back. -/
theorem Shows.erase (hs : p₀.Sized) (hfits : p₀.capacity.toNat ≤ 8 * p₀.bytes.toNat)
    (h : Shows p₀ p taken) (hi : i < p₀.capacity.toNat) :
    Shows p₀ (p.release (p₀.addr i)) (taken.erase (p₀.addr i)) := by
  have hsized : p.Sized := hs.of_sameRange h.sameRange
  have hlt : i < p.capacity.toNat := h.sameRange.capacity ▸ hi
  rw [← h.sameRange.addr_eq]
  by_cases ht : p.taken i = true
  · have htaken := taken_release_addr hsized hlt
    have hmem : p.addr i ∈ taken := h.sameRange.addr_eq i ▸ (h.taken_iff i hi).1 ht
    refine ⟨h.sameRange.trans (sameRange_release p _),
      fun ip hip => h.subset ip (Finset.mem_of_mem_erase hip), fun j hj => ?_, ?_,
      fun j hj hj' => ?_, fun k hk => ?_⟩
    · rw [htaken, Finset.mem_erase, Bool.and_eq_true, decide_eq_true_eq, h.taken_iff j hj,
        h.sameRange.addr_eq]
      exact and_congr_left fun _ => not_congr ⟨fun heq => heq ▸ rfl, hs.addr_inj hj hi⟩
    · have hpos : 0 < p.used.toNat := h.used ▸ Finset.card_pos.2 ⟨_, hmem⟩
      rw [release_addr hsized hlt ht, Finset.card_erase_of_mem hmem, ← h.used]
      exact toNat_sub_one hpos
    · rw [htaken, h.clear j hj hj', Bool.and_false]
    · rw [release_addr hsized hlt ht]
      exact (Function.update_of_ne (by omega) _ _).trans (h.behind k hk)
  · have hsame : p.release (p.addr i) = p := by
      rcases p.release_cases (p.addr i) with hr | ⟨ht', -⟩
      · exact hr
      · exact absurd (hsized.slot_addr hlt ▸ ht') ht
    have hfree := h.notMem hi (Bool.not_eq_true _ ▸ ht)
    rw [hsame, h.sameRange.addr_eq, Finset.erase_eq_of_notMem hfree]
    exact h

/-- Each call answers as it does for the set, and shows the set after it. -/
theorem Shows.call (hs : p₀.Sized) (hcap : p₀.capacity ≠ 0)
    (hfits : p₀.capacity.toNat ≤ 8 * p₀.bytes.toNat) (h : Shows p₀ p taken)
    (c : FirstFit.Call Host) :
    (p.call c).1 = (FirstFit.call p₀.addresses taken c).1 ∧
      Shows p₀ (p.call c).2 (FirstFit.call p₀.addresses taken c).2 := by
  cases c with
  | acquire =>
    simp only [DynamicPool.call, FirstFit.call]
    have hfind := h.find_addresses
    cases hi : p.firstFree with
    | none =>
      rw [hi] at hfind
      have hfull (i : ℕ) : ¬p.FirstFree i := fun hfirst => by
        simp [(firstFree_iff.1 hfirst).2] at hi
      rw [FirstFit.acquire_of_none hfind, acquire_of_full hfull]
      exact ⟨rfl, h⟩
    | some i =>
      rw [hi] at hfind
      have hfirst := firstFree_iff.2 ⟨h.used_lt hi, hi⟩
      rw [FirstFit.acquire_of_some hfind, acquire_of_firstFree hfirst, if_pos rfl,
        h.sameRange.addr_eq]
      exact ⟨rfl, h.insert hs hfits hfirst⟩
  | release ip =>
    refine ⟨rfl, ?_⟩
    simp only [DynamicPool.call, FirstFit.call]
    by_cases hip : ip ∈ p₀.addresses
    · obtain ⟨i, hi, rfl⟩ := List.mem_map.1 hip
      exact h.erase hs hfits (List.mem_range.1 hi)
    · have hfree : ip ∉ taken := fun hmem => hip (h.subset ip hmem)
      rw [hs.mem_addresses hcap, ← h.sameRange.isInPool_eq] at hip
      have hout := release_of_notInPool hip
      rw [hout, Finset.erase_eq_of_notMem hfree]
      exact h

/-! ## A new pool -/

variable {start end_ : Host} {calloc : Option (ℕ → UInt8)}

/-- The bits of the bitmap are zeroed, those of its last byte too. -/
theorem clear_of_create (h : dynamicPoolCreate start end_ calloc = some p) {i : ℕ}
    (hi : i < 8 * p.bytes.toNat) : p.taken i = false := by
  unfold dynamicPoolCreate at h
  simp only at h
  split_ifs at h
  cases calloc with
  | none => simp at h
  | some mem =>
    obtain rfl := Option.some.inj h
    exact Bitmap.bit_of_eq_zero (if_pos (Nat.div_lt_of_lt_mul hi))

/-- In a new pool no address is taken. -/
theorem shows_of_create (h : dynamicPoolCreate start end_ calloc = some p)
    (hsize : rangeSize start end_ ≤ 2 ^ 32 - 8) : Shows p p ∅ where
  sameRange := .refl p
  subset ip hip := absurd hip (Finset.notMem_empty ip)
  taken_iff i hi := by simp [(create_empty h hsize).1 i hi]
  used := by rw [(create_empty h hsize).2, Finset.card_empty, UInt32.toNat_zero]
  clear _ _ := clear_of_create h
  behind _ _ := rfl

/-- The addresses are those of the range. -/
theorem mem_addresses_of_create (h : dynamicPoolCreate start end_ calloc = some p)
    (hsize : rangeSize start end_ ≤ 2 ^ 32 - 8) : ip ∈ p.addresses ↔ ip.isInet = true ∧
      hostToU32 start ≤ hostToU32 ip ∧ hostToU32 ip ≤ hostToU32 end_ := by
  obtain ⟨hsized, hs, he⟩ := sized_of_create h
  rw [hsized.mem_addresses (capacity_ne_zero h hsize), isInPool, hs, he]
  simp only [Bool.and_eq_true, decide_eq_true_eq]

/-- A pool is created between two IPv4 hosts in order, if there is memory. -/
theorem dynamicPoolCreate_some (hstart : start.isInet = true) (hend : end_.isInet = true)
    (hle : hostToU32 start ≤ hostToU32 end_) (mem : ℕ → UInt8) :
    ∃ p, dynamicPoolCreate start end_ (some mem) = some p := by
  unfold dynamicPoolCreate
  simp [hstart, hend, UInt32.not_lt.2 hle]

end DynamicPool

/-- A new pool is the empty set of taken addresses, and each sequence of calls is answered as it
is for the set : `acquire` takes the first address of the range that is not taken, `release`
gives an address back. The bitmap and the counter show the set all the time. -/
theorem pool_refines_set {start end_ : Host} (hstart : start.isInet = true)
    (hend : end_.isInet = true) (hle : hostToU32 start ≤ hostToU32 end_)
    (hsize : rangeSize start end_ ≤ 2 ^ 32 - 8) (mem : ℕ → UInt8) :
    ∃ p₀, dynamicPoolCreate start end_ (some mem) = some p₀ ∧
      (∀ ip, ip ∈ p₀.addresses ↔ ip.isInet = true ∧
        hostToU32 start ≤ hostToU32 ip ∧ hostToU32 ip ≤ hostToU32 end_) ∧
      (∀ i < p₀.capacity.toNat, (p₀.addr i).isInet = true ∧
        hostToU32 (p₀.addr i) = p₀.startH + UInt32.ofNat i ∧ p₀.slot (p₀.addr i) = i) ∧
      ∀ calls : List (FirstFit.Call Host),
        let pool := Object.run DynamicPool.call p₀ calls
        let set := Object.run (FirstFit.call p₀.addresses) ∅ calls
        pool.1 = set.1 ∧ Shows p₀ pool.2 set.2 ∧
          ((pool.2.acquire true).1 = none ↔ ∀ ip ∈ p₀.addresses, ip ∈ set.2) ∧
          ∀ ip, (pool.2.acquire true).1 = some ip ↔ ip ∈ p₀.addresses ∧ ip ∉ set.2 ∧
            ∀ ip' ∈ p₀.addresses, ip' ∉ set.2 → ip' ≠ ip → hostToU32 ip < hostToU32 ip' := by
  obtain ⟨p₀, hp⟩ := dynamicPoolCreate_some hstart hend hle mem
  have hs := (sized_of_create hp).1
  have hcap := capacity_ne_zero hp hsize
  have hfits := (inBounds_of_create hp hsize).bitmap
  refine ⟨p₀, hp, fun ip => mem_addresses_of_create hp hsize, fun i hi => ?_, fun calls => ?_⟩
  · exact ⟨isInet_u32ToHost _, hostToU32_u32ToHost _, hs.slot_addr hi⟩
  · -- one call at a time, from the empty set on
    have hcall (p : DynamicPool) (taken : Finset Host) (c : FirstFit.Call Host)
        (h : Shows p₀ p taken) := h.call hs hcap hfits c
    obtain ⟨hanswers, hshows⟩ := Object.run_refines hcall (shows_of_create hp hsize) calls
    have hnext := (hshows.call hs hcap hfits .acquire).1
    simp only [DynamicPool.call, FirstFit.call] at hnext
    refine ⟨hanswers, hshows, ?_, fun ip => ?_⟩
    · rw [hnext, FirstFit.acquire_eq_none_iff]
    · rw [hnext]
      exact FirstFit.acquire_eq_some_iff hs.pairwise_addresses

theorem pool_refines_set_of_three : ∃ p₀,
    dynamicPoolCreate (.inet 10 0 0 1) (.inet 10 0 0 3) (some fun _ => 255) = some p₀ ∧
      Shows p₀ (Object.run DynamicPool.call p₀ [.acquire, .acquire, .release (.inet 10 0 0 1)]).2
        {.inet 10 0 0 2} := by
  have hstart : (Host.inet 10 0 0 1).isInet = true := rfl
  have hend : (Host.inet 10 0 0 3).isInet = true := rfl
  obtain ⟨p₀, hp, -, -, hruns⟩ :=
    pool_refines_set hstart hend (by decide) (by decide) fun _ => 255
  have haddresses : p₀.addresses = [.inet 10 0 0 1, .inet 10 0 0 2, .inet 10 0 0 3] := by
    have hmap : (dynamicPoolCreate (.inet 10 0 0 1) (.inet 10 0 0 3) (some fun _ => 255)).map
        DynamicPool.addresses = some [.inet 10 0 0 1, .inet 10 0 0 2, .inet 10 0 0 3] := by
      decide
    rw [hp] at hmap
    exact Option.some.inj hmap
  have hset : (Object.run (FirstFit.call p₀.addresses) ∅
      [.acquire, .acquire, .release (.inet 10 0 0 1)]).2 = {.inet 10 0 0 2} := by
    rw [haddresses]
    decide
  exact ⟨p₀, hp, hset ▸ (hruns [.acquire, .acquire, .release (.inet 10 0 0 1)]).2.1⟩

end Cupp
