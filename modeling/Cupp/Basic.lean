import Mathlib.Data.Finmap
import Mathlib.Data.List.TakeWhile

/-!
# Strings, hosts and tables

The data the plugin takes from C and from strongSwan's library. A `char *` is its bytes up
to the terminating NUL (`CString`), so copying a buffer into a string drops what follows
the first NUL of the buffer (`CString.ofBytes`). A `host_t` is an address family with
address bytes in network order (`Host`). A `hashtable_t` is a finite map whose `put`
replaces (`Hashtable`), enumerated in an order the caller cannot rely on
(`Hashtable.Enumerates`).
-/

namespace Cupp

/-! ## C strings -/

/-- The bytes of a C string before its terminating NUL. -/
structure CString where
  bytes : List UInt8
  noNul : 0 ∉ bytes
  deriving DecidableEq

namespace CString

@[ext] theorem ext {s t : CString} (h : s.bytes = t.bytes) : s = t := by
  cases s
  cases t
  congr

/-- The string a byte buffer holds : everything before its first NUL (`strndup`). -/
def ofBytes (buffer : List UInt8) : CString where
  bytes := buffer.takeWhile (· ≠ 0)
  noNul h := by simpa using List.mem_takeWhile_imp h

@[simp] theorem bytes_ofBytes (buffer : List UInt8) :
    (ofBytes buffer).bytes = buffer.takeWhile (· ≠ 0) :=
  rfl

theorem ofBytes_of_noNul {buffer : List UInt8} (h : 0 ∉ buffer) :
    (ofBytes buffer).bytes = buffer := by
  rw [bytes_ofBytes, List.takeWhile_eq_self_iff]
  intro b hb
  simpa using fun h0 : b = 0 => h (h0 ▸ hb)

end CString

/-- The bytes of ASCII characters. -/
def ascii (cs : List Char) : List UInt8 :=
  cs.map fun c => UInt8.ofNat c.toNat

/-! ## Hosts -/

/-- An IPv4 or IPv6 address with its bytes in network order. -/
inductive Host
  | inet (b₀ b₁ b₂ b₃ : UInt8)
  | inet6 (addr : Vector UInt8 16)
  deriving DecidableEq

namespace Host

/-- `get_family(h) == AF_INET`. -/
def isInet : Host → Bool
  | inet .. => true
  | inet6 _ => false

/-- `get_address(h)`. -/
def getAddress : Host → List UInt8
  | inet b₀ b₁ b₂ b₃ => [b₀, b₁, b₂, b₃]
  | inet6 addr => addr.toList

end Host

/-- The number a byte sequence in network order denotes (`ntohl` of four bytes). -/
def ntohl (bytes : List UInt8) : UInt32 :=
  bytes.foldl (fun v b => v * 256 + b.toUInt32) 0

/-- The first four address bytes as a number in host order. -/
def hostToU32 (h : Host) : UInt32 :=
  let c := h.getAddress
  if 4 ≤ c.length then ntohl (c.take 4) else 0

/-- The IPv4 host of a number in host order. -/
def u32ToHost (v : UInt32) : Host :=
  .inet (v >>> 24).toUInt8 (v >>> 16).toUInt8 (v >>> 8).toUInt8 v.toUInt8

@[simp] theorem isInet_u32ToHost (v : UInt32) : (u32ToHost v).isInet = true :=
  rfl

/-- The number in network byte order of four bytes. -/
theorem toNat_ntohl_four (b₀ b₁ b₂ b₃ : UInt8) : (ntohl [b₀, b₁, b₂, b₃]).toNat =
    ((b₀.toNat * 256 + b₁.toNat) * 256 + b₂.toNat) * 256 + b₃.toNat := by
  have h₀ := b₀.toNat_lt
  have h₁ := b₁.toNat_lt
  have h₂ := b₂.toNat_lt
  have h₃ := b₃.toNat_lt
  simp only [ntohl, List.foldl_cons, List.foldl_nil, UInt32.toNat_add, UInt32.toNat_mul,
    UInt8.toNat_toUInt32, UInt32.toNat_ofNat]
  omega

/-- A number survives the way into a host and back. -/
@[simp] theorem hostToU32_u32ToHost (v : UInt32) : hostToU32 (u32ToHost v) = v := by
  have hv := v.toNat_lt
  rw [← UInt32.toNat_inj]
  simp only [hostToU32, u32ToHost, Host.getAddress, List.length_cons, List.length_nil,
    Nat.reduceAdd, Nat.le_refl, if_true, List.take_succ_cons, List.take_zero, toNat_ntohl_four,
    UInt32.toNat_toUInt8, UInt32.toNat_shiftRight, UInt32.toNat_ofNat, Nat.shiftRight_eq_div_pow,
    Nat.reduceMod, Nat.reducePow]
  omega

/-- An IPv4 host is the host of its number. -/
theorem u32ToHost_hostToU32 {h : Host} (hf : h.isInet = true) : u32ToHost (hostToU32 h) = h := by
  obtain ⟨b₀, b₁, b₂, b₃⟩ | _ := h
  · have hn := toNat_ntohl_four b₀ b₁ b₂ b₃
    have h₀ := b₀.toNat_lt
    have h₁ := b₁.toNat_lt
    have h₂ := b₂.toNat_lt
    have h₃ := b₃.toNat_lt
    simp only [u32ToHost, hostToU32, Host.getAddress, List.length_cons, List.length_nil,
      Nat.reduceAdd, Nat.le_refl, if_true, List.take_succ_cons, List.take_zero, Host.inet.injEq,
      ← UInt8.toNat_inj, UInt32.toNat_toUInt8, UInt32.toNat_shiftRight, UInt32.toNat_ofNat,
      Nat.shiftRight_eq_div_pow, Nat.reduceMod, Nat.reducePow, hn]
    omega
  · simp [Host.isInet] at hf

/-! ## Hash tables -/

/-- A `hashtable_t` : a finite map, `put` replacing the value of an equal key. -/
abbrev Hashtable (K V : Type*) := Finmap fun _ : K => V

namespace Hashtable

variable {K V : Type*} [DecidableEq K]

/-- The table as a function of the key. -/
def get (t : Hashtable K V) (k : K) : Option V :=
  t.lookup k

@[simp] theorem get_empty : (∅ : Hashtable K V).get = fun _ => none := by
  funext k
  exact Finmap.lookup_empty k

@[simp] theorem get_insert (t : Hashtable K V) (k : K) (v : V) :
    Hashtable.get (t.insert k v) = Function.update t.get k (some v) := by
  funext k'
  rcases eq_or_ne k' k with rfl | h
  · simp [get]
  · simp [get, h]

@[simp] theorem get_erase (t : Hashtable K V) (k : K) :
    Hashtable.get (t.erase k) = Function.update t.get k none := by
  funext k'
  rcases eq_or_ne k' k with rfl | h
  · simp [get]
  · simp [get, h]

@[simp] theorem keys_insert (t : Hashtable K V) (k : K) (v : V) :
    (t.insert k v).keys = insert k t.keys := by
  ext k'
  rw [Finmap.mem_keys, Finmap.mem_insert, Finset.mem_insert, Finmap.mem_keys]

theorem mem_of_get {t : Hashtable K V} {k : K} {v : V} (h : t.get k = some v) : k ∈ t :=
  Finmap.mem_of_lookup_eq_some h

/-- What holds of the new entry and of the others holds of all entries. -/
theorem forall_insert {t : Hashtable K V} {k : K} {v : V} {P : K → V → Prop} (hself : P k v)
    (hother : ∀ k' v', k' ≠ k → t.get k' = some v' → P k' v') :
    ∀ {k' v'}, Hashtable.get (t.insert k v) k' = some v' → P k' v' := by
  intro k' v' h
  rw [get_insert] at h
  rcases eq_or_ne k' k with rfl | hne
  · rw [Function.update_self] at h
    exact Option.some.inj h ▸ hself
  · rw [Function.update_of_ne hne] at h
    exact hother k' v' hne h

theorem forall_erase {t : Hashtable K V} {k : K} {P : K → V → Prop}
    (hother : ∀ k' v', k' ≠ k → t.get k' = some v' → P k' v') :
    ∀ {k' v'}, Hashtable.get (t.erase k) k' = some v' → P k' v' := by
  intro k' v' h
  rw [get_erase] at h
  rcases eq_or_ne k' k with rfl | hne
  · rw [Function.update_self] at h
    exact absurd h (by simp)
  · rw [Function.update_of_ne hne] at h
    exact hother k' v' hne h

theorem ext_get {t t' : Hashtable K V} (h : t.get = t'.get) : t = t' :=
  Finmap.ext_lookup fun k => congrFun h k

/-- `es` lists the entries of the table, each once, in some order. -/
def Enumerates (es : List (Σ _ : K, V)) (t : Hashtable K V) : Prop :=
  (es : Multiset (Σ _ : K, V)) = t.entries

instance [DecidableEq V] (es : List (Σ _ : K, V)) (t : Hashtable K V) :
    Decidable (Enumerates es t) :=
  inferInstanceAs (Decidable (_ = _))

/-- The entries are the keys with what they are mapped to. -/
theorem mem_entries (t : Hashtable K V) (k : K) (v : V) :
    (⟨k, v⟩ : Σ _ : K, V) ∈ t.entries ↔ t.get k = some v := by
  induction t using Finmap.induction_on with
  | H a => exact AList.mem_lookup_iff.symm

/-- The values of the entries are those some key has. -/
theorem mem_map_entries (t : Hashtable K V) (v : V) :
    (v ∈ t.entries.map fun e => e.2) ↔ ∃ k, t.get k = some v := by
  rw [Multiset.mem_map]
  constructor
  · rintro ⟨⟨k, v⟩, he, rfl⟩
    exact ⟨k, (mem_entries t k v).1 he⟩
  · rintro ⟨k, hk⟩
    exact ⟨⟨k, v⟩, (mem_entries t k v).2 hk, rfl⟩

theorem Enumerates.mem_iff {es : List (Σ _ : K, V)} {t : Hashtable K V} (h : Enumerates es t)
    (k : K) (v : V) : (⟨k, v⟩ : Σ _ : K, V) ∈ es ↔ t.get k = some v := by
  rw [← mem_entries, ← h, Multiset.mem_coe]

omit [DecidableEq K] in
theorem Enumerates.nodup {es : List (Σ _ : K, V)} {t : Hashtable K V} (h : Enumerates es t) :
    es.Nodup := by
  rw [← Multiset.coe_nodup, h]
  exact t.nodup_entries

omit [DecidableEq K] in
theorem Enumerates.length_eq {es : List (Σ _ : K, V)} {t : Hashtable K V} (h : Enumerates es t) :
    es.length = t.keys.card := by
  rw [← Multiset.coe_card, h]
  exact (Multiset.card_map _ _).symm

/-- The entry of a key, and the others. -/
theorem entries_of_get {t : Hashtable K V} {k : K} {v : V} (h : t.get k = some v) :
    t.entries = ⟨k, v⟩ ::ₘ (t.erase k).entries := by
  refine (Multiset.Nodup.ext t.nodup_entries (Multiset.nodup_cons.2 ⟨?_,
    (t.erase k).nodup_entries⟩)).2 fun e => ?_
  · rw [mem_entries, get_erase, Function.update_self]
    exact Option.some_ne_none v ∘ Eq.symm
  · obtain ⟨k', v'⟩ := e
    rw [Multiset.mem_cons, mem_entries, mem_entries, get_erase]
    rcases eq_or_ne k' k with rfl | hne
    · simp [h, eq_comm]
    · simp [hne]

/-- Filing under a key replaces its entry. -/
theorem entries_insert (t : Hashtable K V) (k : K) (v : V) :
    (t.insert k v).entries = ⟨k, v⟩ ::ₘ (t.erase k).entries := by
  have hget : Hashtable.get (t.insert k v) k = some v := by simp
  rw [entries_of_get hget]
  congr 2
  refine ext_get (funext fun k' => ?_)
  rcases eq_or_ne k' k with rfl | hne
  · simp
  · simp [hne]

theorem erase_of_get {t : Hashtable K V} {k : K} (h : t.get k = none) : t.erase k = t := by
  refine ext_get (funext fun k' => ?_)
  rcases eq_or_ne k' k with rfl | hne
  · simp [h]
  · simp [hne]

omit [DecidableEq K] in
/-- A table can be enumerated. -/
theorem exists_enumerates (t : Hashtable K V) : ∃ es, Enumerates es t :=
  Quot.exists_rep t.entries

end Hashtable

/-- The order in which tables list their entries. -/
structure TableOrder (K V : Type*) where
  entries : Hashtable K V → List (Σ _ : K, V)
  enumerates : ∀ t, Hashtable.Enumerates (entries t) t

end Cupp
