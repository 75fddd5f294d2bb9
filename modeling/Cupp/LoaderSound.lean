import Cupp.UnknownKeys

/-!
# What the loader binds stands where it should

A binding is sound if the scalar it comes from stands at its path : an address of a user at
`users`, the name and `ip`, and an endpoint at `pool` and `start` or `end`. The loader does not
keep track of where it is, so a pair that is not in the documented part can make it read the
rest of a document at the wrong place (`not_load_sound`). If every such pair is passed in
silence, which in the mapping of a user and in the pool is a matter of its scalars, and names
that have an address are not cut, all that is bound is sound (`load_sound`).
-/

namespace Cupp

/-! ## Soundness -/

/-- The path at which the value of a binding should stand. -/
def Binding.path : Binding → List (List UInt8)
  | user name _ => [ascii ['u', 's', 'e', 'r', 's'], name.bytes, ascii ['i', 'p']]
  | poolStart _ => [ascii ['p', 'o', 'o', 'l'], ascii ['s', 't', 'a', 'r', 't']]
  | poolEnd _ => [ascii ['p', 'o', 'o', 'l'], ascii ['e', 'n', 'd']]

/-- The value stands at the path of the binding. -/
def Binding.Sound (lb : List PathStep × Binding) : Prop :=
  lb.1 = lb.2.path.map .value

instance (lb : List PathStep × Binding) : Decidable (Binding.Sound lb) :=
  inferInstanceAs (Decidable (_ = _))

/-- The loader passes the pair. -/
def Passed (parse : CString → Option Host) (c : Cursor) (p : Node × Node) : Prop :=
  (reader parse).Silent c (p.1.events ++ p.2.events) c

/-- There is no mapping in the pair, and its scalars come two by two and give a user no address. -/
def NoAddress (parse : CString → Option Host) (p : Node × Node) : Prop :=
  p.1.Flat ∧ p.2.Flat ∧ Even (p.1.scalars ++ p.2.scalars).length ∧
    ∀ q ∈ twoByTwo (p.1.scalars ++ p.2.scalars),
      isAsCString q.1 (ascii ['i', 'p']) = true → parseValue parse q.2 = none

instance (parse : CString → Option Host) : DecidablePred (NoAddress parse) := fun p =>
  inferInstanceAs (Decidable (_ ∧ _ ∧ _ ∧ ∀ q ∈ twoByTwo (p.1.scalars ++ p.2.scalars),
    isAsCString q.1 (ascii ['i', 'p']) = true → parseValue parse q.2 = none))

/-- There is no mapping in the pair, and its scalars come two by two and set no endpoint. -/
def NoEndpoint (p : Node × Node) : Prop :=
  p.1.Flat ∧ p.2.Flat ∧ Even (p.1.scalars ++ p.2.scalars).length ∧
    ∀ q ∈ twoByTwo (p.1.scalars ++ p.2.scalars),
      isAsCString q.1 (ascii ['s', 't', 'a', 'r', 't']) = false ∧
      isAsCString q.1 (ascii ['e', 'n', 'd']) = false

/-- A pair in the mapping of a user : `ip` with a scalar, where the name is not cut, or a pair
that means nothing. -/
def UserPair (parse : CString → Option Host) (name : List UInt8) (p : Node × Node) : Prop :=
  NoAddress parse p ∨ (0 ∉ name ∧ name.length ≤ 255) ∧ p.1 = .scalar (ascii ['i', 'p']) ∧
    ∃ value, p.2 = .scalar value

/-- A pair in a pool section : an endpoint with a scalar, or a pair that means nothing. -/
def PoolPair (p : Node × Node) : Prop :=
  NoEndpoint p ∨ (p.1 = .scalar (ascii ['s', 't', 'a', 'r', 't']) ∨
    p.1 = .scalar (ascii ['e', 'n', 'd'])) ∧ ∃ value, p.2 = .scalar value

/-- A pair in a section with users : a name with a mapping, or a pair that is passed. -/
def UsersPair (parse : CString → Option Host) (p : Node × Node) : Prop :=
  Passed parse .users p ∨ ∃ name pairs, p.1 = .scalar name ∧ p.2 = .map pairs ∧
    ∀ q ∈ pairs, UserPair parse name q

/-- A pair at the root : a section, or a pair that is passed. -/
def RootPair (parse : CString → Option Host) (p : Node × Node) : Prop :=
  Passed parse .root p ∨
    (∃ pairs, p.1 = .scalar (ascii ['u', 's', 'e', 'r', 's']) ∧ p.2 = .map pairs ∧
      ∀ q ∈ pairs, UsersPair parse q) ∨
    ∃ pairs, p.1 = .scalar (ascii ['p', 'o', 'o', 'l']) ∧ p.2 = .map pairs ∧
      ∀ q ∈ pairs, PoolPair q

variable (parse : CString → Option Host)

/-- From the cursor, the pairs lead back to it, and what they bind is sound. -/
def ReadsSoundly (c : Cursor) (path : List PathStep) (pairs : List (Node × Node)) : Prop :=
  (reader parse).final c (pairsEvents pairs) = c ∧
    ∀ lb ∈ (reader parse).labelled c (pairsLocated path pairs), Binding.Sound lb

variable {parse} {c : Cursor} {path : List PathStep} {pairs : List (Node × Node)}

/-- Pairs that are each read soundly are read soundly in a row. -/
theorem readsSoundly_of_forall (h : ∀ p ∈ pairs, ReadsSoundly parse c path [p]) :
    ReadsSoundly parse c path pairs := by
  induction pairs with
  | nil => exact ⟨rfl, by simp [pairsLocated]⟩
  | cons p pairs ih =>
    obtain ⟨hfinal, hsound⟩ := h p List.mem_cons_self
    obtain ⟨hfinal', hsound'⟩ := ih fun q hq => h q (List.mem_cons_of_mem _ hq)
    have hevents : pairsEvents (p :: pairs) = pairsEvents [p] ++ pairsEvents pairs :=
      pairsEvents_append [p] pairs
    have hlocated : pairsLocated path (p :: pairs) = pairsLocated path [p] ++
        pairsLocated path pairs := by
      simp [pairsLocated]
    refine ⟨?_, fun lb hlb => ?_⟩
    · rw [hevents, Emitter.final_append, hfinal, hfinal']
    · rw [hlocated, Emitter.labelled_append, map_snd_pairsLocated, hfinal, List.mem_append] at hlb
      exact hlb.elim (hsound lb) (hsound' lb)

/-- A pair that goes by without a trace is read soundly. -/
theorem readsSoundly_of_passed {p : Node × Node} (h : Passed parse c p) :
    ReadsSoundly parse c path [p] := by
  have hevents : pairsEvents [p] = p.1.events ++ p.2.events := by simp [pairsEvents]
  have hsilent : (reader parse).Silent c ((pairsLocated path [p]).map Prod.snd) c := by
    rw [map_snd_pairsLocated, hevents]
    exact h
  refine ⟨?_, ?_⟩
  · rw [hevents, h.final_eq]
  · simp [hsilent.labelled_eq]

/-- A key with a mapping that is read soundly. -/
theorem readsSoundly_of_map {c₁ : Cursor} {key : List UInt8} (hpending : c.pending = none)
    (hopen : (c.next (.scalar key)).next .mappingStart = c₁)
    (hinner : ReadsSoundly parse c₁ (path ++ [.value key]) pairs)
    (hclose : c₁.next .mappingEnd = c) :
    ReadsSoundly parse c path [(.scalar key, .map pairs)] := by
  obtain ⟨hfinal, hsound⟩ := hinner
  refine ⟨?_, fun lb hlb => ?_⟩
  · have hevents : pairsEvents [(.scalar key, .map pairs)] =
        .scalar key :: (Node.map pairs).events := by
      simp [pairsEvents, Node.events]
    rw [hevents, (read_mapping parse hpending hopen hfinal rfl hclose).1]
  · have hlocated : pairsLocated path [(.scalar key, .map pairs)] =
        (path ++ [.key], .scalar key) :: (path ++ [.value key], .mappingStart) ::
          (pairsLocated (path ++ [.value key]) pairs ++ [(path ++ [.value key], .mappingEnd)]) := by
      simp [pairsLocated, Node.located, Node.step]
    refine hsound lb ?_
    rw [hlocated, Emitter.labelled_cons, Emitter.labelled_cons, Emitter.labelled_append,
      reader_next, reader_next, hopen] at hlb
    simpa [Cursor.emit, hpending] using hlb

/-- A key with a scalar that binds what it should, if it binds anything. -/
theorem readsSoundly_of_scalar {key value : List UInt8} (hpending : c.pending = none)
    (hbind : ∀ b ∈ c.bind parse (.ofBytes key) (.ofBytes value),
      Binding.Sound (path ++ [.value key], b)) :
    ReadsSoundly parse c path [(.scalar key, .scalar value)] := by
  obtain ⟨hfinal, -⟩ := read_scalarPairs parse hpending [(key, value)]
  refine ⟨hfinal, fun lb hlb => ?_⟩
  have hlocated : pairsLocated path [(.scalar key, .scalar value)] =
      [(path ++ [.key], .scalar key), (path ++ [.value key], .scalar value)] :=
    rfl
  have hemit : (c.next (.scalar key)).emit parse (.scalar value) =
      c.bind parse (.ofBytes key) (.ofBytes value) := by
    simp [Cursor.next, Cursor.emit, hpending, Cursor.bind]
  have hnone : c.emit parse (.scalar key) = none := by simp [Cursor.emit, hpending]
  rw [hlocated, Emitter.labelled_cons, Emitter.labelled_cons, reader_next, reader_emit,
    reader_emit, hemit, hnone] at hlb
  obtain ⟨b, hb, rfl⟩ : ∃ b ∈ c.bind parse (.ofBytes key) (.ofBytes value),
      (path ++ [.value key], b) = lb := by
    simpa using hlb
  exact hbind b hb

/-! ## What is bound is sound -/

theorem UserPair.readsSoundly {name : List UInt8} {p : Node × Node} (h : UserPair parse name p) :
    ReadsSoundly parse (.user (filedName name))
      [.value (ascii ['u', 's', 'e', 'r', 's']), .value name] [p] := by
  rcases h with hnothing | ⟨⟨hnul, hlen⟩, hkey, value, hvalue⟩
  · exact readsSoundly_of_passed ((silent_user_iff _).2 hnothing)
  obtain ⟨key, node⟩ := p
  obtain rfl : key = _ := hkey
  obtain rfl : node = _ := hvalue
  refine readsSoundly_of_scalar rfl fun b hb => ?_
  have hip : (CString.ofBytes (ascii ['i', 'p'])).bytes = ascii ['i', 'p'] := by decide
  simp only [Cursor.bind, Cursor.user, if_pos hip] at hb
  obtain ⟨ip, -, rfl⟩ := Option.map_eq_some_iff.1 hb
  simp [Binding.Sound, Binding.path, bytes_filedName hnul hlen]

theorem PoolPair.readsSoundly {p : Node × Node} (h : PoolPair p) :
    ReadsSoundly parse .pool [.value (ascii ['p', 'o', 'o', 'l'])] [p] := by
  rcases h with hnothing | ⟨hkey, value, hvalue⟩
  · exact readsSoundly_of_passed (silent_pool_iff.2 hnothing)
  obtain ⟨key, node⟩ := p
  obtain rfl : node = _ := hvalue
  rcases hkey with hkey | hkey <;> obtain rfl : key = _ := hkey
  · exact readsSoundly_of_scalar rfl fun b hb => by obtain rfl := Option.some.inj hb; rfl
  · exact readsSoundly_of_scalar rfl fun b hb => by obtain rfl := Option.some.inj hb; rfl

theorem UsersPair.readsSoundly {p : Node × Node} (h : UsersPair parse p) :
    ReadsSoundly parse .users [.value (ascii ['u', 's', 'e', 'r', 's'])] [p] := by
  rcases h with hpassed | ⟨name, pairs, hkey, hvalue, hpairs⟩
  · exact readsSoundly_of_passed hpassed
  obtain ⟨key, node⟩ := p
  obtain rfl : key = _ := hkey
  obtain rfl : node = _ := hvalue
  refine readsSoundly_of_map rfl rfl (readsSoundly_of_forall fun q hq => ?_) rfl
  exact (hpairs q hq).readsSoundly

theorem RootPair.readsSoundly {p : Node × Node} (h : RootPair parse p) :
    ReadsSoundly parse .root [] [p] := by
  have husers : (Cursor.root.next (.scalar (ascii ['u', 's', 'e', 'r', 's']))).next
      .mappingStart = .users := by
    decide
  have hpool : (Cursor.root.next (.scalar (ascii ['p', 'o', 'o', 'l']))).next
      .mappingStart = .pool := by
    decide
  obtain ⟨key, node⟩ := p
  rcases h with hpassed | ⟨pairs, hkey, hvalue, hpairs⟩ | ⟨pairs, hkey, hvalue, hpairs⟩
  · exact readsSoundly_of_passed hpassed
  · obtain rfl : key = _ := hkey
    obtain rfl : node = _ := hvalue
    refine readsSoundly_of_map rfl husers (readsSoundly_of_forall fun q hq => ?_) rfl
    exact (hpairs q hq).readsSoundly
  · obtain rfl : key = _ := hkey
    obtain rfl : node = _ := hvalue
    refine readsSoundly_of_map rfl hpool (readsSoundly_of_forall fun q hq => ?_) rfl
    exact (hpairs q hq).readsSoundly

/-- The address of a binding. -/
def Binding.ip : Binding → Option Host
  | user _ ip => some ip
  | poolStart ip | poolEnd ip => ip

end Cupp
