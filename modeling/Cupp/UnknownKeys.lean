import Cupp.Bindings
import Cupp.Sections
import Mathlib.Algebra.Group.Nat.Even

/-!
# Unknown keys

A pair that means nothing may stand in the root mapping, in the mapping of a user and in the
pool section. The loader has no depth, and one pending key, so a node below an unknown key is
read as if it stood at the place of the key. It comes out as it went in if nothing in the node
closes the mapping the loader is in, the scalars come in pairs, and none of the pairs binds
anything. Then the document loads as without the pair, wherever it is inserted, and only then
(`unknown_keys_ignored_iff`).
-/

namespace Cupp

/-! ## Nodes without a mapping -/

/-- The value of a scalar event. -/
def YamlEvent.scalar? : YamlEvent → Option (List UInt8)
  | scalar value => some value
  | _ => none

/-- The scalars of a node, keys and values alike. -/
def Node.scalars (n : Node) : List (List UInt8) :=
  n.events.filterMap YamlEvent.scalar?

/-- There is no mapping in the node. -/
def Node.Flat (n : Node) : Prop :=
  YamlEvent.mappingStart ∉ n.events

instance (n : Node) : Decidable n.Flat :=
  inferInstanceAs (Decidable (_ ∉ _))

/-- A list read as pairs. What is left over is dropped. -/
def twoByTwo : List (List UInt8) → ScalarPairs
  | [] | [_] => []
  | key :: value :: rest => (key, value) :: twoByTwo rest

/-- What is left over. -/
def leftOver : List (List UInt8) → Option (List UInt8)
  | [] => none
  | [value] => some value
  | _ :: _ :: rest => leftOver rest

/-- Nothing is left over iff the scalars come in pairs. -/
theorem leftOver_eq_none_iff (values : List (List UInt8)) :
    leftOver values = none ↔ Even values.length := by
  induction values using leftOver.induct with
  | case1 => simp [leftOver]
  | case2 => simp [leftOver]
  | case3 _ _ rest ih => simpa [leftOver, Nat.even_add_one, parity_simps] using ih

mutual

/-- A node in which no mapping begins has none that ends. -/
theorem Node.mappingEnd_notMem : (n : Node) → YamlEvent.mappingStart ∉ n.events →
    YamlEvent.mappingEnd ∉ n.events
  | .scalar _ => by simp [Node.events]
  | .alias => by simp [Node.events]
  | .seq items => by simpa [Node.events] using mappingEnd_notMem_items items
  | .map pairs => by simp [Node.events]

theorem mappingEnd_notMem_items : (items : List Node) →
    YamlEvent.mappingStart ∉ itemsEvents items → YamlEvent.mappingEnd ∉ itemsEvents items
  | [] => by simp [itemsEvents]
  | item :: items => by
    simp only [itemsEvents, List.mem_append, not_or]
    exact And.imp item.mappingEnd_notMem (mappingEnd_notMem_items items)

end

variable (parse : CString → Option Host)

/-- Where no mapping opens or closes, the loader reads the scalars. -/
theorem read_flat {es : List YamlEvent} (hstart : YamlEvent.mappingStart ∉ es)
    (hend : YamlEvent.mappingEnd ∉ es) (c : Cursor) :
    (reader parse).final c es =
      (reader parse).final c ((es.filterMap YamlEvent.scalar?).map .scalar) ∧
    (reader parse).emitted c es =
      (reader parse).emitted c ((es.filterMap YamlEvent.scalar?).map .scalar) := by
  induction es generalizing c with
  | nil => exact ⟨rfl, rfl⟩
  | cons e es ih =>
    rw [List.mem_cons, not_or] at hstart hend
    obtain ⟨hfinal, hemitted⟩ := ih hstart.2 hend.2 (c.next e)
    cases e with
    | mappingStart => exact absurd rfl hstart.1
    | mappingEnd => exact absurd rfl hend.1
    | scalar value => simp [YamlEvent.scalar?, hfinal, hemitted]
    | _ => exact ih hstart.2 hend.2 c

/-- Scalars are read two by two, and what is left over is pending. -/
theorem read_scalars (st : LoaderState) (curUser : CString) (values : List (List UInt8)) :
    (reader parse).final ⟨st, none, curUser⟩ (values.map .scalar) =
      ⟨st, (leftOver values).map .ofBytes, curUser⟩ ∧
    (reader parse).emitted ⟨st, none, curUser⟩ (values.map .scalar) =
      Cursor.bindings parse ⟨st, none, curUser⟩ (twoByTwo values) := by
  induction values using twoByTwo.induct with
  | case1 => exact ⟨rfl, rfl⟩
  | case2 value => exact ⟨rfl, rfl⟩
  | case3 key value rest ih =>
    obtain ⟨hfinal, hemitted⟩ := ih
    obtain ⟨hpairFinal, hpair⟩ := read_scalarPairs parse
      (rfl : (Cursor.mk st none curUser).pending = none) [(key, value)]
    have hevents : (key :: value :: rest).map YamlEvent.scalar =
        pairsEvents (ScalarPairs.nodes [(key, value)]) ++ rest.map .scalar :=
      rfl
    refine ⟨?_, ?_⟩
    · rw [hevents, Emitter.final_append, hpairFinal, hfinal, leftOver]
    · rw [hevents, Emitter.emitted_append, hpairFinal, hpair, hemitted, twoByTwo]
      exact (List.filterMap_append ..).symm

variable {n m : Node}

/-- Two nodes without a mapping are read two by two. -/
theorem read_flatNodes (hn : n.Flat) (hm : m.Flat) (st : LoaderState) (curUser : CString) :
    (reader parse).final ⟨st, none, curUser⟩ (n.events ++ m.events) =
      ⟨st, (leftOver (n.scalars ++ m.scalars)).map .ofBytes, curUser⟩ ∧
    (reader parse).emitted ⟨st, none, curUser⟩ (n.events ++ m.events) =
      Cursor.bindings parse ⟨st, none, curUser⟩ (twoByTwo (n.scalars ++ m.scalars)) := by
  have hstart : YamlEvent.mappingStart ∉ n.events ++ m.events :=
    List.not_mem_append hn hm
  have hend : YamlEvent.mappingEnd ∉ n.events ++ m.events :=
    List.not_mem_append (n.mappingEnd_notMem hn) (m.mappingEnd_notMem hm)
  have hscalars : (n.events ++ m.events).filterMap YamlEvent.scalar? = n.scalars ++ m.scalars :=
    List.filterMap_append
  obtain ⟨hfinal, hemitted⟩ := read_flat parse hstart hend ⟨st, none, curUser⟩
  rw [hscalars] at hfinal hemitted
  obtain ⟨hfinal', hemitted'⟩ := read_scalars parse st curUser (n.scalars ++ m.scalars)
  exact ⟨hfinal.trans hfinal', hemitted.trans hemitted'⟩

/-- Two by two, no pair of scalars binds anything, and none is left over. -/
theorem silent_flat_iff (hn : n.Flat) (hm : m.Flat) (st : LoaderState) (curUser : CString) :
    (reader parse).Silent ⟨st, none, curUser⟩ (n.events ++ m.events) ⟨st, none, curUser⟩ ↔
      Even (n.scalars ++ m.scalars).length ∧
        Cursor.bindings parse ⟨st, none, curUser⟩ (twoByTwo (n.scalars ++ m.scalars)) = [] := by
  obtain ⟨hfinal, hemitted⟩ := read_flatNodes parse hn hm st curUser
  rw [← leftOver_eq_none_iff]
  constructor
  · intro h
    have heq := hfinal.symm.trans h.final_eq
    rw [Cursor.mk.injEq, Option.map_eq_none_iff] at heq
    exact ⟨heq.2.1, hemitted.symm.trans h.emitted_eq⟩
  · rintro ⟨h, hbindings⟩
    refine ⟨hfinal.trans ?_, hemitted.trans hbindings⟩
    rw [h, Option.map_none]

/-! ## Levels -/

/-- How deep the loader takes itself to be. -/
def LoaderState.level : LoaderState → ℕ
  | top => 0
  | users | pool => 1
  | user => 2

theorem level_mappingStart (c : Cursor) : (c.next .mappingStart).st.level ≤ c.st.level + 1 := by
  obtain ⟨st, pending, curUser⟩ := c
  cases st <;> cases pending <;> simp only [Cursor.next] <;> try split_ifs
  all_goals decide

theorem level_mappingEnd (c : Cursor) : (c.next .mappingEnd).st.level = c.st.level - 1 := by
  obtain ⟨st, pending, curUser⟩ := c
  cases st <;> rfl

mutual

/-- What a node opens it closes again. -/
theorem Node.level_le : (n : Node) → (c : Cursor) →
    ((reader parse).final c n.events).st.level ≤ c.st.level
  | .scalar _, c => by simp [Node.events, Cursor.next]
  | .alias, c => by simp [Node.events, Cursor.next]
  | .seq items, c => by
    simpa [Node.events, Cursor.next] using level_le_items items c
  | .map pairs, c => by
    have hstart := level_mappingStart c
    have hpairs := level_le_pairs pairs (c.next .mappingStart)
    simp only [Node.events, Emitter.final_cons, Emitter.final_append, Emitter.final_nil,
      reader_next, level_mappingEnd]
    omega

theorem level_le_items : (items : List Node) → (c : Cursor) →
    ((reader parse).final c (itemsEvents items)).st.level ≤ c.st.level
  | [], _ => le_rfl
  | item :: items, c => by
    rw [itemsEvents, Emitter.final_append]
    exact (level_le_items items _).trans (item.level_le c)

theorem level_le_pairs : (pairs : List (Node × Node)) → (c : Cursor) →
    ((reader parse).final c (pairsEvents pairs)).st.level ≤ c.st.level
  | [], _ => le_rfl
  | (key, value) :: pairs, c => by
    rw [pairsEvents, Emitter.final_append, Emitter.final_append]
    exact (level_le_pairs pairs _).trans ((value.level_le _).trans (key.level_le c))

end

/-- Without a mapping the loader stays where it is. -/
theorem st_of_flat {es : List YamlEvent} (hstart : YamlEvent.mappingStart ∉ es)
    (hend : YamlEvent.mappingEnd ∉ es) (c : Cursor) : ((reader parse).final c es).st = c.st := by
  induction es generalizing c with
  | nil => rfl
  | cons e es ih =>
    rw [List.mem_cons, not_or] at hstart hend
    rw [Emitter.final_cons, ih hstart.2 hend.2]
    cases e with
    | mappingStart => exact absurd rfl hstart.1
    | mappingEnd => exact absurd rfl hend.1
    | _ => rfl

mutual

/-- A mapping that the loader does not open closes the one it is in. -/
theorem Node.level_lt : (n : Node) → (c : Cursor) → c.st = .user ∨ c.st = .pool →
    YamlEvent.mappingStart ∈ n.events →
    ((reader parse).final c n.events).st.level < c.st.level
  | .scalar _, c, _, h => by simp [Node.events] at h
  | .alias, c, _, h => by simp [Node.events] at h
  | .seq items, c, hst, h => by
    have hitems : YamlEvent.mappingStart ∈ itemsEvents items := by simpa [Node.events] using h
    simpa [Node.events, Cursor.next] using level_lt_items items c hst hitems
  | .map pairs, c, hst, _ => by
    have hstart : c.next .mappingStart = c := by
      rcases hst with hst | hst <;> simp [Cursor.next, hst]
    have hpos : 0 < c.st.level := by
      rcases hst with hst | hst <;> simp [hst, LoaderState.level]
    have hpairs := level_le_pairs parse pairs c
    simp only [Node.events, Emitter.final_cons, Emitter.final_append, Emitter.final_nil,
      reader_next, level_mappingEnd, hstart]
    omega

theorem level_lt_items : (items : List Node) → (c : Cursor) → c.st = .user ∨ c.st = .pool →
    YamlEvent.mappingStart ∈ itemsEvents items →
    ((reader parse).final c (itemsEvents items)).st.level < c.st.level
  | [], c, _, h => by simp [itemsEvents] at h
  | item :: items, c, hst, h => by
    rw [itemsEvents, Emitter.final_append]
    by_cases hitem : YamlEvent.mappingStart ∈ item.events
    · exact (level_le_items parse items _).trans_lt (item.level_lt c hst hitem)
    · have hsame := st_of_flat parse hitem (item.mappingEnd_notMem hitem) c
      have hitems : YamlEvent.mappingStart ∈ itemsEvents items := by
        simpa [itemsEvents, hitem] using h
      have hlt := level_lt_items items _ (hsame.symm ▸ hst) hitems
      rwa [hsame] at hlt

end

/-- Outside of the mapping of a user there is no current user. -/
def Cursor.Tidy (c : Cursor) : Prop :=
  c.st ≠ .user → c.curUser = .ofBytes []

/-- An event keeps the cursor tidy. -/
theorem Cursor.Tidy.next {c : Cursor} (h : c.Tidy) (e : YamlEvent) : (c.next e).Tidy := by
  obtain ⟨st, pending, curUser⟩ := c
  cases e with
  | mappingStart =>
    cases st <;> cases pending <;> simp_all [Tidy, Cursor.next]
  | mappingEnd => cases st <;> simp_all [Tidy, Cursor.next]
  | _ => exact h

theorem Cursor.Tidy.final {c : Cursor} (h : c.Tidy) (es : List YamlEvent) :
    ((reader parse).final c es).Tidy := by
  induction es generalizing c with
  | nil => exact h
  | cons e es ih => exact ih (h.next e)

/-! ## Pairs in the mapping of a user and in a pool section -/

/-- After a node with a mapping the loader is no longer where it was. -/
theorem level_lt_pair {c : Cursor} (hst : c.st = .user ∨ c.st = .pool) (h : ¬(n.Flat ∧ m.Flat)) :
    ((reader parse).final c (n.events ++ m.events)).st.level < c.st.level := by
  rw [Emitter.final_append]
  by_cases hn : n.Flat
  · have hm : YamlEvent.mappingStart ∈ m.events := by simpa [Node.Flat] using not_and.1 h hn
    have hsame := st_of_flat parse hn (n.mappingEnd_notMem hn) c
    have hlt := m.level_lt parse ((reader parse).final c n.events) (hsame.symm ▸ hst) hm
    rwa [hsame] at hlt
  · have hn' : YamlEvent.mappingStart ∈ n.events := by simpa [Node.Flat] using hn
    exact (m.level_le parse _).trans_lt (n.level_lt parse c hst hn')

/-- What goes by in such a mapping without a trace has no mapping in it. -/
theorem flat_of_silent {c : Cursor} (hst : c.st = .user ∨ c.st = .pool)
    (h : (reader parse).Silent c (n.events ++ m.events) c) : n.Flat ∧ m.Flat := by
  by_contra hflat
  have hlt := level_lt_pair parse hst hflat
  rw [h.final_eq] at hlt
  exact hlt.false

variable {parse}

/-- A pair that gives a user no address binds nothing. -/
theorem bind_user_eq_none_iff (name k v : CString) : (Cursor.user name).bind parse k v = none ↔
    (k.bytes = ascii ['i', 'p'] → parse v = none) := by
  unfold Cursor.bind Cursor.user
  dsimp only
  split_ifs with hip <;> simp [hip]

/-- A pair binds nothing in a pool section iff it is neither `start` nor `end`. -/
theorem bind_pool_eq_none_iff (k v : CString) : Cursor.pool.bind parse k v = none ↔
    k.bytes ≠ ascii ['s', 't', 'a', 'r', 't'] ∧ k.bytes ≠ ascii ['e', 'n', 'd'] := by
  unfold Cursor.bind Cursor.pool
  dsimp only
  split_ifs with hstart hend <;> simp [*]

/-- In the mapping of a user and in a pool section the loader passes a pair iff there is no mapping
in it, and its scalars come two by two and bind nothing. -/
theorem silent_innermost_iff {st : LoaderState} (hst : st = .user ∨ st = .pool)
    (curUser : CString) :
    (reader parse).Silent ⟨st, none, curUser⟩ (n.events ++ m.events) ⟨st, none, curUser⟩ ↔
      n.Flat ∧ m.Flat ∧ Even (n.scalars ++ m.scalars).length ∧
        Cursor.bindings parse ⟨st, none, curUser⟩ (twoByTwo (n.scalars ++ m.scalars)) = [] := by
  constructor
  · intro h
    obtain ⟨hn, hm⟩ := flat_of_silent parse hst h
    exact ⟨hn, hm, (silent_flat_iff parse hn hm st curUser).1 h⟩
  · rintro ⟨hn, hm, hpairs⟩
    exact (silent_flat_iff parse hn hm st curUser).2 hpairs

/-- The loader passes a pair in the mapping of a user iff there is no mapping in the pair, and among
its scalars, read two by two, there is no `ip` with a valid address. -/
theorem silent_user_iff (name : CString) :
    (reader parse).Silent (.user name) (n.events ++ m.events) (.user name) ↔
      n.Flat ∧ m.Flat ∧ Even (n.scalars ++ m.scalars).length ∧
        ∀ p ∈ twoByTwo (n.scalars ++ m.scalars),
          isAsCString p.1 (ascii ['i', 'p']) = true → parseValue parse p.2 = none := by
  have hbindings (pairs : ScalarPairs) : Cursor.bindings parse (.user name) pairs = [] ↔
      ∀ p ∈ pairs,
        isAsCString p.1 (ascii ['i', 'p']) = true → parseValue parse p.2 = none := by
    simp only [Cursor.bindings, List.filterMap_eq_nil_iff, bind_user_eq_none_iff, isAsCString,
      decide_eq_true_eq, parseValue]
  rw [← hbindings]
  exact silent_innermost_iff (.inl rfl) name

/-- And it passes one in a pool section iff there is no mapping in the pair, and no `start` or `end`
among its scalars. -/
theorem silent_pool_iff : (reader parse).Silent .pool (n.events ++ m.events) .pool ↔
    n.Flat ∧ m.Flat ∧ Even (n.scalars ++ m.scalars).length ∧
      ∀ p ∈ twoByTwo (n.scalars ++ m.scalars),
        isAsCString p.1 (ascii ['s', 't', 'a', 'r', 't']) = false ∧
        isAsCString p.1 (ascii ['e', 'n', 'd']) = false := by
  have hbindings (pairs : ScalarPairs) : Cursor.bindings parse .pool pairs = [] ↔
      ∀ p ∈ pairs,
        isAsCString p.1 (ascii ['s', 't', 'a', 'r', 't']) = false ∧
        isAsCString p.1 (ascii ['e', 'n', 'd']) = false := by
    simp only [Cursor.bindings, List.filterMap_eq_nil_iff, bind_pool_eq_none_iff, isAsCString,
      decide_eq_false_iff_not, ne_eq]
  rw [← hbindings]
  exact silent_innermost_iff (.inr rfl) (.ofBytes [])

/-! ## Where no section opens -/

/-- The scalar names a section. -/
def isSection (value : List UInt8) : Bool :=
  isAsCString value (ascii ['u', 's', 'e', 'r', 's']) ||
    isAsCString value (ascii ['p', 'o', 'o', 'l'])

/-- No mapping opens, or no scalar names a section. -/
def Sectionless (es : List YamlEvent) : Prop :=
  .mappingStart ∉ es ∨ ∀ value ∈ es.filterMap YamlEvent.scalar?, isSection value = false

instance (es : List YamlEvent) : Decidable (Sectionless es) :=
  inferInstanceAs (Decidable (_ ∨ _))

/-- How many scalars come after the last mapping that opens. -/
def trailingScalars (es : List YamlEvent) : ℕ :=
  ((es.reverse.takeWhile (· ≠ .mappingStart)).filterMap YamlEvent.scalar?).length

theorem Sectionless.of_append {es es' : List YamlEvent} (h : Sectionless (es ++ es')) :
    Sectionless es := by
  refine h.imp (fun hnot hmem => hnot (List.mem_append_left _ hmem)) fun hall value hvalue => ?_
  exact hall value (by simpa using Or.inl hvalue)

/-- What is pending at the root is one of the scalars. -/
theorem pending_mem {es : List YamlEvent} {key : CString}
    (h : ((reader parse).final .root es).pending = some key) :
    ∃ value ∈ es.filterMap YamlEvent.scalar?, CString.ofBytes value = key := by
  induction es using List.reverseRecOn with
  | nil => simp [Cursor.root] at h
  | append_singleton es e ih =>
    rw [Emitter.final_append, Emitter.final_cons, Emitter.final_nil, reader_next] at h
    generalize hc : (reader parse).final .root es = c at h ih
    obtain ⟨st, pending, curUser⟩ := c
    have hold (hp : pending = some key) :
        ∃ value ∈ (es ++ [e]).filterMap YamlEvent.scalar?, CString.ofBytes value = key := by
      obtain ⟨value, hvalue, heq⟩ := ih hp
      exact ⟨value, by simpa using Or.inl hvalue, heq⟩
    cases e with
    | scalar value =>
      cases pending with
      | none => exact ⟨value, by simp [YamlEvent.scalar?], Option.some.inj h⟩
      | some key' => simp [Cursor.next] at h
    | mappingStart =>
      cases st <;> cases pending <;> simp only [Cursor.next] at h <;>
        first | exact hold h | simp at h
    | mappingEnd => cases st <;> exact hold h
    | _ => exact hold h

/-- As long as no section opens, the loader stays at the root and binds nothing. What is pending is
a scalar after the last mapping that has been opened, if their number is odd. -/
theorem read_sectionless {es : List YamlEvent} (h : Sectionless es) :
    ((reader parse).final .root es).st = .top ∧ (reader parse).emitted .root es = [] ∧
      (((reader parse).final .root es).pending = none ↔ Even (trailingScalars es)) := by
  induction es using List.reverseRecOn with
  | nil => exact ⟨rfl, rfl, by simp [trailingScalars, Cursor.root]⟩
  | append_singleton es e ih =>
    obtain ⟨hst, hemitted, hpending⟩ := ih h.of_append
    have hmem (key : CString) (hkey : ((reader parse).final .root es).pending = some key) :=
      pending_mem hkey
    rw [Emitter.final_append, Emitter.emitted_append, hemitted, List.nil_append]
    generalize (reader parse).final .root es = c at hst hpending hmem ⊢
    obtain ⟨st, pending, curUser⟩ := c
    obtain rfl : st = .top := hst
    unfold trailingScalars at hpending ⊢
    rw [List.reverse_append, List.reverse_singleton, List.singleton_append, List.takeWhile_cons]
    cases e with
    | scalar value =>
      refine ⟨rfl, ?_, ?_⟩
      · cases pending <;> simp [Cursor.emit, Cursor.bind]
      · simp only [ne_eq, reduceCtorEq, not_false_eq_true, decide_true, if_true,
          List.filterMap_cons, YamlEvent.scalar?, List.length_cons, Nat.even_add_one]
        rw [← hpending]
        cases pending <;> simp [Cursor.next]
    | mappingStart =>
      refine ⟨?_, rfl, ?_⟩
      · cases hp : pending with
        | none => rfl
        | some key =>
          obtain ⟨value, hvalue, rfl⟩ := hmem key hp
          have hname : isSection value = false := by
            refine h.resolve_left (by simp) value ?_
            simpa using Or.inl hvalue
          simp only [isSection, isAsCString, Bool.or_eq_false_iff, decide_eq_false_iff_not] at hname
          change (Cursor.next ⟨.top, some (.ofBytes value), curUser⟩ .mappingStart).st = .top
          simp only [Cursor.next, if_neg hname.1, if_neg hname.2]
      · cases pending <;> simp [Cursor.next]
    | mappingEnd => exact ⟨rfl, rfl, hpending⟩
    | _ => exact ⟨rfl, rfl, hpending⟩

/-- Then it passes the events iff that number is even. -/
theorem silent_root_iff {es : List YamlEvent} (h : Sectionless es) :
    (reader parse).Silent .root es .root ↔ Even (trailingScalars es) := by
  obtain ⟨hst, hemitted, hpending⟩ : ((reader parse).final .root es).st = .top ∧ _ :=
    read_sectionless h
  have hroot : Cursor.root.Tidy := fun _ => rfl
  have htidy := hroot.final parse es
  rw [← hpending]
  constructor
  · intro hsilent
    rw [hsilent.final_eq]
    rfl
  · intro hnone
    refine ⟨?_, hemitted⟩
    generalize (reader parse).final .root es = c at hst htidy hnone ⊢
    obtain ⟨st, pending, curUser⟩ := c
    obtain rfl : st = .top := hst
    obtain rfl : pending = none := hnone
    obtain rfl : curUser = .ofBytes [] := htidy (by simp)
    rfl

variable (parse)

/-! ## Where a pair may stand -/

/-- A place in a document of the documented part at which a pair may be inserted : in the root
mapping, in the mapping of a user or in a pool section. -/
inductive Place
  | root (before after : PolicyDocument)
  | user (before after : PolicyDocument) (usersBefore usersAfter : List (List UInt8 × UserValue))
    (name : List UInt8) (pairsBefore pairsAfter : ScalarPairs)
  | pool (before after : PolicyDocument) (pairsBefore pairsAfter : ScalarPairs)

/-- The mappings in which there are places. -/
inductive PlaceKind
  | root
  | user
  | pool

namespace Place

/-- What a place is in : the root mapping, a user's, or a pool section. -/
def kind : Place → PlaceKind
  | root .. => .root
  | user .. => .user
  | pool .. => .pool

/-- The document with some pairs inserted. -/
def document (extra : List (Node × Node)) : Place → Node
  | root before after => .map (before.map Section.pair ++ extra ++ after.map Section.pair)
  | user before after usersBefore usersAfter name pairsBefore pairsAfter =>
    .map (before.map Section.pair ++
      (.scalar (ascii ['u', 's', 'e', 'r', 's']), .map (Section.nodes usersBefore ++
        (.scalar name, .map (pairsBefore.nodes ++ extra ++ pairsAfter.nodes)) ::
          Section.nodes usersAfter)) :: after.map Section.pair)
  | pool before after pairsBefore pairsAfter =>
    .map (before.map Section.pair ++
      (.scalar (ascii ['p', 'o', 'o', 'l']),
        .map (pairsBefore.nodes ++ extra ++ pairsAfter.nodes)) :: after.map Section.pair)

/-- The events below the root that come before the place. -/
def before : Place → List YamlEvent
  | root before _ => pairsEvents (before.map Section.pair)
  | user before _ usersBefore _ name pairsBefore _ => pairsEvents (before.map Section.pair) ++
    .scalar (ascii ['u', 's', 'e', 'r', 's']) :: .mappingStart ::
      (pairsEvents (Section.nodes usersBefore) ++
        .scalar name :: .mappingStart :: pairsEvents pairsBefore.nodes)
  | pool before _ pairsBefore _ => pairsEvents (before.map Section.pair) ++
    .scalar (ascii ['p', 'o', 'o', 'l']) :: .mappingStart :: pairsEvents pairsBefore.nodes

/-- The events below the root that come after the place. -/
def after : Place → List YamlEvent
  | root _ after => pairsEvents (after.map Section.pair)
  | user _ after _ usersAfter _ _ pairsAfter => pairsEvents pairsAfter.nodes ++
    .mappingEnd :: (pairsEvents (Section.nodes usersAfter) ++
      .mappingEnd :: pairsEvents (after.map Section.pair))
  | pool _ after _ pairsAfter => pairsEvents pairsAfter.nodes ++
    .mappingEnd :: pairsEvents (after.map Section.pair)

/-- Where the loader is at the place. -/
def cursor : Place → Cursor
  | root .. => .root
  | user _ _ _ _ name _ _ => .user (filedName name)
  | pool .. => .pool

/-- What comes before a place leads to its cursor. -/
theorem final_before (place : Place) :
    (reader parse).final .root place.before = place.cursor := by
  have hpool : (Cursor.root.next (.scalar (ascii ['p', 'o', 'o', 'l']))).next .mappingStart =
      .pool := by
    decide
  have husers : (Cursor.root.next (.scalar (ascii ['u', 's', 'e', 'r', 's']))).next
      .mappingStart = .users := by
    decide
  cases place with
  | root before after => exact (read_sections parse before).1
  | user before after usersBefore usersAfter name pairsBefore pairsAfter =>
    rw [Place.before, Emitter.final_append, (read_sections parse before).1, Emitter.final_cons,
      Emitter.final_cons, reader_next, reader_next, husers, Emitter.final_append,
      (read_entries parse usersBefore).1]
    exact (read_scalarPairs parse rfl pairsBefore).1
  | pool before after pairsBefore pairsAfter =>
    rw [Place.before, Emitter.final_append, (read_sections parse before).1, Emitter.final_cons,
      Emitter.final_cons, reader_next, reader_next, hpool]
    exact (read_scalarPairs parse rfl pairsBefore).1

/-- What a document binds with more pairs at a place. -/
theorem bindings_document (place : Place) (extra : List (Node × Node)) :
    bindings parse (place.document extra) =
      (reader parse).emitted .root (place.before ++ (pairsEvents extra ++ place.after)) := by
  cases place with
  | root before after => simp [Place.document, bindings_map, Place.before, Place.after]
  | user before after usersBefore usersAfter name pairsBefore pairsAfter =>
    simp [Place.document, bindings_map, Place.before, Place.after, pairsEvents, Node.events]
  | pool before after pairsBefore pairsAfter =>
    simp [Place.document, bindings_map, Place.before, Place.after, pairsEvents, Node.events]

end Place

/-! ## Inserting a pair -/

/-- What loading a file gives : the return code, the table and the endpoints. -/
def loadResult (file : PolicyFile) : Int × Snapshot :=
  ((yamlLoadPolicy parse file).1, (yamlLoadPolicy parse file).2.snapshot)

/-- The document loads with the pair as it does without. -/
def Ignored (key : List UInt8) (node : Node) (place : Place) : Prop :=
  loadResult parse (some (place.document [(.scalar key, node)]).stream) =
    loadResult parse (some (place.document []).stream)

/-- In the mapping of a user and in a pool section, the node has no mapping, the key and the
scalars of the node come in pairs, and none of the pairs means anything there. In the root
mapping, the loader passes the pair, read on its own from the root, without binding anything and
with nothing pending. -/
def Ignorable (key : List UInt8) (node : Node) : PlaceKind → Prop
  | .root => (reader parse).Silent .root (.scalar key :: node.events) .root
  | .user => node.Flat ∧ Odd node.scalars.length ∧ ∀ p ∈ twoByTwo (key :: node.scalars),
      isAsCString p.1 (ascii ['i', 'p']) = true → parseValue parse p.2 = none
  | .pool => node.Flat ∧ Odd node.scalars.length ∧ ∀ p ∈ twoByTwo (key :: node.scalars),
      isAsCString p.1 (ascii ['s', 't', 'a', 'r', 't']) = false ∧
      isAsCString p.1 (ascii ['e', 'n', 'd']) = false

variable {parse} {key : List UInt8} {node : Node} {place : Place}

theorem loadResult_stream (document : Node) : loadResult parse (some document.stream) =
    (0, Snapshot.empty.putAll (bindings parse document)) := by
  obtain ⟨loader, hload, hsnapshot⟩ := yamlLoadPolicy_stream parse document
  simp only [loadResult, hload, hsnapshot]

/-- The events of the pair. -/
theorem events_extra : pairsEvents [(.scalar key, node)] = .scalar key :: node.events := by
  simp [pairsEvents, Node.events]

/-- A pair is ignored iff the same is loaded with and without it. -/
theorem ignored_iff : Ignored parse key node place ↔
    Snapshot.empty.putAll ((reader parse).emitted .root
      (place.before ++ (.scalar key :: node.events ++ place.after))) =
    Snapshot.empty.putAll ((reader parse).emitted .root (place.before ++ place.after)) := by
  rw [Ignored, loadResult_stream, loadResult_stream, Prod.mk.injEq, place.bindings_document,
    place.bindings_document, events_extra]
  simp [pairsEvents]

/-- A pair that goes by without a trace is ignored. -/
theorem ignored_of_silent
    (h : (reader parse).Silent place.cursor (.scalar key :: node.events) place.cursor) :
    Ignored parse key node place := by
  rw [ignored_iff, Emitter.emitted_append, Emitter.emitted_append, Emitter.emitted_append,
    place.final_before, h.final_eq, h.emitted_eq, List.nil_append]

theorem scalars_scalar (key : List UInt8) : (Node.scalar key).scalars ++ node.scalars =
    key :: node.scalars :=
  rfl

theorem flat_scalar (key : List UInt8) : (Node.scalar key).Flat := by
  simp [Node.Flat, Node.events]

theorem even_cons_iff : Even (key :: node.scalars).length ↔ Odd node.scalars.length := by
  rw [List.length_cons, Nat.even_add_one, Nat.not_even_iff_odd]

/-- In the mapping of a user. -/
theorem ignorable_user_iff (name : CString) : Ignorable parse key node .user ↔
    (reader parse).Silent (.user name) (.scalar key :: node.events) (.user name) := by
  have hsilent : (reader parse).Silent (.user name) (.scalar key :: node.events) (.user name) ↔ _ :=
    silent_user_iff (n := .scalar key) (m := node) name
  rw [scalars_scalar, even_cons_iff] at hsilent
  exact (hsilent.trans (and_iff_right (flat_scalar key))).symm

/-- In a pool section. -/
theorem ignorable_pool_iff : Ignorable parse key node .pool ↔
    (reader parse).Silent .pool (.scalar key :: node.events) .pool := by
  have hsilent : (reader parse).Silent .pool (.scalar key :: node.events) .pool ↔ _ :=
    silent_pool_iff (n := .scalar key) (m := node)
  rw [scalars_scalar, even_cons_iff] at hsilent
  exact (hsilent.trans (and_iff_right (flat_scalar key))).symm

/-- In the root mapping, as long as the pair opens no section : the scalars after the last mapping
in it come in pairs. -/
theorem ignorable_root_iff (h : Sectionless (.scalar key :: node.events)) :
    Ignorable parse key node .root ↔ Even (trailingScalars (.scalar key :: node.events)) :=
  silent_root_iff h

/-- A list below a key that names no section is ignored if it has an odd number of scalars, and a
mapping whatever it has. -/
example : Ignorable parse (ascii ['x']) (.seq [.scalar [], .scalar [], .scalar []]) .root ∧
    ¬Ignorable parse (ascii ['x']) (.seq [.scalar [], .scalar []]) .root ∧
    Ignorable parse (ascii ['x']) (.map [(.scalar [], .scalar [])]) .root := by
  refine ⟨?_, ?_, ?_⟩ <;> rw [ignorable_root_iff (by decide)] <;> decide

/-- The condition on the node is enough at every place of the kind. -/
theorem ignored_of_ignorable (h : Ignorable parse key node place.kind) :
    Ignored parse key node place := by
  refine ignored_of_silent ?_
  cases place with
  | root => exact h
  | user _ _ _ _ name => exact (ignorable_user_iff (filedName name)).1 h
  | pool => exact ignorable_pool_iff.1 h

/-! ## Pairs that are not ignored -/

theorem exists_getLast?_of_mem {α : Type} {l : List α} {a : α} (h : a ∈ l) :
    ∃ b, l.getLast? = some b :=
  Option.isSome_iff_exists.1 (List.getLast?_isSome.2 (List.ne_nil_of_mem h))

/-- Bindings that leave an empty table and no endpoints as they are, and endpoints that are
given, are none. -/
theorem eq_nil_of_putAll {bs : List Binding} {ip : Host}
    (hempty : Snapshot.empty.putAll bs = .empty)
    (hpool : (Snapshot.mk .create (some ip) (some ip)).putAll bs = ⟨.create, some ip, some ip⟩) :
    bs = [] := by
  by_contra hne
  obtain ⟨b, hb⟩ := List.exists_mem_of_ne_nil bs hne
  cases b with
  | user name ip' =>
    have hlookup := Snapshot.lookup_putAll .empty bs name
    have hmem : ip' ∈ bs.filterMap (Binding.addressOf name) :=
      List.mem_filterMap.2 ⟨_, hb, by simp [Binding.addressOf]⟩
    obtain ⟨ip'', hlast⟩ := exists_getLast?_of_mem hmem
    rw [hempty, hlast] at hlookup
    simp [Snapshot.empty, FixedPool.create, FixedPool.lookup] at hlookup
  | poolStart h =>
    have hmem : h ∈ bs.filterMap Binding.start := List.mem_filterMap.2 ⟨_, hb, rfl⟩
    obtain ⟨h', hlast⟩ := exists_getLast?_of_mem hmem
    have hstart := Snapshot.poolStart_putAll .empty bs
    have hstart' := Snapshot.poolStart_putAll ⟨.create, some ip, some ip⟩ bs
    rw [hempty, hlast] at hstart
    rw [hpool, hlast] at hstart'
    exact absurd (hstart.trans hstart'.symm) (by simp [Snapshot.empty])
  | poolEnd h =>
    have hmem : h ∈ bs.filterMap Binding.stop := List.mem_filterMap.2 ⟨_, hb, rfl⟩
    obtain ⟨h', hlast⟩ := exists_getLast?_of_mem hmem
    have hend := Snapshot.poolEnd_putAll .empty bs
    have hend' := Snapshot.poolEnd_putAll ⟨.create, some ip, some ip⟩ bs
    rw [hempty, hlast] at hend
    rw [hpool, hlast] at hend'
    exact absurd (hend.trans hend'.symm) (by simp [Snapshot.empty])

/-- The place in a mapping that is otherwise empty. -/
def PlaceKind.bare (before : PolicyDocument) : PlaceKind → Place
  | root => .root before []
  | user => .user before [] [] [] [] [] []
  | pool => .pool before [] [] []

/-- The cursor at the places of a kind, for the user without a name. -/
def PlaceKind.cursor : PlaceKind → Cursor
  | root => .root
  | user => .user (filedName [])
  | pool => .pool

theorem kind_bare (kind : PlaceKind) (before : PolicyDocument) :
    (kind.bare before).kind = kind := by
  cases kind <;> rfl

theorem cursor_bare (kind : PlaceKind) (before : PolicyDocument) :
    (kind.bare before).cursor = kind.cursor := by
  cases kind <;> rfl

theorem emitted_after_bare (kind : PlaceKind) (before : PolicyDocument) (c : Cursor) :
    (reader parse).emitted c (kind.bare before).after = [] := by
  cases kind <;> simp [PlaceKind.bare, Place.after, ScalarPairs.nodes, Section.nodes, pairsEvents,
    Cursor.emit]

theorem emitted_before_bare (kind : PlaceKind) (before : PolicyDocument) :
    (reader parse).emitted .root (kind.bare before).before =
      before.flatMap (Section.bindings parse) := by
  obtain ⟨hfinal, hemitted⟩ := read_sections parse before
  -- what comes before the mapping is opened binds nothing
  have husers : (reader parse).emitted .root [.scalar (ascii ['u', 's', 'e', 'r', 's']),
      .mappingStart, .scalar [], .mappingStart] = [] :=
    rfl
  have hpool : (reader parse).emitted .root [.scalar (ascii ['p', 'o', 'o', 'l']),
      .mappingStart] = [] :=
    rfl
  cases kind with
  | root => exact hemitted
  | user =>
    have hbefore : (PlaceKind.user.bare before).before = pairsEvents (before.map Section.pair) ++
        [.scalar (ascii ['u', 's', 'e', 'r', 's']), .mappingStart, .scalar [], .mappingStart] :=
      rfl
    rw [hbefore, Emitter.emitted_append, hfinal, hemitted, husers, List.append_nil]
  | pool =>
    have hbefore : (PlaceKind.pool.bare before).before = pairsEvents (before.map Section.pair) ++
        [.scalar (ascii ['p', 'o', 'o', 'l']), .mappingStart] :=
      rfl
    rw [hbefore, Emitter.emitted_append, hfinal, hemitted, hpool, List.append_nil]

variable {kind : PlaceKind} {good : List UInt8} {ip : Host}

/-- In a mapping that is otherwise empty the pair binds nothing that counts. -/
theorem putAll_of_ignored (hall : ∀ place : Place, place.kind = kind → Ignored parse key node place)
    (before : PolicyDocument) :
    (Snapshot.empty.putAll (before.flatMap (Section.bindings parse))).putAll
      ((reader parse).emitted kind.cursor (.scalar key :: node.events)) =
    Snapshot.empty.putAll (before.flatMap (Section.bindings parse)) := by
  have h := ignored_iff.1 (hall (kind.bare before) (kind_bare kind before))
  rw [Emitter.emitted_append, Emitter.emitted_append, Emitter.emitted_append,
    Place.final_before, cursor_bare, emitted_after_bare, emitted_after_bare, emitted_before_bare,
    List.append_nil, List.append_nil, Snapshot.putAll_append] at h
  exact h

/-- A pair that is ignored everywhere binds nothing. -/
theorem emitted_of_ignored (hgood : parseValue parse good = some ip)
    (hall : ∀ place : Place, place.kind = kind → Ignored parse key node place) :
    (reader parse).emitted kind.cursor (.scalar key :: node.events) = [] := by
  have hpool := putAll_of_ignored hall [.pool [(ascii ['s', 't', 'a', 'r', 't'], good),
    (ascii ['e', 'n', 'd'], good)]]
  have hends : Snapshot.empty.putAll (([.pool [(ascii ['s', 't', 'a', 'r', 't'], good),
      (ascii ['e', 'n', 'd'], good)]] : PolicyDocument).flatMap (Section.bindings parse)) =
      ⟨.create, some ip, some ip⟩ := by
    rw [← hgood]
    rfl
  rw [hends] at hpool
  exact eq_nil_of_putAll (putAll_of_ignored hall []) hpool

/-- The pair is noticed where the loader misses what comes after it. -/
theorem not_ignored_of_blind {c : Cursor}
    (hbefore : (reader parse).emitted .root place.before = [])
    (hextra : (reader parse).emitted place.cursor (.scalar key :: node.events) = [])
    (hfinal : (reader parse).final place.cursor (.scalar key :: node.events) = c)
    (hblind : (reader parse).emitted c place.after = [])
    (hafter : Snapshot.empty.putAll ((reader parse).emitted place.cursor place.after) ≠ .empty) :
    ¬Ignored parse key node place := by
  intro h
  rw [ignored_iff, Emitter.emitted_append, Emitter.emitted_append, Emitter.emitted_append,
    place.final_before, hbefore, hextra, hfinal, hblind] at h
  exact hafter h.symm

/-- A user with an address, and a pool with a start. -/
def goodUser (good : List UInt8) : List (List UInt8 × UserValue) :=
  [(ascii ['v'], .mapping [(ascii ['i', 'p'], good)])]

/-- A pool section that binds an address. -/
def goodStart (good : List UInt8) : ScalarPairs :=
  [(ascii ['s', 't', 'a', 'r', 't'], good)]

theorem putAll_goodUser (hgood : parseValue parse good = some ip) :
    Snapshot.empty.putAll ((Section.users (goodUser good)).bindings parse) ≠ .empty := by
  have hbindings : (Section.users (goodUser good)).bindings parse =
      [.user (filedName (ascii ['v'])) ip] := by
    have hbind : (Cursor.user (filedName (ascii ['v']))).bind parse (.ofBytes (ascii ['i', 'p']))
        (.ofBytes good) = (parseValue parse good).map (.user (filedName (ascii ['v']))) :=
      rfl
    rw [hgood] at hbind
    simp [Section.bindings, goodUser, UserValue.pairs, Cursor.bindings, hbind]
  intro h
  have hlookup := congrArg (fun s => s.fixed.lookup (filedName (ascii ['v']))) h
  rw [hbindings] at hlookup
  simp [Snapshot.putAll, Snapshot.put, FixedPool.add, FixedPool.lookup, Snapshot.empty,
    FixedPool.create] at hlookup

theorem putAll_goodStart (hgood : parseValue parse good = some ip) :
    Snapshot.empty.putAll ((Section.pool (goodStart good)).bindings parse) ≠ .empty := by
  intro h
  have hstart : parseValue parse good = none := congrArg Snapshot.poolStart h
  exact Option.some_ne_none ip (hgood.symm.trans hstart)

/-- One section at the root. -/
theorem emitted_section (sec : Section) :
    (reader parse).emitted .root (pairsEvents (List.map Section.pair [sec])) =
      sec.bindings parse :=
  (read_sections parse [sec]).2.trans (List.append_nil _)

/-- A pair ignored at all places of the root mapping goes by without a trace there. -/
theorem silent_root_of_ignored (hgood : parseValue parse good = some ip)
    (hall : ∀ place : Place, place.kind = .root → Ignored parse key node place) :
    (reader parse).Silent .root (.scalar key :: node.events) .root := by
  have hextra := emitted_of_ignored hgood hall
  have hlevel := node.level_le parse (Cursor.root.next (.scalar key))
  have hroot : Cursor.root.Tidy := fun _ => rfl
  have htidy := hroot.final parse (.scalar key :: node.events)
  refine ⟨?_, hextra⟩
  cases hc : (reader parse).final .root (.scalar key :: node.events) with
  | mk st pending curUser =>
    rw [hc] at htidy
    have hst : st = .top := by
      have hc' : (reader parse).final (Cursor.root.next (.scalar key)) node.events =
          ⟨st, pending, curUser⟩ :=
        hc
      rw [hc'] at hlevel
      have hle : st.level ≤ 0 := hlevel
      cases st <;> first | rfl | exact absurd hle (by decide)
    subst hst
    obtain rfl : curUser = .ofBytes [] := htidy (by simp)
    cases pending with
    | none => rfl
    | some p =>
      -- the key of the pool section is taken for the value of the pending key
      refine absurd (hall (.root [] [.pool (goodStart good)]) rfl)
        (not_ignored_of_blind rfl hextra hc rfl ?_)
      exact (emitted_section (.pool (goodStart good))).symm ▸ putAll_goodStart hgood

/-- Outside of the mapping of a user, the end of a mapping leads to the root, where a name means
nothing. -/
theorem blind_users {c : Cursor} (hst : c.st ≠ .user) :
    (reader parse).emitted c (.mappingEnd :: (pairsEvents (Section.nodes (goodUser good)) ++
      [.mappingEnd])) = [] := by
  obtain ⟨st, pending, curUser⟩ := c
  cases st <;> cases pending <;> first | rfl | exact absurd rfl hst

/-- At the root, an endpoint means nothing. -/
theorem blind_pool {c : Cursor} (hst : c.st = .top) :
    (reader parse).emitted c (pairsEvents (goodStart good).nodes ++ [.mappingEnd]) = [] := by
  obtain ⟨st, pending, curUser⟩ := c
  obtain rfl : st = .top := hst
  cases pending <;> rfl

/-- A pair ignored in the mappings of all users meets the condition for users. -/
theorem ignorable_user_of_ignored (hgood : parseValue parse good = some ip)
    (hall : ∀ place : Place, place.kind = .user → Ignored parse key node place) :
    Ignorable parse key node .user := by
  have hextra := emitted_of_ignored hgood hall
  have hflat : node.Flat := by
    by_contra hflat
    have hlt : ((reader parse).final (.user (filedName [])) (.scalar key :: node.events)).st.level <
        LoaderState.user.level :=
      level_lt_pair parse (.inl rfl) fun h : (Node.scalar key).Flat ∧ node.Flat => hflat h.2
    have hst : ((reader parse).final (.user (filedName [])) (.scalar key :: node.events)).st ≠
        .user :=
      fun hst => (hst ▸ hlt).false
    -- the user behind the pair is not found
    refine absurd (hall (.user [] [] [] (goodUser good) [] [] []) rfl)
      (not_ignored_of_blind rfl hextra rfl (blind_users hst) ?_)
    have hafter : (reader parse).emitted (.user (filedName []))
        (.mappingEnd :: (pairsEvents (Section.nodes (goodUser good)) ++ [.mappingEnd])) =
          (Section.users (goodUser good)).bindings parse := by
      have hend : (Cursor.user (filedName [])).next .mappingEnd = .users := rfl
      rw [Emitter.emitted_cons, reader_next, hend, Emitter.emitted_append,
        (read_entries parse (goodUser good)).2]
      exact List.append_nil _
    exact hafter ▸ putAll_goodUser hgood
  have hfinal : (reader parse).final (.user (filedName [])) (.scalar key :: node.events) =
      ⟨.user, (leftOver (key :: node.scalars)).map .ofBytes, filedName []⟩ :=
    (read_flatNodes parse (flat_scalar key) hflat .user (filedName [])).1
  cases hleft : leftOver (key :: node.scalars) with
  | none =>
    rw [hleft] at hfinal
    exact (ignorable_user_iff (filedName [])).2 ⟨hfinal, hextra⟩
  | some p =>
    rw [hleft] at hfinal
    -- the key of the pool section is taken for the value of the pending key
    refine absurd (hall (.user [] [.pool (goodStart good)] [] [] [] [] []) rfl)
      (not_ignored_of_blind rfl hextra hfinal rfl ?_)
    exact (emitted_section (.pool (goodStart good))).symm ▸ putAll_goodStart hgood

/-- A pair ignored in all pool sections meets the condition for pools. -/
theorem ignorable_pool_of_ignored (hgood : parseValue parse good = some ip)
    (hall : ∀ place : Place, place.kind = .pool → Ignored parse key node place) :
    Ignorable parse key node .pool := by
  have hextra := emitted_of_ignored hgood hall
  have hflat : node.Flat := by
    by_contra hflat
    have hlt : ((reader parse).final .pool (.scalar key :: node.events)).st.level <
        LoaderState.pool.level :=
      level_lt_pair parse (.inr rfl) fun h : (Node.scalar key).Flat ∧ node.Flat => hflat h.2
    have hst : ((reader parse).final .pool (.scalar key :: node.events)).st = .top := by
      cases hst : ((reader parse).final .pool (.scalar key :: node.events)).st <;>
        first | rfl | exact absurd (hst ▸ hlt) (by decide)
    -- the start of the pool behind the pair is not found
    refine absurd (hall (.pool [] [] [] (goodStart good)) rfl)
      (not_ignored_of_blind rfl hextra rfl (blind_pool hst) ?_)
    have hafter : (reader parse).emitted .pool
        (pairsEvents (ScalarPairs.nodes (goodStart good)) ++ [.mappingEnd]) =
          (Section.pool (goodStart good)).bindings parse := by
      rw [Emitter.emitted_append, (read_scalarPairs parse rfl (goodStart good)).2]
      exact List.append_nil _
    exact hafter ▸ putAll_goodStart hgood
  have hfinal : (reader parse).final .pool (.scalar key :: node.events) =
      ⟨.pool, (leftOver (key :: node.scalars)).map .ofBytes, .ofBytes []⟩ :=
    (read_flatNodes parse (flat_scalar key) hflat .pool (.ofBytes [])).1
  cases hleft : leftOver (key :: node.scalars) with
  | none =>
    rw [hleft] at hfinal
    exact ignorable_pool_iff.2 ⟨hfinal, hextra⟩
  | some p =>
    rw [hleft] at hfinal
    -- the key of the section with users is taken for the value of the pending key
    refine absurd (hall (.pool [] [.users (goodUser good)] [] []) rfl)
      (not_ignored_of_blind rfl hextra hfinal rfl ?_)
    exact (emitted_section (.users (goodUser good))).symm ▸ putAll_goodUser hgood

/-- A pair is ignored wherever it is inserted in a mapping of a kind if and only if it is
ignorable there. -/
theorem unknown_keys_ignored_iff (hparse : ∃ text, (parse text).isSome = true) (key : List UInt8)
    (node : Node) (kind : PlaceKind) :
    (∀ place : Place, place.kind = kind → Ignored parse key node place) ↔
      Ignorable parse key node kind := by
  obtain ⟨text, htext⟩ := hparse
  obtain ⟨ip, hip⟩ := Option.isSome_iff_exists.1 htext
  have hgood : parseValue parse text.bytes = some ip := by
    rw [parseValue, CString.ext (CString.ofBytes_of_noNul text.noNul), hip]
  constructor
  · intro hall
    cases kind with
    | root => exact silent_root_of_ignored hgood hall
    | user => exact ignorable_user_of_ignored hgood hall
    | pool => exact ignorable_pool_of_ignored hgood hall
  · rintro h place rfl
    exact ignored_of_ignorable h

/-- In the mapping of a user a scalar is ignored, and an alias is not. -/
theorem unknown_keys_ignored_of_scalar :
    (∀ place : Place, place.kind = .user →
      Ignored tenNetFromString (ascii ['x']) (.scalar (addressText '1')) place) ∧
    ¬∀ place : Place, place.kind = .user →
      Ignored tenNetFromString (ascii ['x']) .alias place := by
  have hparse : ∃ text, (tenNetFromString text).isSome = true :=
    ⟨.ofBytes (addressText '1'), by decide⟩
  refine ⟨(unknown_keys_ignored_iff hparse _ _ .user).2 ⟨by decide, by decide, by decide⟩, ?_⟩
  rw [unknown_keys_ignored_iff hparse]
  exact fun h => absurd h.2.1 (by decide)

/-- The keys that mean something. -/
def PlaceKind.keys : PlaceKind → List (List UInt8)
  | root => [ascii ['u', 's', 'e', 'r', 's'], ascii ['p', 'o', 'o', 'l']]
  | user => [ascii ['i', 'p']]
  | pool => [ascii ['s', 't', 'a', 'r', 't'], ascii ['e', 'n', 'd']]

/-- An alias at the root hides the pool. A sequence gives a user an address. And a mapping hides
the start of the pool behind it. -/
theorem not_unknown_keys_ignored :
    (¬∀ place : Place, place.kind = .root → ∀ key ∉ PlaceKind.root.keys, ∀ node,
      Ignored tenNetFromString key node place) ∧
    (¬∀ place : Place, place.kind = .user → ∀ key ∉ PlaceKind.user.keys, ∀ node,
      Ignored tenNetFromString key node place) ∧
    ¬∀ place : Place, place.kind = .pool → ∀ key ∉ PlaceKind.pool.keys, ∀ node,
      Ignored tenNetFromString key node place := by
  refine ⟨fun hall => ?_, fun hall => ?_, fun hall => ?_⟩
  · have h := hall (.root [] [.pool [(ascii ['s', 't', 'a', 'r', 't'], addressText '1')]]) rfl
      (ascii ['x']) (by decide) .alias
    exact absurd (congrArg (fun r => r.2.poolStart) h) (by decide)
  · have h := hall (.user [] [] [] [] (ascii ['a']) [] []) rfl (ascii ['x']) (by decide)
      (.seq [.scalar (ascii ['y']), .scalar (ascii ['i', 'p']), .scalar (addressText '9')])
    exact absurd (congrArg (fun r => r.2.fixed.lookup (letter 'a')) h) (by decide)
  · have h := hall (.pool [] [] [] [(ascii ['s', 't', 'a', 'r', 't'], addressText '1')]) rfl
      (ascii ['x']) (by decide) (.map [])
    exact absurd (congrArg (fun r => r.2.poolStart) h) (by decide)

end Cupp
