import Cupp.Bindings
import Cupp.Sections

/-!
# Documents of the documented part load exactly

For a document of the documented part the loader returns 0, the table has the last address
given for each name, and the endpoints are the last ones given (`load_exact`). Keys are read
as C strings, up to their first NUL, so a key that says `ip` before its first NUL gives an
address as well (`not_load_exact`).
-/

namespace Cupp

/-! ## What a document says -/

namespace PolicyDocument

/-- The values given for a user with the key `ip`, where `isKey` says how keys are read. -/
def ipValues (isKey : List UInt8 → List UInt8 → Bool) (document : PolicyDocument)
    (name : CString) : List (List UInt8) :=
  document.flatMap fun
    | .users entries => entries.flatMap fun entry =>
      if entry.1 = name.bytes then
        (entry.2.pairs.filter fun p => isKey p.1 (ascii ['i', 'p'])).map Prod.snd
      else []
    | _ => []

/-- The values given with a key of the pool section. -/
def poolValues (isKey : List UInt8 → List UInt8 → Bool) (document : PolicyDocument)
    (key : List UInt8) : List (List UInt8) :=
  document.flatMap fun
    | .pool pairs => (pairs.filter fun p => isKey p.1 key).map Prod.snd
    | _ => []

/-- The names of users. -/
def names (document : PolicyDocument) : List (List UInt8) :=
  document.flatMap fun
    | .users entries => entries.map Prod.fst
    | _ => []

/-- User names have at most 255 bytes and no NUL. -/
def ShortNames (document : PolicyDocument) : Prop :=
  ∀ name ∈ document.names, 0 ∉ name ∧ name.length ≤ 255

instance (document : PolicyDocument) : Decidable document.ShortNames :=
  inferInstanceAs (Decidable (∀ name ∈ document.names, 0 ∉ name ∧ name.length ≤ 255))

end PolicyDocument

/-- The key is the text. -/
def isExactly (key text : List UInt8) : Bool :=
  key = text

/-- The document loads, with the last address given for each name that parses, as many names as
have one, and the last endpoints given. -/
def LoadsExactly (parse : CString → Option Host) (isKey : List UInt8 → List UInt8 → Bool)
    (document : PolicyDocument) : Prop :=
  ∃ loader, yamlLoadPolicy parse (some document.node.stream) = (0, loader) ∧
    (∀ name, loader.fixed.lookup name =
      ((document.ipValues isKey name).filterMap (parseValue parse)).getLast?) ∧
    loader.fixed.count =
      {name | (document.ipValues isKey name).filterMap (parseValue parse) ≠ []}.ncard ∧
    loader.poolStart =
      (document.poolValues isKey (ascii ['s', 't', 'a', 'r', 't'])).getLast?.bind
        (parseValue parse) ∧
    loader.poolEnd =
      (document.poolValues isKey (ascii ['e', 'n', 'd'])).getLast?.bind (parseValue parse)

/-! ## Bindings of the documented part -/

variable (parse : CString → Option Host)

/-- The addresses that the mapping of a user binds for a name. -/
theorem addresses_of_pairs (user name : CString) (pairs : ScalarPairs) :
    ((Cursor.user user).bindings parse pairs).filterMap (Binding.addressOf name) =
      if user = name then
        ((pairs.filter fun p => isAsCString p.1 (ascii ['i', 'p'])).map Prod.snd).filterMap
          (parseValue parse)
      else [] := by
  rw [Cursor.bindings, List.filterMap_filterMap]
  split_ifs with hname
  · rw [List.filterMap_map, List.filterMap_filter]
    refine List.filterMap_congr fun p _ => ?_
    cases hval : parse (.ofBytes p.2) <;>
      simp [Cursor.bind, Cursor.user, isAsCString, parseValue, hname, hval, Binding.addressOf,
        apply_ite (Option.bind · (Binding.addressOf name))]
  · rw [List.filterMap_eq_nil_iff]
    intro p _
    cases hval : parse (.ofBytes p.2) <;>
      simp [Cursor.bind, Cursor.user, hname, hval, Binding.addressOf,
        apply_ite (Option.bind · (Binding.addressOf name))]

/-- A name of at most 255 bytes without a NUL is filed as it is. -/
theorem filedName_eq_iff {raw : List UInt8} (hnul : 0 ∉ raw) (hlen : raw.length ≤ 255)
    (name : CString) : filedName raw = name ↔ raw = name.bytes := by
  have hbytes := bytes_filedName hnul hlen
  constructor
  · rintro rfl
    exact hbytes.symm
  · exact fun h => CString.ext (hbytes.trans h)

/-- The addresses that a document binds for a name. -/
theorem addresses_of_document {document : PolicyDocument} (hnames : document.ShortNames)
    (name : CString) : (bindings parse document.node).filterMap (Binding.addressOf name) =
      (document.ipValues isAsCString name).filterMap (parseValue parse) := by
  rw [bindings_node, PolicyDocument.ipValues, List.filterMap_flatMap, List.filterMap_flatMap]
  refine List.flatMap_congr fun sec hsec => ?_
  cases sec with
  | users entries =>
    simp only [Section.bindings, List.filterMap_flatMap]
    refine List.flatMap_congr fun entry hentry => ?_
    obtain ⟨hnul, hlen⟩ := hnames entry.1
      (List.mem_flatMap.2 ⟨_, hsec, List.mem_map_of_mem hentry⟩)
    rw [addresses_of_pairs, if_congr (filedName_eq_iff hnul hlen name) rfl rfl]
    split_ifs <;> rfl
  | pool pairs =>
    simp only [Section.bindings, Cursor.bindings, List.filterMap_filterMap, List.filterMap_nil]
    rw [List.filterMap_eq_nil_iff]
    intro p _
    simp only [Cursor.bind, Cursor.pool]
    split_ifs <;> rfl
  | other key value => rfl

/-- The values of `start` in a pool section are the first addresses it binds. -/
theorem starts_of_pairs (pairs : ScalarPairs) :
    (Cursor.pool.bindings parse pairs).filterMap Binding.start =
      ((pairs.filter fun p => isAsCString p.1 (ascii ['s', 't', 'a', 'r', 't'])).map
        Prod.snd).map (parseValue parse) := by
  rw [Cursor.bindings, List.filterMap_filterMap, List.map_map, ← List.filterMap_eq_map,
    List.filterMap_filter]
  refine List.filterMap_congr fun p _ => ?_
  simp only [Cursor.bind, Cursor.pool, isAsCString, decide_eq_true_eq]
  split_ifs <;> rfl

theorem stops_of_pairs (pairs : ScalarPairs) :
    (Cursor.pool.bindings parse pairs).filterMap Binding.stop =
      ((pairs.filter fun p => isAsCString p.1 (ascii ['e', 'n', 'd'])).map Prod.snd).map
        (parseValue parse) := by
  have hne : ascii ['s', 't', 'a', 'r', 't'] ≠ ascii ['e', 'n', 'd'] := by decide
  rw [Cursor.bindings, List.filterMap_filterMap, List.map_map, ← List.filterMap_eq_map,
    List.filterMap_filter]
  refine List.filterMap_congr fun p _ => ?_
  simp only [Cursor.bind, Cursor.pool, isAsCString, decide_eq_true_eq]
  split_ifs with hstart hend hend
  · exact absurd (hstart.symm.trans hend) hne
  · rfl
  · rfl
  · rfl

/-- The mapping of a user sets no endpoint. -/
theorem noEnds_of_pairs (user : CString) (pairs : ScalarPairs) :
    ∀ b ∈ (Cursor.user user).bindings parse pairs, b.start = none ∧ b.stop = none := by
  intro b hb
  obtain ⟨p, -, hp⟩ := List.mem_filterMap.1 hb
  simp only [Cursor.bind, Cursor.user] at hp
  split_ifs at hp
  obtain ⟨ip, -, rfl⟩ := Option.map_eq_some_iff.1 hp
  exact ⟨rfl, rfl⟩

/-- What the documents sets an endpoint to, where `f` picks the bindings of the endpoint. -/
theorem ends_of_document (document : PolicyDocument) {f : Binding → Option (Option Host)}
    {key : List UInt8} (hpool : ∀ pairs, (Cursor.pool.bindings parse pairs).filterMap f =
      ((pairs.filter fun p => isAsCString p.1 key).map Prod.snd).map (parseValue parse))
    (husers : ∀ user pairs, ∀ b ∈ (Cursor.user user).bindings parse pairs, f b = none) :
    (bindings parse document.node).filterMap f =
      (document.poolValues isAsCString key).map (parseValue parse) := by
  rw [bindings_node, PolicyDocument.poolValues, List.filterMap_flatMap, List.map_flatMap]
  refine List.flatMap_congr fun sec _ => ?_
  cases sec with
  | users entries =>
    simp only [Section.bindings, List.map_nil]
    rw [List.filterMap_eq_nil_iff]
    intro b hb
    obtain ⟨entry, -, hb⟩ := List.mem_flatMap.1 hb
    exact husers _ _ b hb
  | pool pairs => exact hpool pairs
  | other key value => rfl

/-- The endpoint is the last value given for it. -/
theorem getLast?_map_getD (values : List (List UInt8)) :
    ((values.map (parseValue parse)).getLast?).getD none =
      values.getLast?.bind (parseValue parse) := by
  rw [List.getLast?_map]
  cases values.getLast? <;> rfl

/-! ## Loading -/

/-- The table has the last address given for the name. -/
theorem lookup_document {document : PolicyDocument} (hnames : document.ShortNames)
    (name : CString) :
    (Snapshot.empty.putAll (bindings parse document.node)).fixed.lookup name =
      ((document.ipValues isAsCString name).filterMap (parseValue parse)).getLast? := by
  rw [Snapshot.lookup_putAll, addresses_of_document parse hnames]
  exact Option.or_none

/-- The first address of the pool is the last value of `start` in the document. -/
theorem poolStart_document (document : PolicyDocument) :
    (Snapshot.empty.putAll (bindings parse document.node)).poolStart =
      (document.poolValues isAsCString (ascii ['s', 't', 'a', 'r', 't'])).getLast?.bind
        (parseValue parse) := by
  rw [Snapshot.poolStart_putAll, ends_of_document parse document (starts_of_pairs parse)
    fun user pairs b hb => (noEnds_of_pairs parse user pairs b hb).1]
  exact getLast?_map_getD parse _

/-- The last address is the last value of `end`. -/
theorem poolEnd_document (document : PolicyDocument) :
    (Snapshot.empty.putAll (bindings parse document.node)).poolEnd =
      (document.poolValues isAsCString (ascii ['e', 'n', 'd'])).getLast?.bind
        (parseValue parse) := by
  rw [Snapshot.poolEnd_putAll, ends_of_document parse document (stops_of_pairs parse)
    fun user pairs b hb => (noEnds_of_pairs parse user pairs b hb).2]
  exact getLast?_map_getD parse _

/-- A document of the documented part loads exactly, with keys read as C strings. -/
theorem load_exact {document : PolicyDocument} (hnames : document.ShortNames) :
    LoadsExactly parse isAsCString document := by
  obtain ⟨loader, hload, hsnapshot⟩ := yamlLoadPolicy_stream parse document.node
  have hfixed := congrArg Snapshot.fixed hsnapshot
  have hlookup (name : CString) : loader.fixed.lookup name =
      ((document.ipValues isAsCString name).filterMap (parseValue parse)).getLast? := by
    rw [← lookup_document parse hnames, ← hfixed]
    rfl
  have hcounted : loader.fixed.Counted := by
    have hput := Snapshot.counted_putAll Snapshot.counted_empty (bindings parse document.node)
    rwa [← hfixed] at hput
  refine ⟨loader, hload, hlookup, ?_, ?_, ?_⟩
  · rw [hcounted.count_eq]
    congr 1
    ext name
    rw [Set.mem_ofPred_eq, Set.mem_ofPred_eq, hlookup, List.getLast?_isSome]
  · exact (congrArg Snapshot.poolStart hsnapshot).trans (poolStart_document parse document)
  · exact (congrArg Snapshot.poolEnd hsnapshot).trans (poolEnd_document parse document)

/-- `a` is given in two sections, and has an invalid address as well. `b` has none. -/
def repeatedUser : PolicyDocument :=
  [.users [(ascii ['a'], .mapping [(ascii ['i', 'p'], addressText '1'), (ascii ['i', 'p'], [])]),
      (ascii ['b'], .scalar (addressText '2'))],
    .pool [(ascii ['s', 't', 'a', 'r', 't'], addressText '5'), (ascii ['x'], addressText '6')],
    .users [(ascii ['a'], .mapping [(ascii ['i', 'p'], addressText '3')])]]

theorem load_exact_of_repeated : ∃ loader,
    yamlLoadPolicy tenNetFromString (some repeatedUser.node.stream) = (0, loader) ∧
    loader.fixed.lookup (letter 'a') = some (tenNet 3) ∧ loader.poolStart = some (tenNet 5) := by
  obtain ⟨loader, hload, hlookup, -, hstart, -⟩ :=
    load_exact tenNetFromString (by decide : repeatedUser.ShortNames)
  have ha : ((repeatedUser.ipValues isAsCString (letter 'a')).filterMap
      (parseValue tenNetFromString)).getLast? = some (tenNet 3) := by
    decide
  have hs : (repeatedUser.poolValues isAsCString (ascii ['s', 't', 'a', 'r', 't'])).getLast?.bind
      (parseValue tenNetFromString) = some (tenNet 5) := by
    decide
  exact ⟨loader, hload, (hlookup _).trans ha, hstart.trans hs⟩

/-- The key `ip` with a NUL behind it gives `a` an address. -/
theorem not_load_exact : ¬∀ document : PolicyDocument, document.ShortNames →
    LoadsExactly tenNetFromString isExactly document := by
  intro hall
  obtain ⟨loader, hload, hlookup, -⟩ :=
    hall [.users [(ascii ['a'], .mapping [(ascii ['i', 'p'] ++ [0, 120], addressText '1')])]]
      (by decide)
  have hloaded := congrArg (fun r => r.2.fixed.lookup (letter 'a')) hload
  rw [hlookup (letter 'a')] at hloaded
  exact absurd hloaded (by decide)

end Cupp
