import Cupp.Documents
import Cupp.PolicyEngine
import Cupp.Lib.Emitter
import Mathlib.Data.Set.Card

/-!
# What the loader binds

The event loop of `yaml_load_policy` is a machine : where it is in the document as far as it
knows (`Cursor`), and what it binds on its way (`Binding`), an address of a user or an endpoint
of the pool. The table and the endpoints it leaves are those bindings put in one after the
other (`snapshotLoad_stream`). So what the loader makes of a document is said by the bindings
of the machine on the document's events, and the table is read off them : the last address
bound for a name counts.
-/

namespace Cupp

/-! ## The machine -/

/-- The variables of the event loop. -/
structure Cursor where
  st : LoaderState
  pending : Option CString
  curUser : CString
  deriving DecidableEq

/-- What an event puts into the table or the endpoints. -/
inductive Binding
  | user (name : CString) (ip : Host)
  | poolStart (ip : Option Host)
  | poolEnd (ip : Option Host)
  deriving DecidableEq

namespace Cursor

/-- What an event does to the cursor. -/
def next (c : Cursor) : YamlEvent → Cursor
  | .mappingStart =>
    match c.st, c.pending with
    | .top, some key =>
      { c with
        st := if key.bytes = ascii ['u', 's', 'e', 'r', 's'] then .users
          else if key.bytes = ascii ['p', 'o', 'o', 'l'] then .pool
          else .top
        pending := none }
    | .users, some key => ⟨.user, none, .ofBytes (key.bytes.take 255)⟩
    | _, _ => c
  | .mappingEnd =>
    match c.st with
    | .user => { c with st := .users, curUser := .ofBytes [] }
    | .users | .pool => { c with st := .top }
    | .top => c
  | .scalar value => { c with pending := if c.pending.isNone then some (.ofBytes value) else none }
  | _ => c

/-- What a key binds to its scalar value. -/
def bind (parse : CString → Option Host) (c : Cursor) (key val : CString) : Option Binding :=
  match c.st with
  | .user => if key.bytes = ascii ['i', 'p'] then (parse val).map (.user c.curUser) else none
  | .pool =>
    if key.bytes = ascii ['s', 't', 'a', 'r', 't'] then some (.poolStart (parse val))
    else if key.bytes = ascii ['e', 'n', 'd'] then some (.poolEnd (parse val))
    else none
  | _ => none

/-- What an event binds. Only the scalar that completes a pair may bind something. -/
def emit (parse : CString → Option Host) (c : Cursor) : YamlEvent → Option Binding
  | .scalar value => c.pending.bind fun key => c.bind parse key (.ofBytes value)
  | _ => none

/-- At the root, in a section with users, in the pool section and in the mapping of a user, with
nothing pending. -/
def root : Cursor :=
  ⟨.top, none, .ofBytes []⟩

/-- Between the users of a users section. -/
def users : Cursor :=
  ⟨.users, none, .ofBytes []⟩

/-- Between the pairs of a pool section. -/
def pool : Cursor :=
  ⟨.pool, none, .ofBytes []⟩

/-- Between the pairs of a user's mapping. -/
def user (name : CString) : Cursor :=
  ⟨.user, none, name⟩

end Cursor

/-- The event loop as a machine. -/
def reader (parse : CString → Option Host) : Emitter Cursor YamlEvent Binding :=
  ⟨Cursor.next, Cursor.emit parse⟩

namespace Snapshot

/-- The snapshot before anything is loaded. -/
def empty : Snapshot :=
  ⟨.create, none, none⟩

/-- What a binding does to the snapshot. -/
def put (s : Snapshot) : Binding → Snapshot
  | .user name ip => { s with fixed := s.fixed.add name ip }
  | .poolStart ip => { s with poolStart := ip }
  | .poolEnd ip => { s with poolEnd := ip }

/-- Bindings in the order of the document. -/
def putAll (s : Snapshot) (bs : List Binding) : Snapshot :=
  bs.foldl put s

end Snapshot

/-- The events of a stream before its end. -/
def beforeEnd (events : List YamlEvent) : List YamlEvent :=
  events.takeWhile (· ≠ .streamEnd)

theorem streamEnd_notMem_beforeEnd (events : List YamlEvent) :
    YamlEvent.streamEnd ∉ beforeEnd events := fun h => by
  simpa using List.mem_takeWhile_imp h

theorem beforeEnd_append_streamEnd {events : List YamlEvent} (h : YamlEvent.streamEnd ∉ events) :
    beforeEnd (events ++ [.streamEnd]) = events := by
  have hpos (e : YamlEvent) (he : e ∈ events) : decide (e ≠ .streamEnd) = true :=
    decide_eq_true fun heq => h (heq ▸ he)
  rw [beforeEnd, List.takeWhile_append_of_pos hpos, List.takeWhile_cons_of_neg (by simp),
    List.append_nil]

/-! ## The loader follows the machine -/

namespace Loader

/-- Where the loader is in the document. -/
def cursor (this : Loader) : Cursor :=
  ⟨this.st, this.pending, this.curUser⟩

/-- What the loader has loaded so far. -/
def snapshot (this : Loader) : Snapshot :=
  ⟨this.fixed, this.poolStart, this.poolEnd⟩

variable (parse : CString → Option Host)

theorem cursor_pair (this : Loader) (key val : CString) :
    (this.pair parse key val).cursor = this.cursor := by
  unfold pair
  split
  · split_ifs
    · split <;> rfl
    · rfl
  · split_ifs <;> rfl
  · rfl

theorem snapshot_pair (this : Loader) (key val : CString) : (this.pair parse key val).snapshot =
    ((this.cursor.bind parse key val).toList.foldl Snapshot.put this.snapshot) := by
  cases hst : this.st with
  | user =>
    by_cases hip : key.bytes = ascii ['i', 'p']
    · cases hval : parse val <;>
        simp [pair, Cursor.bind, cursor, hst, hip, hval, snapshot, Snapshot.put]
    · simp [pair, Cursor.bind, cursor, hst, hip]
  | pool =>
    by_cases hstart : key.bytes = ascii ['s', 't', 'a', 'r', 't']
    · simp [pair, Cursor.bind, cursor, hst, hstart, snapshot, Snapshot.put]
    · by_cases hend : key.bytes = ascii ['e', 'n', 'd']
      · have hne : ascii ['e', 'n', 'd'] ≠ ascii ['s', 't', 'a', 'r', 't'] := by decide
        simp [pair, Cursor.bind, cursor, hst, hend, hne, snapshot, Snapshot.put]
      · simp [pair, Cursor.bind, cursor, hst, hstart, hend]
  | top | users => simp [pair, Cursor.bind, cursor, hst]

/-- An event moves the loader's cursor. -/
theorem cursor_onEvent (this : Loader) (e : YamlEvent) :
    (this.onEvent parse e).cursor = (reader parse).next this.cursor e := by
  cases e with
  | mappingStart =>
    cases hst : this.st <;> cases hpending : this.pending <;>
      simp [onEvent, mappingStart, reader, Cursor.next, cursor, hst, hpending]
  | mappingEnd =>
    cases hst : this.st <;> simp [onEvent, mappingEnd, reader, Cursor.next, cursor, hst]
  | scalar value =>
    cases hpending : this.pending with
    | none => simp [onEvent, scalar, reader, Cursor.next, cursor, hpending]
    | some key =>
      have hpair := this.cursor_pair parse key (.ofBytes value)
      simp only [cursor, Cursor.mk.injEq] at hpair
      simp [onEvent, scalar, reader, Cursor.next, cursor, hpending, hpair]
  | _ => rfl

/-- An event loads what it binds at the cursor. -/
theorem snapshot_onEvent (this : Loader) (e : YamlEvent) : (this.onEvent parse e).snapshot =
    ((reader parse).emit this.cursor e).toList.foldl Snapshot.put this.snapshot := by
  cases e with
  | mappingStart =>
    cases hst : this.st <;> cases hpending : this.pending <;>
      simp [onEvent, mappingStart, reader, Cursor.emit, snapshot, hst, hpending]
  | mappingEnd =>
    cases hst : this.st <;> simp [onEvent, mappingEnd, reader, Cursor.emit, snapshot, hst]
  | scalar value =>
    cases hpending : this.pending with
    | none => simp [onEvent, scalar, reader, Cursor.emit, cursor, snapshot, hpending]
    | some key =>
      have hpair := this.snapshot_pair parse key (.ofBytes value)
      simp only [onEvent, scalar, hpending, reader, Cursor.emit, cursor, Option.bind_some]
        at hpair ⊢
      exact hpair
  | _ => rfl

/-- The loop reads up to the end of the stream, or to the end of the events. -/
theorem parseEvents_eq (this : Loader) (events : List YamlEvent) :
    this.parseEvents parse events = (decide (.streamEnd ∈ events),
      (beforeEnd events).foldl (onEvent parse) this) := by
  induction events generalizing this with
  | nil => rfl
  | cons e events ih =>
    cases e with
    | streamEnd => simp [parseEvents, beforeEnd]
    | _ => simp [parseEvents, beforeEnd, ih]

/-- Reading events into an empty loader puts in what the machine emits. -/
theorem snapshot_foldl (events : List YamlEvent) :
    (events.foldl (onEvent parse) .init).snapshot =
      Snapshot.empty.putAll ((reader parse).emitted .root events) :=
  (Emitter.foldl_eq (cursor_onEvent parse) (snapshot_onEvent parse) .init events).2

end Loader

/-! ## Loading a document -/

variable (parse : CString → Option Host)

/-- What the machine binds on a document. -/
def bindings (document : Node) : List Binding :=
  (reader parse).emitted .root document.events

/-- A load succeeds iff the stream has an end, and reads what comes before it. -/
theorem yamlLoadPolicy_some (events : List YamlEvent) : yamlLoadPolicy parse (some events) =
    (if YamlEvent.streamEnd ∈ events then 0 else -1,
      (beforeEnd events).foldl (Loader.onEvent parse) .init) := by
  simp only [yamlLoadPolicy, Loader.parseEvents_eq]
  by_cases h : YamlEvent.streamEnd ∈ events <;> simp [h]

/-- A stream that is read to its end makes a snapshot of what the machine binds. -/
theorem snapshotLoad_some (events : List YamlEvent) : snapshotLoad parse (some events) =
    if YamlEvent.streamEnd ∈ events then
      some (Snapshot.empty.putAll
        ((reader parse).emitted .root (beforeEnd events)))
    else none := by
  unfold snapshotLoad
  rw [yamlLoadPolicy_some]
  by_cases h : YamlEvent.streamEnd ∈ events
  · rw [if_pos h, if_pos h, ← Loader.snapshot_foldl]
    rfl
  · rw [if_neg h, if_neg h]
    rfl

/-- A file with one document loads, and the snapshot is what the machine binds. -/
theorem yamlLoadPolicy_stream (document : Node) : ∃ loader,
    yamlLoadPolicy parse (some document.stream) = (0, loader) ∧
      loader.snapshot = Snapshot.empty.putAll (bindings parse document) := by
  have hnot : YamlEvent.streamEnd ∉
      YamlEvent.streamStart :: .documentStart :: (document.events ++ [.documentEnd]) := by
    simp [document.streamEnd_notMem]
  have hstream : document.stream = YamlEvent.streamStart :: .documentStart ::
      (document.events ++ [.documentEnd]) ++ [.streamEnd] := by
    simp [Node.stream]
  have hload := yamlLoadPolicy_some parse document.stream
  rw [hstream, beforeEnd_append_streamEnd hnot, if_pos (by simp), ← hstream] at hload
  refine ⟨_, hload, ?_⟩
  rw [Loader.snapshot_foldl]
  simp [bindings, reader, Cursor.next, Cursor.emit, Cursor.root]

/-- A document loads into a snapshot of its bindings. -/
theorem snapshotLoad_stream (document : Node) : snapshotLoad parse (some document.stream) =
    some (Snapshot.empty.putAll (bindings parse document)) := by
  obtain ⟨loader, hload, hsnapshot⟩ := yamlLoadPolicy_stream parse document
  simp only [snapshotLoad, hload]
  exact congrArg some hsnapshot

/-! ## The table and the endpoints -/

namespace Binding

/-- The address that is bound for a name. -/
def addressOf (name : CString) : Binding → Option Host
  | user n ip => if n = name then some ip else none
  | _ => none

/-- What the start of the pool is set to. -/
def start : Binding → Option (Option Host)
  | poolStart ip => some ip
  | _ => none

/-- What the end of the pool is set to. -/
def stop : Binding → Option (Option Host)
  | poolEnd ip => some ip
  | _ => none

end Binding

/-- The number kept is that of the names in the table. -/
def FixedPool.Counted (this : FixedPool) : Prop :=
  this.count = this.users.keys.card

/-- A binding of a user keeps the count. -/
theorem FixedPool.Counted.add {fixed : FixedPool} (h : fixed.Counted) (name : CString)
    (ip : Host) : (fixed.add name ip).Counted := by
  unfold Counted at h ⊢
  simp only [FixedPool.add, Hashtable.keys_insert]
  cases hget : fixed.users.get name with
  | none =>
    have hnew : name ∉ fixed.users.keys := mt Finmap.mem_keys.1 (Finmap.lookup_eq_none.1 hget)
    simp [Finset.card_insert_of_notMem hnew, h]
  | some ip' =>
    have hold : name ∈ fixed.users.keys := Finmap.mem_keys.2 (Hashtable.mem_of_get hget)
    simp [Finset.insert_eq_of_mem hold, h]

/-- The number of names that have an address. -/
theorem FixedPool.Counted.count_eq {fixed : FixedPool} (h : fixed.Counted) :
    fixed.count = {name | (fixed.lookup name).isSome = true}.ncard := by
  have hset : {name | (fixed.lookup name).isSome = true} = (fixed.users.keys : Set CString) := by
    ext name
    rw [Set.mem_ofPred_eq, Finset.mem_coe, Finmap.mem_keys, FixedPool.lookup, Hashtable.get,
      Finmap.lookup_isSome]
  rw [h, hset, Set.ncard_coe_finset]

namespace Snapshot

@[simp] theorem putAll_append (s : Snapshot) (bs bs' : List Binding) :
    s.putAll (bs ++ bs') = (s.putAll bs).putAll bs' :=
  List.foldl_append

/-- A binding of a user takes the place of earlier ones. -/
theorem lookup_put (s : Snapshot) (b : Binding) (name : CString) :
    (s.put b).fixed.lookup name = (b.addressOf name).or (s.fixed.lookup name) := by
  cases b with
  | user n ip =>
    rcases eq_or_ne n name with rfl | hne
    · simp [put, Binding.addressOf, FixedPool.lookup, FixedPool.add]
    · simp [put, Binding.addressOf, FixedPool.lookup, FixedPool.add, hne, hne.symm]
  | poolStart | poolEnd => rfl

/-- The last address bound for a name is in the table. -/
theorem lookup_putAll (s : Snapshot) (bs : List Binding) (name : CString) :
    (s.putAll bs).fixed.lookup name =
      (bs.filterMap (Binding.addressOf name)).getLast?.or (s.fixed.lookup name) := by
  induction bs using List.reverseRecOn with
  | nil => rfl
  | append_singleton bs b ih =>
    have hput : s.putAll (bs ++ [b]) = (s.putAll bs).put b := putAll_append s bs [b]
    rw [hput, lookup_put, ih, List.filterMap_append]
    cases hb : b.addressOf name <;> simp [hb]

/-- The last binding of the first address counts. -/
theorem poolStart_putAll (s : Snapshot) (bs : List Binding) :
    (s.putAll bs).poolStart = (bs.filterMap Binding.start).getLast?.getD s.poolStart := by
  induction bs using List.reverseRecOn with
  | nil => rfl
  | append_singleton bs b ih =>
    have hput : s.putAll (bs ++ [b]) = (s.putAll bs).put b := putAll_append s bs [b]
    rw [hput, List.filterMap_append]
    cases b <;> simp [put, Binding.start, ih]

/-- The last binding of the last address counts. -/
theorem poolEnd_putAll (s : Snapshot) (bs : List Binding) :
    (s.putAll bs).poolEnd = (bs.filterMap Binding.stop).getLast?.getD s.poolEnd := by
  induction bs using List.reverseRecOn with
  | nil => rfl
  | append_singleton bs b ih =>
    have hput : s.putAll (bs ++ [b]) = (s.putAll bs).put b := putAll_append s bs [b]
    rw [hput, List.filterMap_append]
    cases b <;> simp [put, Binding.stop, ih]

theorem counted_putAll {s : Snapshot} (h : s.fixed.Counted) (bs : List Binding) :
    (s.putAll bs).fixed.Counted := by
  induction bs generalizing s with
  | nil => exact h
  | cons b bs ih =>
    refine ih ?_
    cases b with
    | user name ip => exact h.add name ip
    | poolStart | poolEnd => exact h

theorem counted_empty : empty.fixed.Counted := by
  simp [FixedPool.Counted, empty, FixedPool.create]

end Snapshot

/-! ## Reading the documented part -/

/-- A value read as an address. -/
def parseValue (value : List UInt8) : Option Host :=
  parse (.ofBytes value)

/-- The key is the text up to its first NUL. -/
def isAsCString (key text : List UInt8) : Bool :=
  (CString.ofBytes key).bytes = text

/-- The name under which the loader files a user : up to its first NUL, and at most 255 bytes. -/
def filedName (name : List UInt8) : CString :=
  .ofBytes ((CString.ofBytes name).bytes.take 255)

theorem bytes_filedName {name : List UInt8} (hnul : 0 ∉ name) (hlen : name.length ≤ 255) :
    (filedName name).bytes = name := by
  have hbytes := CString.ofBytes_of_noNul hnul
  rw [filedName, hbytes, List.take_of_length_le hlen, hbytes]

/-- The pairs of a user's mapping. -/
def UserValue.pairs : UserValue → ScalarPairs
  | .scalar _ => []
  | .mapping pairs => pairs

/-- What the pairs of a mapping bind at a cursor. -/
def Cursor.bindings (c : Cursor) (pairs : ScalarPairs) :
    List Binding :=
  pairs.filterMap fun p => c.bind parse (.ofBytes p.1) (.ofBytes p.2)

/-- What a section of a document binds. -/
def Section.bindings : Section → List Binding
  | users entries => entries.flatMap fun entry =>
      (Cursor.user (filedName entry.1)).bindings parse entry.2.pairs
  | pool pairs => Cursor.pool.bindings parse pairs
  | other _ _ => []

@[simp] theorem reader_next (c : Cursor) (e : YamlEvent) : (reader parse).next c e = c.next e :=
  rfl

@[simp] theorem reader_emit (c : Cursor) (e : YamlEvent) :
    (reader parse).emit c e = c.emit parse e :=
  rfl

/-- A mapping of scalars is read without moving. -/
theorem read_scalarPairs {c : Cursor} (hc : c.pending = none) (pairs : ScalarPairs) :
    (reader parse).final c (pairsEvents pairs.nodes) = c ∧
      (reader parse).emitted c (pairsEvents pairs.nodes) = c.bindings parse pairs := by
  induction pairs with
  | nil => exact ⟨rfl, rfl⟩
  | cons p pairs ih =>
    obtain ⟨st, pending, curUser⟩ := c
    obtain rfl : pending = none := hc
    obtain ⟨hfinal, hemitted⟩ := ih
    have hcons : pairsEvents (ScalarPairs.nodes (p :: pairs)) =
        .scalar p.1 :: .scalar p.2 :: pairsEvents (ScalarPairs.nodes pairs) :=
      rfl
    refine ⟨?_, ?_⟩
    · simpa [hcons, Cursor.next] using hfinal
    · have hbind : Cursor.bind parse ⟨st, some (.ofBytes p.1), curUser⟩ (.ofBytes p.1)
          (.ofBytes p.2) = Cursor.bind parse ⟨st, none, curUser⟩ (.ofBytes p.1) (.ofBytes p.2) :=
        rfl
      rw [Cursor.bindings] at hemitted
      rw [Cursor.bindings, List.filterMap_cons, ← hbind]
      cases hb : Cursor.bind parse ⟨st, some (.ofBytes p.1), curUser⟩ (.ofBytes p.1)
          (.ofBytes p.2) <;> simp [hcons, Cursor.next, Cursor.emit, hemitted, hb]

/-- A key with a mapping below it is read if the mapping is. -/
theorem read_mapping {c c₁ c₂ : Cursor} {key : List UInt8} {pairs : List (Node × Node)}
    {bs : List Binding} (hpending : c.pending = none)
    (hopen : (c.next (.scalar key)).next .mappingStart = c₁)
    (hfinal : (reader parse).final c₁ (pairsEvents pairs) = c₁)
    (hemitted : (reader parse).emitted c₁ (pairsEvents pairs) = bs)
    (hclose : c₁.next .mappingEnd = c₂) :
    (reader parse).final c (.scalar key :: (Node.map pairs).events) = c₂ ∧
      (reader parse).emitted c (.scalar key :: (Node.map pairs).events) = bs := by
  refine ⟨?_, ?_⟩
  · rw [Node.events, Emitter.final_cons, Emitter.final_cons, Emitter.final_append, reader_next,
      reader_next, hopen, hfinal]
    exact hclose
  · rw [Node.events, Emitter.emitted_cons, Emitter.emitted_cons, Emitter.emitted_append,
      reader_next, reader_next, hopen, hemitted]
    simp [Cursor.emit, hpending]

/-- A name with what stands below it is read without moving. -/
theorem read_entry (name : List UInt8) (value : UserValue) :
    (reader parse).final .users (.scalar name :: value.node.events) = .users ∧
      (reader parse).emitted .users (.scalar name :: value.node.events) =
        (Cursor.user (filedName name)).bindings parse value.pairs := by
  cases value with
  | scalar v => exact ⟨rfl, rfl⟩
  | mapping pairs =>
    have hpending : (Cursor.user (filedName name)).pending = none := rfl
    obtain ⟨hfinal, hemitted⟩ := read_scalarPairs parse hpending pairs
    exact read_mapping parse rfl rfl hfinal hemitted rfl

/-- Reading the entries of a users section. -/
theorem read_entries (entries : List (List UInt8 × UserValue)) :
    (reader parse).final .users (pairsEvents (Section.nodes entries)) = .users ∧
      (reader parse).emitted .users (pairsEvents (Section.nodes entries)) =
        (Section.users entries).bindings parse := by
  induction entries with
  | nil => exact ⟨rfl, rfl⟩
  | cons entry entries ih =>
    obtain ⟨hfinal, hemitted⟩ := read_entry parse entry.1 entry.2
    have hcons : pairsEvents (Section.nodes (entry :: entries)) =
        (.scalar entry.1 :: entry.2.node.events) ++ pairsEvents (Section.nodes entries) :=
      rfl
    refine ⟨?_, ?_⟩
    · rw [hcons, Emitter.final_append, hfinal, ih.1]
    · rw [hcons, Emitter.emitted_append, hfinal, hemitted, ih.2]
      rfl

/-- Reading a section, from the root mapping back to it. -/
theorem read_section (sec : Section) :
    (reader parse).final .root (sec.pair.1.events ++ sec.pair.2.events) = .root ∧
      (reader parse).emitted .root (sec.pair.1.events ++ sec.pair.2.events) =
        sec.bindings parse := by
  cases sec with
  | users entries =>
    obtain ⟨hfinal, hemitted⟩ := read_entries parse entries
    have hopen : (Cursor.root.next (.scalar (ascii ['u', 's', 'e', 'r', 's']))).next
        .mappingStart = .users := by
      decide
    exact read_mapping parse rfl hopen hfinal hemitted rfl
  | pool pairs =>
    have hpending : Cursor.pool.pending = none := rfl
    obtain ⟨hfinal, hemitted⟩ := read_scalarPairs parse hpending pairs
    have hopen : (Cursor.root.next (.scalar (ascii ['p', 'o', 'o', 'l']))).next
        .mappingStart = .pool := by
      decide
    exact read_mapping parse rfl hopen hfinal hemitted rfl
  | other key value => exact ⟨rfl, rfl⟩

/-- Reading all sections. -/
theorem read_sections (document : PolicyDocument) :
    (reader parse).final .root (pairsEvents (document.map Section.pair)) = .root ∧
      (reader parse).emitted .root (pairsEvents (document.map Section.pair)) =
        document.flatMap (Section.bindings parse) := by
  induction document with
  | nil => exact ⟨rfl, rfl⟩
  | cons sec document ih =>
    obtain ⟨hfinal, hemitted⟩ := read_section parse sec
    have hcons : pairsEvents ((sec :: document).map Section.pair) =
        (sec.pair.1.events ++ sec.pair.2.events) ++ pairsEvents (document.map Section.pair) := by
      rw [List.append_assoc]
      rfl
    refine ⟨?_, ?_⟩
    · rw [hcons, Emitter.final_append, hfinal, ih.1]
    · rw [hcons, Emitter.emitted_append, hfinal, hemitted, ih.2, List.flatMap_cons]

/-- What the machine binds on a mapping at the root. -/
theorem bindings_map (pairs : List (Node × Node)) :
    bindings parse (.map pairs) = (reader parse).emitted .root (pairsEvents pairs) := by
  have hopen : Cursor.root.next .mappingStart = .root := rfl
  rw [bindings, Node.events, Emitter.emitted_cons, Emitter.emitted_append, reader_next, hopen]
  simp [Cursor.emit]

/-- A document of the documented part binds what its sections bind. -/
theorem bindings_node (document : PolicyDocument) :
    bindings parse document.node = document.flatMap (Section.bindings parse) := by
  rw [PolicyDocument.node, bindings_map, (read_sections parse document).2]

end Cupp
