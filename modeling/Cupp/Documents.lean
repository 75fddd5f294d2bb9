import Cupp.YamlLoader

/-!
# Policy documents

A YAML document is a tree (`Node`), and the parser delivers its events in order
(`Node.events`), within those of the stream (`Node.stream`). `Node.located` keeps with every
event the path at which it stands, so `ScalarAt` says that a scalar is the value at a path of
keys.

The documented part of YAML are sections with users, sections with the endpoints of the pool,
and keys with scalar values that mean nothing (`PolicyDocument`).
-/

namespace Cupp

/-! ## Documents -/

/-- A node of a document. An alias stands for itself, as it does for the parser. -/
inductive Node
  | scalar (value : List UInt8)
  | alias
  | seq (items : List Node)
  | map (pairs : List (Node × Node))

mutual

/-- The events of a node, in the order in which the parser delivers them. -/
def Node.events : Node → List YamlEvent
  | .scalar value => [.scalar value]
  | .alias => [.alias]
  | .seq items => .sequenceStart :: (itemsEvents items ++ [.sequenceEnd])
  | .map pairs => .mappingStart :: (pairsEvents pairs ++ [.mappingEnd])

/-- The events of the items of a sequence. -/
def itemsEvents : List Node → List YamlEvent
  | [] => []
  | item :: items => item.events ++ itemsEvents items

/-- The events of the pairs of a mapping, each key before its value. -/
def pairsEvents : List (Node × Node) → List YamlEvent
  | [] => []
  | (key, value) :: pairs => key.events ++ (value.events ++ pairsEvents pairs)

end

/-- The events of a file with one document. -/
def Node.stream (document : Node) : List YamlEvent :=
  .streamStart :: .documentStart :: (document.events ++ [.documentEnd, .streamEnd])

/-! ## Paths -/

/-- A step down a tree : to the value of a key that is a scalar, to that key, to any other key
or its value, or to an item. -/
inductive PathStep
  | value (key : List UInt8)
  | key
  | other
  | item
  deriving DecidableEq

/-- The step to the value of a key. -/
def Node.step : Node → PathStep
  | .scalar key => .value key
  | _ => .other

mutual

/-- The events with the paths at which they stand. -/
def Node.located (path : List PathStep) : Node → List (List PathStep × YamlEvent)
  | .scalar value => [(path, .scalar value)]
  | .alias => [(path, .alias)]
  | .seq items => (path, .sequenceStart) :: (itemsLocated path items ++ [(path, .sequenceEnd)])
  | .map pairs => (path, .mappingStart) :: (pairsLocated path pairs ++ [(path, .mappingEnd)])

/-- The events of the items of a sequence, each with the path of its node. -/
def itemsLocated (path : List PathStep) : List Node → List (List PathStep × YamlEvent)
  | [] => []
  | item :: items => item.located (path ++ [.item]) ++ itemsLocated path items

/-- The events of the pairs of a mapping, each with the path of its node. -/
def pairsLocated (path : List PathStep) : List (Node × Node) → List (List PathStep × YamlEvent)
  | [] => []
  | (key, value) :: pairs => key.located (path ++ [.key]) ++
      (value.located (path ++ [key.step]) ++ pairsLocated path pairs)

end

mutual

/-- Without the paths these are the events. -/
theorem Node.map_snd_located (path : List PathStep) :
    (n : Node) → (n.located path).map Prod.snd = n.events
  | .scalar _ => rfl
  | .alias => rfl
  | .seq items => by simp [Node.located, Node.events, map_snd_itemsLocated path items]
  | .map pairs => by simp [Node.located, Node.events, map_snd_pairsLocated path pairs]

theorem map_snd_itemsLocated (path : List PathStep) :
    (items : List Node) → (itemsLocated path items).map Prod.snd = itemsEvents items
  | [] => rfl
  | item :: items => by
    simp [itemsLocated, itemsEvents, item.map_snd_located, map_snd_itemsLocated path items]

theorem map_snd_pairsLocated (path : List PathStep) :
    (pairs : List (Node × Node)) → (pairsLocated path pairs).map Prod.snd = pairsEvents pairs
  | [] => rfl
  | (key, value) :: pairs => by
    simp [pairsLocated, pairsEvents, key.map_snd_located, value.map_snd_located,
      map_snd_pairsLocated path pairs]

end

mutual

/-- No node ends the stream. -/
theorem Node.streamEnd_notMem : (n : Node) → YamlEvent.streamEnd ∉ n.events
  | .scalar _ => by simp [Node.events]
  | .alias => by simp [Node.events]
  | .seq items => by simp [Node.events, streamEnd_notMem_items items]
  | .map pairs => by simp [Node.events, streamEnd_notMem_pairs pairs]

theorem streamEnd_notMem_items : (items : List Node) → YamlEvent.streamEnd ∉ itemsEvents items
  | [] => by simp [itemsEvents]
  | item :: items => by
    simp [itemsEvents, item.streamEnd_notMem, streamEnd_notMem_items items]

theorem streamEnd_notMem_pairs :
    (pairs : List (Node × Node)) → YamlEvent.streamEnd ∉ pairsEvents pairs
  | [] => by simp [pairsEvents]
  | (key, value) :: pairs => by
    simp [pairsEvents, key.streamEnd_notMem, value.streamEnd_notMem, streamEnd_notMem_pairs pairs]

end

@[simp] theorem pairsEvents_append (pairs pairs' : List (Node × Node)) :
    pairsEvents (pairs ++ pairs') = pairsEvents pairs ++ pairsEvents pairs' := by
  induction pairs with
  | nil => rfl
  | cons pair pairs ih => simp [pairsEvents, ih]

/-! ## The documented part -/

/-- Keys and values of a mapping of scalars. -/
abbrev ScalarPairs := List (List UInt8 × List UInt8)

/-- Scalars as the pairs of a mapping. -/
def ScalarPairs.nodes (pairs : ScalarPairs) : List (Node × Node) :=
  pairs.map fun p => (.scalar p.1, .scalar p.2)

/-- What stands below the name of a user. -/
inductive UserValue
  | scalar (value : List UInt8)
  | mapping (pairs : ScalarPairs)

/-- What stands for a user : an address, or a mapping with one. -/
def UserValue.node : UserValue → Node
  | .scalar value => .scalar value
  | .mapping pairs => .map pairs.nodes

/-- What stands below the root. -/
inductive Section
  | users (entries : List (List UInt8 × UserValue))
  | pool (pairs : ScalarPairs)
  | other (key value : List UInt8)

namespace Section

/-- The names of users with what stands below them. -/
def nodes (entries : List (List UInt8 × UserValue)) : List (Node × Node) :=
  entries.map fun entry => (.scalar entry.1, entry.2.node)

/-- A section as a pair of the root mapping. -/
def pair : Section → Node × Node
  | users entries => (.scalar (ascii ['u', 's', 'e', 'r', 's']), .map (nodes entries))
  | pool pairs => (.scalar (ascii ['p', 'o', 'o', 'l']), .map pairs.nodes)
  | other key value => (.scalar key, .scalar value)

end Section

/-- The part of a document that the README describes : sections one after another. -/
abbrev PolicyDocument := List Section

/-- The root mapping of its sections. -/
def PolicyDocument.node (document : PolicyDocument) : Node :=
  .map (document.map Section.pair)

end Cupp
