import Cupp.Basic

/-!
# Loading a policy

`yaml_load_policy` reads the events libyaml delivers for `policy.yaml` and fills the table
of fixed addresses (`FixedPool`) and the two endpoints of the dynamic pool. It keeps the
section it is in (`LoaderState`), the scalar waiting for its value (`pending`) and the
user whose mapping is open (`curUser`, cut to 255 bytes).

The events of a file are a list. `yaml_parser_parse` fails where the list ends before the
end of the stream, so a list without `streamEnd` is a stream that breaks off
(`parseEvents`). `host_create_from_string` is strongSwan's and a parameter.
-/

namespace Cupp

/-! ## The fixed table -/

/-- `private_fixed_pool_t` : user names with their addresses, and their number. -/
structure FixedPool where
  users : Hashtable CString Host
  count : ℕ

namespace FixedPool

/-- `fixed_pool_create`. -/
def create : FixedPool :=
  ⟨∅, 0⟩

/-- `fixed_pool_t.lookup`. -/
def lookup (this : FixedPool) (user : CString) : Option Host :=
  this.users.get user

/-- `fixed_pool_t.add` : a user that is there already gets the new host, and is not counted again.
-/
def add (this : FixedPool) (user : CString) (ip : Host) : FixedPool where
  users := this.users.insert user ip
  count := if (this.users.get user).isSome then this.count else this.count + 1

end FixedPool

/-! ## Events -/

/-- A `yaml_event_t`, scalars with the bytes of their value. -/
inductive YamlEvent
  | streamStart
  | streamEnd
  | documentStart
  | documentEnd
  | alias
  | scalar (value : List UInt8)
  | sequenceStart
  | sequenceEnd
  | mappingStart
  | mappingEnd
  deriving DecidableEq

/-- What the parser delivers for a path : the events up to the end of the stream or to a
parse error, or nothing if the file cannot be opened. -/
abbrev PolicyFile := Option (List YamlEvent)

/-- `state_t`. -/
inductive LoaderState
  | top
  | users
  | user
  | pool
  deriving DecidableEq

/-- The variables of `yaml_load_policy`, with the table and the endpoints it fills. -/
structure Loader where
  st : LoaderState
  pending : Option CString
  curUser : CString
  fixed : FixedPool
  poolStart : Option Host
  poolEnd : Option Host

namespace Loader

/-- What the loader starts from. -/
def init : Loader where
  st := .top
  pending := none
  curUser := .ofBytes []
  fixed := .create
  poolStart := none
  poolEnd := none

/-- `YAML_MAPPING_START_EVENT`. -/
def mappingStart (this : Loader) : Loader :=
  match this.st, this.pending with
  | .top, some key =>
    { this with
      st := if key.bytes = ascii ['u', 's', 'e', 'r', 's'] then .users
        else if key.bytes = ascii ['p', 'o', 'o', 'l'] then .pool
        else .top
      pending := none }
  | .users, some key =>
    -- `snprintf(cur_user, 256, "%s", pending)`
    { this with curUser := .ofBytes (key.bytes.take 255), st := .user, pending := none }
  | _, _ => this

/-- `YAML_MAPPING_END_EVENT`. -/
def mappingEnd (this : Loader) : Loader :=
  match this.st with
  | .user => { this with st := .users, curUser := .ofBytes [] }
  | .users => { this with st := .top }
  | .pool => { this with st := .top }
  | .top => this

/-- A key with its scalar value. -/
def pair (hostCreateFromString : CString → Option Host) (this : Loader) (key val : CString) :
    Loader :=
  match this.st with
  | .user =>
    if key.bytes = ascii ['i', 'p'] then
      match hostCreateFromString val with
      | some ip => { this with fixed := this.fixed.add this.curUser ip }
      | none => this
    else this
  | .pool =>
    if key.bytes = ascii ['s', 't', 'a', 'r', 't'] then
      { this with poolStart := hostCreateFromString val }
    else if key.bytes = ascii ['e', 'n', 'd'] then
      { this with poolEnd := hostCreateFromString val }
    else this
  | _ => this

/-- `YAML_SCALAR_EVENT` : a key to remember, or the value of the remembered key. -/
def scalar (hostCreateFromString : CString → Option Host) (this : Loader) (value : List UInt8) :
    Loader :=
  let val := CString.ofBytes value
  match this.pending with
  | none => { this with pending := some val }
  | some key => { this.pair hostCreateFromString key val with pending := none }

/-- One turn of the event loop. -/
def onEvent (hostCreateFromString : CString → Option Host) (this : Loader) : YamlEvent → Loader
  | .mappingStart => this.mappingStart
  | .mappingEnd => this.mappingEnd
  | .scalar value => this.scalar hostCreateFromString value
  | _ => this

/-- The event loop. The flag says whether the stream was read to its end. -/
def parseEvents (hostCreateFromString : CString → Option Host) (this : Loader) :
    List YamlEvent → Bool × Loader
  | [] => (false, this)
  | .streamEnd :: _ => (true, this)
  | e :: es => (this.onEvent hostCreateFromString e).parseEvents hostCreateFromString es

end Loader

/-- The return code, and what was filled in until then. -/
def yamlLoadPolicy (hostCreateFromString : CString → Option Host) (file : PolicyFile) :
    Int × Loader :=
  match file with
  | none => (-1, .init)
  | some events =>
    match Loader.init.parseEvents hostCreateFromString events with
    | (true, loader) => (0, loader)
    | (false, loader) => (-1, loader)

end Cupp
