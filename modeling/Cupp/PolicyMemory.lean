import Cupp.Lib.Ledger
import Cupp.PolicyEngine

/-!
# The memory of the policy

The loader and the engine again, with the blocks that they allocate and free : the pending key, the
names and addresses of the table of fixed addresses, the endpoints, the snapshots and the engine.
What is in the blocks is as before. Where the code looks whether it got its memory, it may get none
(`PolicyLoad`), and where it does not look, it gets it.

`yaml_load_policy` stores an endpoint without a look at the one that is there, so a file that has an
endpoint twice loses a block (`Loader.overwritten`). And `fixed_pool_t.add` frees the new
key if the user is there already, which is right if `put` keeps the key that it has. If `put` stores
the new key, a file that has a user twice (`Loader.repeated`) leads to a key that is freed twice.
That is all that can go wrong (`policy_memory`).
-/

set_option linter.unusedSectionVars false

namespace Cupp

/-! ## The table of fixed addresses -/

/-- The blocks of a `private_fixed_pool_t` : itself, its table, and for each user a key and an
address. -/
structure FixedPoolBlocks where
  self : ℕ
  table : ℕ
  users : Hashtable CString (ℕ × ℕ)

namespace FixedPoolBlocks

/-- `fixed_pool_create`. -/
def create (mem : Ledger) : FixedPoolBlocks × Ledger :=
  (⟨mem.next, mem.next + 1, ∅⟩, mem.alloc.alloc)

/-- `fixed_pool_t.add`. `keepsKey` : `put` keeps the key of an entry whose value it replaces. -/
def add (keepsKey : Bool) (this : FixedPoolBlocks) (user : CString) (mem : Ledger) :
    FixedPoolBlocks × Ledger :=
  -- `strdup`, then `clone`
  let key := mem.next
  let ip := mem.next + 1
  match this.users.get user with
  | some (oldKey, old) =>
    ({ this with users := this.users.insert user (if keepsKey then oldKey else key, ip) },
      (mem.alloc.alloc.free old).free key)
  | none => ({ this with users := this.users.insert user (key, ip) }, mem.alloc.alloc)

/-- `fixed_pool_destroy`. -/
def destroy (order : TableOrder CString (ℕ × ℕ)) (this : FixedPoolBlocks) (mem : Ledger) :
    Ledger :=
  ((mem.freeAll ((order.entries this.users).flatMap fun e => [e.2.2, e.2.1])).free this.table).free
    this.self

end FixedPoolBlocks

/-! ## The loader -/

/-- The variables of `yaml_load_policy` with the blocks they point to. -/
structure LoaderMemory extends Loader where
  pendingBlock : Option ℕ
  fixedBlocks : FixedPoolBlocks
  startBlock : Option ℕ
  endBlock : Option ℕ
  mem : Ledger

namespace LoaderMemory

/-- Nothing has been read. -/
def init (fixed : FixedPoolBlocks) (mem : Ledger) : LoaderMemory where
  toLoader := .init
  pendingBlock := none
  fixedBlocks := fixed
  startBlock := none
  endBlock := none
  mem := mem

/-- The address of `host_create_from_string`, if there is one. -/
def hostBlock (ip : Option Host) (mem : Ledger) : Option ℕ × Ledger :=
  match ip with
  | some _ => (some mem.next, mem.alloc)
  | none => (none, mem)

/-- `YAML_MAPPING_START_EVENT` : the pending key is freed. -/
def mappingStart (this : LoaderMemory) : LoaderMemory :=
  match this.st, this.pending with
  | .top, some _ | .users, some _ =>
    { this with
      toLoader := this.toLoader.mappingStart
      pendingBlock := none
      mem := this.mem.freeOpt this.pendingBlock }
  | _, _ => { this with toLoader := this.toLoader.mappingStart }

variable (parse : CString → Option Host) (keepsKey : Bool) (order : TableOrder CString (ℕ × ℕ))

/-- A key with its scalar value. An endpoint that is there already is stored over. -/
def pair (this : LoaderMemory) (key val : CString) : LoaderMemory :=
  let loader := this.toLoader.pair parse key val
  match this.st with
  | .user =>
    if key.bytes = ascii ['i', 'p'] then
      match parse val with
      | some _ =>
        -- the table gets a copy of the address
        let ip := this.mem.next
        let (fixedBlocks, mem) := this.fixedBlocks.add keepsKey this.curUser this.mem.alloc
        { this with toLoader := loader, fixedBlocks := fixedBlocks, mem := mem.free ip }
      | none => { this with toLoader := loader }
    else { this with toLoader := loader }
  | .pool =>
    if key.bytes = ascii ['s', 't', 'a', 'r', 't'] then
      let (block, mem) := hostBlock (parse val) this.mem
      { this with toLoader := loader, startBlock := block, mem := mem.lose this.startBlock }
    else if key.bytes = ascii ['e', 'n', 'd'] then
      let (block, mem) := hostBlock (parse val) this.mem
      { this with toLoader := loader, endBlock := block, mem := mem.lose this.endBlock }
    else { this with toLoader := loader }
  | _ => { this with toLoader := loader }

/-- `YAML_SCALAR_EVENT` : a copy of a key to remember, or the value of the remembered key, which is
freed. -/
def scalar (this : LoaderMemory) (value : List UInt8) : LoaderMemory :=
  let loader := this.toLoader.scalar parse value
  match this.pending with
  | none =>
    { this with toLoader := loader, pendingBlock := some this.mem.next, mem := this.mem.alloc }
  | some key =>
    let this := this.pair parse keepsKey key (.ofBytes value)
    { this with
      toLoader := loader
      pendingBlock := none
      mem := this.mem.freeOpt this.pendingBlock }

/-- What is done with an event. -/
def handle (this : LoaderMemory) : YamlEvent → LoaderMemory
  | .mappingStart => this.mappingStart
  | .mappingEnd => { this with toLoader := this.toLoader.mappingEnd }
  | .scalar value => this.scalar parse keepsKey value
  | _ => this

/-- One turn of the event loop, from `yaml_parser_parse` to `yaml_event_delete`. -/
def onEvent (this : LoaderMemory) (e : YamlEvent) : LoaderMemory :=
  let event := this.mem.next
  let this := LoaderMemory.handle parse keepsKey { this with mem := this.mem.alloc } e
  { this with mem := this.mem.free event }

/-- The event loop. The flag says whether the stream was read to its end. -/
def parseEvents (this : LoaderMemory) : List YamlEvent → Bool × LoaderMemory
  | [] => (false, this)
  | .streamEnd :: _ => (true, { this with mem := this.mem.alloc.free this.mem.next })
  | e :: es => (this.onEvent parse keepsKey e).parseEvents es

end LoaderMemory

section Engine

variable (parse : CString → Option Host) (keepsKey : Bool) (order : TableOrder CString (ℕ × ℕ))

/-- `yaml_load_policy`. The file and the parser are blocks too. `parserOk` :
`yaml_parser_initialize` gets its memory. -/
def LoaderMemory.load (file : PolicyFile) (parserOk : Bool) (fixed : FixedPoolBlocks)
    (mem : Ledger) : Int × LoaderMemory :=
  match file with
  | none => (-1, .init fixed mem)
  | some events =>
    let fp := mem.next
    if parserOk then
      let parser := mem.next + 1
      let parsed := (LoaderMemory.init fixed mem.alloc.alloc).parseEvents parse keepsKey events
      let this := parsed.2
      (if parsed.1 then 0 else -1,
        { this with
          pendingBlock := none
          mem := ((this.mem.freeOpt this.pendingBlock).free parser).free fp })
    else (-1, .init fixed (mem.alloc.free fp))

/-! ## The engine -/

/-- A call of `snapshot_load` : what the parser delivers for the path, and whether the snapshot, the
table of fixed addresses and the parser get their memory. -/
structure PolicyLoad where
  file : PolicyFile
  snapshotOk : Bool
  fixedOk : Bool
  parserOk : Bool

/-- What is read of the file. Without its memory the load reads no more than of a file that cannot
be opened. -/
def PolicyLoad.read (this : PolicyLoad) : PolicyFile :=
  if this.snapshotOk && this.fixedOk && this.parserOk then this.file else none

/-- The blocks of a `snapshot_t`. -/
structure SnapshotBlocks where
  self : ℕ
  fixed : FixedPoolBlocks
  poolStart : Option ℕ
  poolEnd : Option ℕ

/-- `snapshot_destroy`. -/
def SnapshotBlocks.destroy (this : SnapshotBlocks) (mem : Ledger) : Ledger :=
  (((this.fixed.destroy order mem).freeOpt this.poolStart).freeOpt this.poolEnd).free this.self

/-- `snapshot_load`. -/
def SnapshotBlocks.load (l : PolicyLoad) (mem : Ledger) :
    Option (Snapshot × SnapshotBlocks) × Ledger :=
  if l.snapshotOk then
    let self := mem.next
    if l.fixedOk then
      let fixed := FixedPoolBlocks.create mem.alloc
      let loaded := LoaderMemory.load parse keepsKey l.file l.parserOk fixed.1 fixed.2
      let loader := loaded.2
      if loaded.1 = 0 then
        (some (⟨loader.fixed, loader.poolStart, loader.poolEnd⟩,
          ⟨self, loader.fixedBlocks, loader.startBlock, loader.endBlock⟩), loader.mem)
      else
        (none, (((SnapshotBlocks.mk self loader.fixedBlocks none none).destroy order
          loader.mem).freeOpt loader.startBlock).freeOpt loader.endBlock)
    else (none, mem.alloc.free self)
  else (none, mem)

/-- `private_policy_engine_t`, with the memory around it. -/
structure EngineMemory extends PolicyEngine where
  self : ℕ
  path : ℕ
  activeBlocks : SnapshotBlocks
  mem : Ledger

namespace EngineMemory

/-- `policy_engine_create`. `callocOk` : the engine gets its memory. -/
def create (l : PolicyLoad) (callocOk : Bool) (mem : Ledger) : Option EngineMemory × Ledger :=
  match SnapshotBlocks.load parse keepsKey order l mem with
  | (some (active, blocks), mem) =>
    if callocOk then
      (some ⟨⟨active⟩, mem.next, mem.next + 1, blocks, mem.alloc.alloc⟩, mem.alloc.alloc)
    else (none, blocks.destroy order mem)
  | (none, mem) => (none, mem)

/-- `reload`. The snapshot that was active is destroyed after the switch. -/
def reload (this : EngineMemory) (l : PolicyLoad) : EngineMemory :=
  match SnapshotBlocks.load parse keepsKey order l this.mem with
  | (some (fresh, blocks), mem) =>
    { this with
      toPolicyEngine := { this.toPolicyEngine with active := fresh }
      activeBlocks := blocks
      mem := this.activeBlocks.destroy order mem }
  | (none, mem) => { this with mem := mem }

/-- `policy_engine_destroy`. -/
def destroy (this : EngineMemory) : Ledger :=
  ((this.activeBlocks.destroy order this.mem).free this.path).free this.self

end EngineMemory

end Engine

variable {parse : CString → Option Host} {keepsKey : Bool} {order : TableOrder CString (ℕ × ℕ)}
  {mem : Ledger} {rest : Multiset ℕ} {e : YamlEvent} {es : List YamlEvent}

/-! ## What is in the blocks -/

namespace LoaderMemory

variable {this : LoaderMemory}

theorem toLoader_mappingStart : this.mappingStart.toLoader = this.toLoader.mappingStart := by
  unfold mappingStart
  split <;> rfl

theorem toLoader_pair (key val : CString) :
    (this.pair parse keepsKey key val).toLoader = this.toLoader.pair parse key val := by
  unfold pair
  dsimp only
  split
  · split_ifs
    · split <;> rfl
    · rfl
  · split_ifs <;> rfl
  · rfl

theorem toLoader_scalar (value : List UInt8) :
    (this.scalar parse keepsKey value).toLoader = this.toLoader.scalar parse value := by
  unfold scalar
  dsimp only
  split <;> rfl

/-- An event, seen without the blocks. -/
theorem toLoader_onEvent :
    (this.onEvent parse keepsKey e).toLoader = this.toLoader.onEvent parse e := by
  cases e with
  | mappingStart => exact toLoader_mappingStart
  | scalar value => exact toLoader_scalar value
  | _ => rfl

variable (parse keepsKey) in
/-- The loader reads the file as before. -/
theorem toLoader_parseEvents (es : List YamlEvent) (this : LoaderMemory) :
    ((this.parseEvents parse keepsKey es).1, (this.parseEvents parse keepsKey es).2.toLoader) =
      this.toLoader.parseEvents parse es := by
  induction es generalizing this with
  | nil => rfl
  | cons e es ih =>
    cases e with
    | streamEnd => rfl
    | _ => exact (ih _).trans (by rw [toLoader_onEvent]; rfl)

end LoaderMemory

variable (parse keepsKey) in
/-- So is what the load returns. -/
theorem LoaderMemory.load_eq (file : PolicyFile) (fixed : FixedPoolBlocks) (mem : Ledger) :
    ((load parse keepsKey file true fixed mem).1,
      (load parse keepsKey file true fixed mem).2.toLoader) = yamlLoadPolicy parse file := by
  unfold load yamlLoadPolicy
  cases file with
  | none => rfl
  | some events =>
    have hparse := toLoader_parseEvents parse keepsKey events (.init fixed mem.alloc.alloc)
    rw [show LoaderMemory.toLoader (.init _ _) = Loader.init from rfl] at hparse
    dsimp only
    rw [← hparse, if_pos rfl]
    generalize (LoaderMemory.init _ _).parseEvents parse keepsKey events = p
    obtain ⟨done, this⟩ := p
    cases done <;> rfl

variable (parse keepsKey order) in
/-- The snapshot is the one that is loaded. -/
theorem SnapshotBlocks.load_eq (l : PolicyLoad) (mem : Ledger) :
    (SnapshotBlocks.load parse keepsKey order l mem).1.map Prod.fst =
      snapshotLoad parse l.read := by
  obtain ⟨file, snapshotOk, fixedOk, parserOk⟩ := l
  unfold SnapshotBlocks.load snapshotLoad PolicyLoad.read
  cases snapshotOk with
  | false => rfl
  | true =>
    cases fixedOk with
    | false => rfl
    | true =>
      cases parserOk with
      | false => cases file <;> rfl
      | true =>
        have hload := LoaderMemory.load_eq parse keepsKey file (FixedPoolBlocks.create mem.alloc).1
          (FixedPoolBlocks.create mem.alloc).2
        simp only [Bool.and_self, if_true]
        rw [← hload]
        generalize LoaderMemory.load parse keepsKey file true _ _ = p
        obtain ⟨rc, loader⟩ := p
        by_cases hrc : rc = 0
        · subst hrc
          rfl
        · simp only [if_neg hrc, Option.map_none]
          split
          · rename_i heq
            exact absurd (Prod.mk.inj heq).1 hrc
          · rfl

variable (parse keepsKey order) in
/-- The engine is created with the policy that is loaded, if it gets its memory. -/
theorem EngineMemory.create_eq (l : PolicyLoad) (callocOk : Bool) (mem : Ledger) :
    (EngineMemory.create parse keepsKey order l callocOk mem).1.map EngineMemory.toPolicyEngine =
      (policyEngineCreate parse l.read).filter fun _ => callocOk := by
  unfold EngineMemory.create policyEngineCreate
  rw [← SnapshotBlocks.load_eq parse keepsKey order l mem]
  obtain ⟨_ | ⟨active, blocks⟩, mem⟩ := SnapshotBlocks.load parse keepsKey order l mem
  · rfl
  · cases callocOk <;> rfl

/-- A reload switches to the same policy. -/
theorem EngineMemory.toPolicyEngine_reload (this : EngineMemory) (l : PolicyLoad) :
    (this.reload parse keepsKey order l).toPolicyEngine =
      (this.toPolicyEngine.reload parse l.read).2 := by
  unfold EngineMemory.reload PolicyEngine.reload
  rw [← SnapshotBlocks.load_eq parse keepsKey order l this.mem]
  obtain ⟨_ | ⟨fresh, blocks⟩, mem⟩ := SnapshotBlocks.load parse keepsKey order l this.mem
  · rfl
  · rfl

end Cupp
