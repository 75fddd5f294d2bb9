import Cupp.PolicyMemory
import Mathlib.Tactic.Abel

/-!
# The account of the policy's memory

At each point of a load, the blocks in use are those that the loader's variables point to and the
ones that the caller has. All others have been freed or lost, and what is lost are endpoints that
others have been stored over. So an engine that is destroyed leaves only these, provided that each
key of the table of fixed addresses is freed once. This holds whether the code gets the memory it
asks for or not.
-/

set_option linter.unusedSectionVars false

namespace Cupp

variable {parse : CString → Option Host} {keepsKey : Bool} {order : TableOrder CString (ℕ × ℕ)}
  {mem mem' : Ledger} {rest : Multiset ℕ} {file : PolicyFile} {l : PolicyLoad} {e : YamlEvent}
  {es : List YamlEvent} {user : CString}

/-! ## What a file loses and repeats -/

namespace Loader

variable (parse)

/-- How many endpoints a key with its value is stored over : one, or none. -/
def overwrittenBy (this : Loader) (key : CString) : ℕ :=
  match this.st with
  | .pool =>
    if key.bytes = ascii ['s', 't', 'a', 'r', 't'] then this.poolStart.toList.length
    else if key.bytes = ascii ['e', 'n', 'd'] then this.poolEnd.toList.length
    else 0
  | _ => 0

/-- How many endpoints an event is stored over. -/
def overwritten (this : Loader) : YamlEvent → ℕ
  | .scalar _ => this.pending.elim 0 this.overwrittenBy
  | _ => 0

/-- A key with its value counts if it adds a user that the table has already. -/
def repeatedBy (this : Loader) (key val : CString) : ℕ :=
  match this.st with
  | .user =>
    if key.bytes = ascii ['i', 'p'] ∧ (parse val).isSome ∧
      (this.fixed.users.get this.curUser).isSome then 1 else 0
  | _ => 0

/-- An event counts if it adds a user that the table has already. -/
def repeated (this : Loader) : YamlEvent → ℕ
  | .scalar value => this.pending.elim 0 fun key => this.repeatedBy parse key (.ofBytes value)
  | _ => 0

/-- The sum of `f` over the events that are read. -/
def total (f : Loader → YamlEvent → ℕ) (this : Loader) : List YamlEvent → ℕ
  | [] => 0
  | .streamEnd :: _ => 0
  | e :: es => f this e + (this.onEvent parse e).total f es

variable {parse}

theorem total_cons {this : Loader} {f : Loader → YamlEvent → ℕ} (hend : e ≠ .streamEnd) :
    this.total parse f (e :: es) = f this e + (this.onEvent parse e).total parse f es := by
  rw [Loader.total]
  exact hend

end Loader

/-- How many endpoints of a file others are stored over. -/
def overwrittenIn (parse : CString → Option Host) : PolicyFile → ℕ
  | none => 0
  | some events => Loader.init.total parse Loader.overwritten events

/-- How often a file adds a user that it has added before. -/
def repeatedIn (parse : CString → Option Host) : PolicyFile → ℕ
  | none => 0
  | some events => Loader.init.total parse (Loader.repeated parse) events

/-! ## The table -/

namespace FixedPoolBlocks

variable {this : FixedPoolBlocks}

/-- The address and the key of an entry. -/
def entryBlocks (e : Σ _ : CString, ℕ × ℕ) : List ℕ :=
  [e.2.2, e.2.1]

/-- The blocks that belong to the table. -/
def blocks (this : FixedPoolBlocks) : Multiset ℕ :=
  this.self ::ₘ this.table ::ₘ this.users.entries.bind fun e => ↑(entryBlocks e)

/-- A new table has no entries. -/
theorem owns_create (h : mem.Owns rest) :
    (create mem).2.Owns ((create mem).1.blocks + rest) := by
  refine h.alloc.alloc.congr ?_
  change _ = mem.next ::ₘ (mem.next + 1) ::ₘ (0 : Multiset ℕ) + rest
  rw [Multiset.cons_add, Multiset.cons_add, zero_add, Multiset.cons_swap]
  rfl

/-- As long as the key of an entry stays, it is the new key and the old address that nobody needs
any more. -/
theorem owns_add (h : mem.Owns (this.blocks + rest))
    (hkeep : keepsKey = true ∨ this.users.get user = none) :
    (this.add keepsKey user mem).2.Owns ((this.add keepsKey user mem).1.blocks + rest) := by
  have hnew := h.alloc.alloc
  unfold add
  dsimp only
  cases hget : this.users.get user with
  | none =>
    refine hnew.congr ?_
    unfold blocks
    dsimp only
    rw [Hashtable.entries_insert, Hashtable.erase_of_get hget, Multiset.cons_bind]
    simp only [entryBlocks, ← Multiset.cons_coe, Multiset.coe_nil, ← Multiset.singleton_add,
      Ledger.next_alloc]
    abel
  | some old =>
    obtain ⟨oldKey, old⟩ := old
    obtain rfl : keepsKey = true := hkeep.resolve_right (by simp [hget])
    refine Ledger.Owns.free (Ledger.Owns.free (hnew.congr ?_))
    unfold blocks
    dsimp only
    rw [Hashtable.entries_insert, Hashtable.entries_of_get hget, Multiset.cons_bind,
      Multiset.cons_bind]
    simp only [entryBlocks, ← Multiset.cons_coe, Multiset.coe_nil, ← Multiset.singleton_add,
      Ledger.next_alloc, if_true]
    abel

@[simp] theorem lost_add (keepsKey : Bool) (this : FixedPoolBlocks) (user : CString)
    (mem : Ledger) : (this.add keepsKey user mem).2.lost = mem.lost := by
  unfold add
  dsimp only
  split <;> rfl

@[simp] theorem lost_destroy (mem : Ledger) : (this.destroy order mem).lost = mem.lost := by
  simp [destroy]

/-- The table is freed with its entries, in any order. -/
theorem owns_destroy (h : mem.Owns (this.blocks + rest)) : (this.destroy order mem).Owns rest := by
  refine Ledger.Owns.free (Ledger.Owns.free (Ledger.Owns.freeAll (h.congr ?_)))
  have hentries : (((order.entries this.users).flatMap entryBlocks : List ℕ) : Multiset ℕ) =
      this.users.entries.bind fun e => ↑(entryBlocks e) := by
    rw [← Multiset.coe_bind, order.enumerates this.users]
  change _ = (((order.entries this.users).flatMap entryBlocks : List ℕ) : Multiset ℕ) + _
  rw [hentries]
  unfold blocks
  simp only [← Multiset.singleton_add]
  abel

end FixedPoolBlocks

/-! ## The loader -/

namespace LoaderMemory

variable {this : LoaderMemory} {bs : Multiset ℕ}

/-- The blocks that the loader's variables point to. -/
def blocks (this : LoaderMemory) : Multiset ℕ :=
  this.pendingBlock.toList + this.fixedBlocks.blocks + this.startBlock.toList +
    this.endBlock.toList

/-- There is a block where there is something to keep in it. -/
structure Matches (this : LoaderMemory) : Prop where
  pending : this.pendingBlock.isSome = this.pending.isSome
  start : this.startBlock.isSome = this.poolStart.isSome
  end_ : this.endBlock.isSome = this.poolEnd.isSome
  users : ∀ user, (this.fixedBlocks.users.get user).isSome = (this.fixed.users.get user).isSome

theorem isSome_hostBlock (host : Option Host) (mem : Ledger) :
    (hostBlock host mem).1.isSome = host.isSome := by
  cases host <;> rfl

@[simp] theorem lost_hostBlock (host : Option Host) (mem : Ledger) :
    (hostBlock host mem).2.lost = mem.lost := by
  cases host <;> rfl

/-- A new host is in use. -/
theorem owns_hostBlock (h : mem.Owns bs) (host : Option Host) :
    (hostBlock host mem).2.Owns ((hostBlock host mem).1.toList + bs) := by
  cases host with
  | none => simpa [hostBlock] using h
  | some host => exact h.alloc

variable (parse keepsKey) in
/-- A pair leaves a block for each endpoint that is set. -/
theorem Matches.pair (h : this.Matches) (key val : CString) :
    (this.pair parse keepsKey key val).Matches := by
  unfold LoaderMemory.pair Loader.pair
  dsimp only
  cases this.st with
  | user =>
    dsimp only
    split_ifs
    · cases parse val with
      | none => exact h
      | some host =>
        refine ⟨h.pending, h.start, h.end_, fun user => ?_⟩
        have huser := h.users user
        have hadd : ((this.fixedBlocks.add keepsKey this.curUser this.mem.alloc).1.users.get
            user).isSome = ((this.fixed.add this.curUser host).users.get user).isSome := by
          unfold FixedPoolBlocks.add FixedPool.add
          dsimp only
          rcases eq_or_ne user this.curUser with rfl | hne
          · cases this.fixedBlocks.users.get this.curUser <;> simp
          · cases this.fixedBlocks.users.get this.curUser <;> simpa [hne] using huser
        exact hadd
    · exact h
  | pool =>
    dsimp only
    split_ifs
    · exact ⟨h.pending, isSome_hostBlock _ _, h.end_, h.users⟩
    · exact ⟨h.pending, h.start, isSome_hostBlock _ _, h.users⟩
    · exact h
  | top | users => exact h

/-- An endpoint that is stored over is lost. -/
theorem owns_pair (hm : this.Matches) {key val : CString}
    (hkeep : keepsKey = true ∨ this.toLoader.repeatedBy parse key val = 0)
    (h : this.mem.Owns (this.blocks + rest)) :
    (this.pair parse keepsKey key val).mem.Owns
      ((this.pair parse keepsKey key val).blocks + rest) := by
  unfold LoaderMemory.pair
  dsimp only
  cases hst : this.st with
  | user =>
    dsimp only
    split_ifs with hkey
    · cases hval : parse val with
      | none => exact h
      | some host =>
        have hkeep' : keepsKey = true ∨ this.fixedBlocks.users.get this.curUser = none := by
          refine hkeep.imp_right fun hzero => ?_
          rw [← Option.not_isSome_iff_eq_none, hm.users]
          simpa [Loader.repeatedBy, hst, hkey, hval] using hzero
        have hblocks : this.mem.alloc.Owns (this.fixedBlocks.blocks + (this.mem.next ::ₘ
            (this.pendingBlock.toList + this.startBlock.toList + this.endBlock.toList +
              rest))) := by
          refine h.alloc.congr ?_
          unfold blocks
          simp only [← Multiset.singleton_add]
          abel
        refine Ledger.Owns.free ((FixedPoolBlocks.owns_add hblocks hkeep').congr ?_)
        unfold blocks
        simp only [← Multiset.singleton_add]
        abel
    · exact h
  | pool =>
    dsimp only
    split_ifs with hstart hend
    · refine Ledger.Owns.lose ((owns_hostBlock h (parse val)).congr ?_)
      unfold blocks
      abel
    · refine Ledger.Owns.lose ((owns_hostBlock h (parse val)).congr ?_)
      unfold blocks
      abel
    · exact h
  | top | users => exact h

/-- And nothing else is. -/
theorem length_lost_pair (hm : this.Matches) (key val : CString) :
    (this.pair parse keepsKey key val).mem.lost.length =
      this.mem.lost.length + this.toLoader.overwrittenBy key := by
  have hlength {α : Type} {o : Option α} {b : Option ℕ} (hb : b.isSome = o.isSome) :
      b.toList.length = o.toList.length := by
    cases b <;> cases o <;> simp at hb ⊢
  unfold LoaderMemory.pair Loader.overwrittenBy
  dsimp only
  cases this.st with
  | user =>
    dsimp only
    split_ifs
    · cases parse val <;> simp
    · rfl
  | pool =>
    dsimp only
    split_ifs
    · simp [hlength hm.start, add_comm]
    · simp [hlength hm.end_, add_comm]
    · rfl
  | top | users => rfl

variable (parse keepsKey) in
theorem Matches.scalar (h : this.Matches) (value : List UInt8) :
    (this.scalar parse keepsKey value).Matches := by
  unfold LoaderMemory.scalar Loader.scalar
  cases this.pending with
  | none => exact ⟨rfl, h.start, h.end_, h.users⟩
  | some key =>
    obtain ⟨-, hstart, hend, husers⟩ := h.pair parse keepsKey key (.ofBytes value)
    rw [toLoader_pair] at hstart hend
    simp only [toLoader_pair] at husers
    exact ⟨rfl, hstart, hend, husers⟩

/-- A scalar keeps what is in use in the loader's hands, unless it frees a key of the table. -/
theorem owns_scalar (hm : this.Matches) {value : List UInt8}
    (hkeep : keepsKey = true ∨ this.toLoader.repeated parse (.scalar value) = 0)
    (h : this.mem.Owns (this.blocks + rest)) :
    (this.scalar parse keepsKey value).mem.Owns
      ((this.scalar parse keepsKey value).blocks + rest) := by
  unfold LoaderMemory.scalar
  cases hpending : this.pending with
  | none =>
    have hnone : this.pendingBlock = none := by
      rw [← Option.not_isSome_iff_eq_none, hm.pending, hpending]
      simp
    refine h.alloc.congr ?_
    unfold blocks
    simp only [hnone, Option.toList_none, Option.toList_some, Multiset.coe_nil,
      Multiset.coe_singleton, ← Multiset.singleton_add]
    abel
  | some key =>
    have hkeep' : keepsKey = true ∨ this.toLoader.repeatedBy parse key (.ofBytes value) = 0 := by
      refine hkeep.imp_right fun hzero => ?_
      simpa [Loader.repeated, hpending] using hzero
    refine Ledger.Owns.freeOpt ((owns_pair hm hkeep' h).congr ?_)
    unfold blocks
    simp only [Option.toList_none, Multiset.coe_nil]
    abel

/-- A scalar loses the endpoint that it stores over. -/
theorem length_lost_scalar (hm : this.Matches) (value : List UInt8) :
    (this.scalar parse keepsKey value).mem.lost.length =
      this.mem.lost.length + this.toLoader.overwritten (.scalar value) := by
  unfold LoaderMemory.scalar Loader.overwritten
  cases this.pending with
  | none => rfl
  | some key => simpa using length_lost_pair hm key (.ofBytes value)

theorem Matches.mappingStart (h : this.Matches) : this.mappingStart.Matches := by
  unfold LoaderMemory.mappingStart Loader.mappingStart
  cases this.st <;> cases this.pending <;>
    exact ⟨by first | rfl | exact h.pending, h.start, h.end_, h.users⟩

@[simp] theorem lost_mappingStart : this.mappingStart.mem.lost = this.mem.lost := by
  unfold LoaderMemory.mappingStart
  split <;> simp

theorem owns_mappingStart (h : this.mem.Owns (this.blocks + rest)) :
    this.mappingStart.mem.Owns (this.mappingStart.blocks + rest) := by
  unfold LoaderMemory.mappingStart
  split
  · refine Ledger.Owns.freeOpt (h.congr ?_)
    unfold blocks
    simp only [Option.toList_none, Multiset.coe_nil]
    abel
  · refine Ledger.Owns.freeOpt (h.congr ?_)
    unfold blocks
    simp only [Option.toList_none, Multiset.coe_nil]
    abel
  · exact h

theorem Matches.mappingEnd (h : this.Matches) :
    Matches { this with toLoader := this.toLoader.mappingEnd } := by
  unfold Loader.mappingEnd
  cases this.st <;> exact ⟨h.pending, h.start, h.end_, h.users⟩

variable (parse keepsKey) in
theorem Matches.handle (h : this.Matches) (e : YamlEvent) :
    (this.handle parse keepsKey e).Matches := by
  cases e with
  | mappingStart => exact h.mappingStart
  | mappingEnd => exact h.mappingEnd
  | scalar value => exact h.scalar parse keepsKey value
  | _ => exact h

/-- An event keeps what is in use in the loader's hands, unless it frees a key of the table. -/
theorem owns_handle (hm : this.Matches)
    (hkeep : keepsKey = true ∨ this.toLoader.repeated parse e = 0)
    (h : this.mem.Owns (this.blocks + rest)) :
    (this.handle parse keepsKey e).mem.Owns ((this.handle parse keepsKey e).blocks + rest) := by
  cases e with
  | mappingStart => exact owns_mappingStart h
  | scalar value => exact owns_scalar hm hkeep h
  | _ => exact h

/-- An event loses the endpoint that it stores over. -/
theorem length_lost_handle (hm : this.Matches) : (this.handle parse keepsKey e).mem.lost.length =
    this.mem.lost.length + this.toLoader.overwritten e := by
  cases e with
  | mappingStart => exact congrArg List.length lost_mappingStart
  | scalar value => exact length_lost_scalar hm value
  | _ => rfl

variable (parse keepsKey) in
theorem Matches.onEvent (h : this.Matches) (e : YamlEvent) :
    (this.onEvent parse keepsKey e).Matches := by
  have halloc : Matches { this with mem := this.mem.alloc } :=
    ⟨h.pending, h.start, h.end_, h.users⟩
  have hhandle := halloc.handle parse keepsKey e
  exact ⟨hhandle.pending, hhandle.start, hhandle.end_, hhandle.users⟩

/-- A turn of the event loop keeps the account. -/
theorem owns_onEvent (hm : this.Matches)
    (hkeep : keepsKey = true ∨ this.toLoader.repeated parse e = 0)
    (h : this.mem.Owns (this.blocks + rest)) :
    (this.onEvent parse keepsKey e).mem.Owns ((this.onEvent parse keepsKey e).blocks + rest) := by
  have hm' : Matches { this with mem := this.mem.alloc } :=
    ⟨hm.pending, hm.start, hm.end_, hm.users⟩
  -- the event is a block of its own, until it is deleted
  have howns := owns_handle hm' hkeep
    (h.alloc.congr (Multiset.add_cons this.mem.next this.blocks rest).symm)
  refine Ledger.Owns.free (howns.congr ?_)
  rw [Multiset.add_cons]
  rfl

theorem length_lost_onEvent (hm : this.Matches) :
    (this.onEvent parse keepsKey e).mem.lost.length =
      this.mem.lost.length + this.toLoader.overwritten e := by
  have hm' : Matches { this with mem := this.mem.alloc } :=
    ⟨hm.pending, hm.start, hm.end_, hm.users⟩
  exact length_lost_handle hm'

theorem parseEvents_cons (hend : e ≠ .streamEnd) : this.parseEvents parse keepsKey (e :: es) =
    (this.onEvent parse keepsKey e).parseEvents parse keepsKey es := by
  rw [LoaderMemory.parseEvents]
  exact hend

/-- The whole loop keeps the account. -/
theorem owns_parseEvents (hm : this.Matches)
    (hkeep : keepsKey = true ∨ this.toLoader.total parse (Loader.repeated parse) es = 0)
    (h : this.mem.Owns (this.blocks + rest)) :
    (this.parseEvents parse keepsKey es).2.mem.Owns
      ((this.parseEvents parse keepsKey es).2.blocks + rest) := by
  induction es generalizing this with
  | nil => exact h
  | cons e es ih =>
    by_cases hend : e = .streamEnd
    · subst hend
      exact Ledger.Owns.free h.alloc
    · rw [Loader.total_cons hend, Nat.add_eq_zero_iff] at hkeep
      rw [parseEvents_cons hend]
      refine ih (hm.onEvent parse keepsKey e) ?_ (owns_onEvent hm (hkeep.imp_right And.left) h)
      rw [toLoader_onEvent]
      exact hkeep.imp_right And.right

theorem length_lost_parseEvents (hm : this.Matches) :
    (this.parseEvents parse keepsKey es).2.mem.lost.length =
      this.mem.lost.length + this.toLoader.total parse Loader.overwritten es := by
  induction es generalizing this with
  | nil => rfl
  | cons e es ih =>
    by_cases hend : e = .streamEnd
    · subst hend
      rfl
    · rw [parseEvents_cons hend, ih (hm.onEvent parse keepsKey e), length_lost_onEvent hm,
        Loader.total_cons hend, toLoader_onEvent, add_assoc]

theorem matches_init {fixed : FixedPoolBlocks} (hfixed : fixed.users = ∅) (mem : Ledger) :
    (init fixed mem).Matches := by
  refine ⟨rfl, rfl, rfl, fun user => ?_⟩
  simp [init, Loader.init, FixedPool.create, hfixed]

theorem pendingBlock_load (parse : CString → Option Host) (keepsKey : Bool) (file : PolicyFile)
    (parserOk : Bool) (fixed : FixedPoolBlocks) (mem : Ledger) :
    (load parse keepsKey file parserOk fixed mem).2.pendingBlock = none := by
  cases file <;> cases parserOk <;> rfl

/-- The file and the parser are closed, and the pending key is freed. -/
theorem owns_load {parserOk : Bool}
    (hkeep : keepsKey = true ∨ repeatedIn parse (if parserOk then file else none) = 0)
    {fixed : FixedPoolBlocks} (hfixed : fixed.users = ∅) (h : mem.Owns (fixed.blocks + rest)) :
    (load parse keepsKey file parserOk fixed mem).2.mem.Owns
      ((load parse keepsKey file parserOk fixed mem).2.blocks + rest) := by
  have hnothing {mem : Ledger} (h : mem.Owns (fixed.blocks + rest)) :
      mem.Owns ((init fixed mem).blocks + rest) := by
    refine h.congr ?_
    unfold blocks init
    simp
  cases file with
  | none => exact hnothing h
  | some events =>
    cases parserOk with
    | false => exact hnothing (Ledger.Owns.free h.alloc)
    | true =>
      have hinit : (init fixed mem.alloc.alloc).mem.Owns ((init fixed mem.alloc.alloc).blocks +
          ((mem.next + 1) ::ₘ mem.next ::ₘ rest)) := by
        refine h.alloc.alloc.congr ?_
        unfold blocks init
        simp only [Option.toList_none, Multiset.coe_nil, Ledger.next_alloc,
          ← Multiset.singleton_add]
        abel
      have howns := owns_parseEvents (matches_init hfixed _) hkeep hinit
      refine Ledger.Owns.free (Ledger.Owns.free (Ledger.Owns.freeOpt (howns.congr ?_)))
      unfold load blocks
      simp only [if_true, Option.toList_none, Multiset.coe_nil, ← Multiset.singleton_add]
      abel

/-- A load loses the endpoints that its file stores over. -/
theorem length_lost_load {parserOk : Bool} {fixed : FixedPoolBlocks} (hfixed : fixed.users = ∅) :
    (load parse keepsKey file parserOk fixed mem).2.mem.lost.length =
      mem.lost.length + overwrittenIn parse (if parserOk then file else none) := by
  cases file with
  | none => cases parserOk <;> rfl
  | some events =>
    cases parserOk with
    | false => rfl
    | true =>
      have hlost : (load parse keepsKey (some events) true fixed mem).2.mem.lost =
          ((init fixed mem.alloc.alloc).parseEvents parse keepsKey events).2.mem.lost := by
        simp [load]
      rw [hlost]
      exact length_lost_parseEvents (matches_init hfixed mem.alloc.alloc)

end LoaderMemory

/-! ## The engine -/

/-- The blocks that belong to a snapshot. -/
def SnapshotBlocks.blocks (this : SnapshotBlocks) : Multiset ℕ :=
  this.self ::ₘ (this.fixed.blocks + this.poolStart.toList + this.poolEnd.toList)

@[simp] theorem SnapshotBlocks.lost_destroy (this : SnapshotBlocks) (mem : Ledger) :
    (this.destroy order mem).lost = mem.lost := by
  simp [destroy]

/-- Destroying a snapshot frees its blocks. -/
theorem SnapshotBlocks.owns_destroy {this : SnapshotBlocks} (h : mem.Owns (this.blocks + rest)) :
    (this.destroy order mem).Owns rest := by
  refine Ledger.Owns.free (Ledger.Owns.freeOpt (Ledger.Owns.freeOpt
    (FixedPoolBlocks.owns_destroy (h.congr ?_))))
  unfold blocks
  simp only [← Multiset.singleton_add]
  abel

/-- The file is read if the load gets as far as that. -/
theorem PolicyLoad.read_eq (hsnapshot : l.snapshotOk = true) (hfixed : l.fixedOk = true) :
    l.read = if l.parserOk then l.file else none := by
  simp [read, hsnapshot, hfixed]

variable (order) in
/-- A snapshot that is not built to the end is destroyed with all that belongs to it. -/
theorem SnapshotBlocks.owns_load (hkeep : keepsKey = true ∨ repeatedIn parse l.read = 0)
    (h : mem.Owns rest) : (load parse keepsKey order l mem).2.Owns
      (((load parse keepsKey order l mem).1.elim 0 fun s => s.2.blocks) + rest) := by
  unfold load
  split_ifs with hsnapshot hfixed
  · rw [PolicyLoad.read_eq hsnapshot hfixed] at hkeep
    have howns := LoaderMemory.owns_load hkeep rfl (FixedPoolBlocks.owns_create h.alloc)
    have hpending := LoaderMemory.pendingBlock_load parse keepsKey l.file l.parserOk
      (FixedPoolBlocks.create mem.alloc).1 (FixedPoolBlocks.create mem.alloc).2
    dsimp only
    split_ifs
    · refine howns.congr ?_
      unfold LoaderMemory.blocks
      simp only [hpending, Option.elim_some, blocks, Option.toList_none, Multiset.coe_nil,
        ← Multiset.singleton_add]
      abel
    · refine Ledger.Owns.freeOpt (Ledger.Owns.freeOpt (owns_destroy (howns.congr ?_)))
      unfold LoaderMemory.blocks
      simp only [hpending, Option.elim_none, blocks, Option.toList_none, Multiset.coe_nil,
        ← Multiset.singleton_add]
      abel
  · simpa using Ledger.Owns.free h.alloc
  · simpa using h

variable (parse keepsKey order l mem) in
/-- The load of a snapshot loses the endpoints that the file read stores over. -/
theorem SnapshotBlocks.length_lost_load :
    (load parse keepsKey order l mem).2.lost.length =
      mem.lost.length + overwrittenIn parse l.read := by
  unfold load
  split_ifs with hsnapshot hfixed
  · have hload : (LoaderMemory.load parse keepsKey l.file l.parserOk
        (FixedPoolBlocks.create mem.alloc).1
        (FixedPoolBlocks.create mem.alloc).2).2.mem.lost.length =
          mem.lost.length + overwrittenIn parse l.read := by
      rw [PolicyLoad.read_eq hsnapshot hfixed]
      exact LoaderMemory.length_lost_load rfl
    dsimp only
    split_ifs
    · exact hload
    · simpa using hload
  · simp [PolicyLoad.read, hfixed, overwrittenIn]
  · simp [PolicyLoad.read, hsnapshot, overwrittenIn]

namespace EngineMemory

variable {this : EngineMemory} {callocOk : Bool}

/-- The blocks that belong to an engine. -/
def blocks (this : EngineMemory) : Multiset ℕ :=
  this.self ::ₘ this.path ::ₘ this.activeBlocks.blocks

variable (order callocOk) in
/-- If there is no memory for the engine, the snapshot is destroyed. -/
theorem owns_create (hkeep : keepsKey = true ∨ repeatedIn parse l.read = 0) (h : mem.Owns rest) :
    match create parse keepsKey order l callocOk mem with
    | (some engine, _) => engine.mem.Owns (engine.blocks + rest)
    | (none, mem) => mem.Owns rest := by
  have howns := SnapshotBlocks.owns_load order hkeep h
  unfold create
  generalize SnapshotBlocks.load parse keepsKey order l mem = p at howns ⊢
  obtain ⟨_ | ⟨active, blocks⟩, mem⟩ := p
  · exact howns.congr (zero_add _)
  · cases callocOk with
    | false => exact SnapshotBlocks.owns_destroy howns
    | true =>
      refine howns.alloc.alloc.congr ?_
      simp only [EngineMemory.blocks, Option.elim_some, Ledger.next_alloc,
        ← Multiset.singleton_add]
      abel

variable (parse keepsKey order l callocOk mem) in
/-- A new engine loses the endpoints that its first file stores over. -/
theorem length_lost_create :
    (match create parse keepsKey order l callocOk mem with
    | (some engine, _) => engine.mem
    | (none, mem) => mem).lost.length = mem.lost.length + overwrittenIn parse l.read := by
  have hload := SnapshotBlocks.length_lost_load parse keepsKey order mem l
  unfold create
  generalize SnapshotBlocks.load parse keepsKey order l mem = p at hload ⊢
  obtain ⟨_ | ⟨active, blocks⟩, mem⟩ := p
  · exact hload
  · cases callocOk with
    | false => simpa using hload
    | true => exact hload

/-- A reload keeps what is in use in the engine's hands, unless it frees a key of the table. -/
theorem owns_reload (hkeep : keepsKey = true ∨ repeatedIn parse l.read = 0)
    (h : this.mem.Owns (this.blocks + rest)) : (this.reload parse keepsKey order l).mem.Owns
      ((this.reload parse keepsKey order l).blocks + rest) := by
  have howns := SnapshotBlocks.owns_load order hkeep h
  unfold reload
  generalize SnapshotBlocks.load parse keepsKey order l this.mem = p at howns ⊢
  obtain ⟨_ | ⟨fresh, blocks⟩, mem⟩ := p
  · exact howns.congr (zero_add _)
  · refine SnapshotBlocks.owns_destroy (howns.congr ?_)
    simp only [Option.elim_some, EngineMemory.blocks, ← Multiset.singleton_add]
    abel

/-- A reload loses the endpoints that its file stores over. -/
theorem length_lost_reload : (this.reload parse keepsKey order l).mem.lost.length =
    this.mem.lost.length + overwrittenIn parse l.read := by
  have hload := SnapshotBlocks.length_lost_load parse keepsKey order this.mem l
  unfold reload
  generalize SnapshotBlocks.load parse keepsKey order l this.mem = p at hload ⊢
  obtain ⟨_ | ⟨fresh, blocks⟩, mem⟩ := p
  · exact hload
  · simpa using hload

/-- Destroying the engine frees its blocks. -/
theorem owns_destroy (h : this.mem.Owns (this.blocks + rest)) : (this.destroy order).Owns rest := by
  refine Ledger.Owns.free (Ledger.Owns.free (SnapshotBlocks.owns_destroy (h.congr ?_)))
  unfold blocks
  simp only [← Multiset.singleton_add]
  abel

@[simp] theorem lost_destroy : (this.destroy order).lost = this.mem.lost := by
  simp [destroy]

/-- Reloads keep what is in use in the engine's hands. -/
theorem owns_reloads {ls : List PolicyLoad}
    (hkeep : keepsKey = true ∨ ∀ l ∈ ls, repeatedIn parse l.read = 0)
    (h : this.mem.Owns (this.blocks + rest)) :
    (ls.foldl (reload parse keepsKey order) this).mem.Owns
      ((ls.foldl (reload parse keepsKey order) this).blocks + rest) := by
  induction ls generalizing this with
  | nil => exact h
  | cons l ls ih =>
    have hfirst : keepsKey = true ∨ repeatedIn parse l.read = 0 :=
      hkeep.imp_right fun hall => hall l (List.mem_cons_self ..)
    exact ih (hkeep.imp_right fun hall l hl => hall l (List.mem_cons_of_mem _ hl))
      (owns_reload hfirst h)

/-- Reloads lose the endpoints that their files store over. -/
theorem length_lost_reloads {ls : List PolicyLoad} :
    (ls.foldl (reload parse keepsKey order) this).mem.lost.length =
      this.mem.lost.length + (ls.map fun l => overwrittenIn parse l.read).sum := by
  induction ls generalizing this with
  | nil => rfl
  | cons l ls ih =>
    rw [List.foldl_cons, ih, length_lost_reload, List.map_cons, List.sum_cons, add_assoc]

end EngineMemory

/-! ## Keys that are freed and stay in the table -/

namespace FixedPoolBlocks

variable {this : FixedPoolBlocks}

/-- A key of the table has been freed. -/
def Dangling (this : FixedPoolBlocks) (mem : Ledger) : Prop :=
  ∃ user key ip, this.users.get user = some (key, ip) ∧ key ∈ mem.freed

theorem Dangling.mono (h : this.Dangling mem) (hmem : mem.freed <:+ mem'.freed) :
    this.Dangling mem' := by
  obtain ⟨user, key, ip, hget, hkey⟩ := h
  exact ⟨user, key, ip, hget, hmem.subset hkey⟩

theorem suffix_add (keepsKey : Bool) (this : FixedPoolBlocks) (user : CString) (mem : Ledger) :
    mem.freed <:+ (this.add keepsKey user mem).2.freed := by
  unfold add
  dsimp only
  split
  · exact (List.suffix_cons ..).trans (List.suffix_cons ..)
  · exact List.suffix_rfl

/-- The new key is in the table, and it is freed. -/
theorem dangling_add (h : (this.users.get user).isSome = true) (mem : Ledger) :
    (this.add false user mem).1.Dangling (this.add false user mem).2 := by
  obtain ⟨old, hold⟩ := Option.isSome_iff_exists.1 h
  unfold add
  simp only [hold]
  exact ⟨user, mem.next, mem.next + 1, by simp, List.mem_cons_self ..⟩

/-- A table with a freed key keeps one, since keys are never taken out. -/
theorem Dangling.add (h : this.Dangling mem) (user : CString) :
    (this.add false user mem).1.Dangling (this.add false user mem).2 := by
  obtain ⟨user', key, ip, hget, hkey⟩ := h
  rcases eq_or_ne user' user with rfl | hne
  · exact dangling_add (by simp [hget]) mem
  · refine ⟨user', key, ip, ?_, (suffix_add false this user mem).subset hkey⟩
    unfold FixedPoolBlocks.add
    dsimp only
    split <;> simpa [hne] using hget

theorem suffix_destroy (this : FixedPoolBlocks) (mem : Ledger) :
    mem.freed <:+ (this.destroy order mem).freed :=
  (mem.suffix_freeAll _).trans ((List.suffix_cons ..).trans (List.suffix_cons ..))

variable (order) in
/-- A key that is freed already is freed again with the table. -/
theorem Dangling.destroy (h : this.Dangling mem) : ¬(this.destroy order mem).freed.Nodup := by
  obtain ⟨user, key, ip, hget, hkey⟩ := h
  have hmem : key ∈ (order.entries this.users).flatMap fun e => [e.2.2, e.2.1] := by
    refine List.mem_flatMap.2 ⟨⟨user, key, ip⟩, ?_, by simp⟩
    exact ((order.enumerates this.users).mem_iff user (key, ip)).2 hget
  have hnot := Ledger.not_nodup_of_mem hmem hkey
  intro hnodup
  exact hnot (((List.suffix_cons ..).trans (List.suffix_cons ..)).sublist.nodup hnodup)

end FixedPoolBlocks

namespace LoaderMemory

variable {this : LoaderMemory}

/-- A key of the table that is being filled has been freed. -/
def Dangling (this : LoaderMemory) : Prop :=
  this.fixedBlocks.Dangling this.mem

theorem suffix_hostBlock (host : Option Host) (mem : Ledger) :
    mem.freed <:+ (hostBlock host mem).2.freed := by
  cases host <;> exact List.suffix_rfl

/-- A pair only adds to what has been freed. -/
theorem suffix_pair (key val : CString) :
    this.mem.freed <:+ (this.pair parse keepsKey key val).mem.freed := by
  unfold pair
  dsimp only
  cases this.st with
  | user =>
    dsimp only
    split_ifs
    · cases parse val with
      | none => exact List.suffix_rfl
      | some host =>
        exact (FixedPoolBlocks.suffix_add keepsKey _ _ this.mem.alloc).trans (List.suffix_cons ..)
    · exact List.suffix_rfl
  | pool =>
    dsimp only
    split_ifs
    · exact suffix_hostBlock ..
    · exact suffix_hostBlock ..
    · exact List.suffix_rfl
  | top | users => exact List.suffix_rfl

/-- A user that is added again has a key that is freed, and it keeps one. -/
theorem dangling_pair (hm : this.Matches) {key val : CString}
    (h : this.Dangling ∨ this.toLoader.repeatedBy parse key val ≠ 0) :
    (this.pair parse false key val).Dangling := by
  unfold Dangling pair
  unfold Loader.repeatedBy at h
  cases hst : this.st with
  | user =>
    dsimp only
    simp only [hst] at h
    split_ifs with hkey
    · cases hval : parse val with
      | none => exact h.resolve_right (by simp [hval])
      | some host =>
        refine FixedPoolBlocks.Dangling.mono ?_ (List.suffix_cons ..)
        rcases h with h | h
        · have halloc : this.fixedBlocks.Dangling this.mem.alloc :=
            FixedPoolBlocks.Dangling.mono h List.suffix_rfl
          exact halloc.add this.curUser
        · refine FixedPoolBlocks.dangling_add ?_ _
          rw [hm.users]
          by_contra hnot
          simp [hnot] at h
    · exact h.resolve_right (by simp [hkey])
  | pool =>
    have hd : this.Dangling := h.resolve_right (by simp [hst])
    dsimp only
    split_ifs
    · exact FixedPoolBlocks.Dangling.mono hd (suffix_hostBlock ..)
    · exact FixedPoolBlocks.Dangling.mono hd (suffix_hostBlock ..)
    · exact hd
  | top | users => exact h.resolve_right (by simp [hst])

theorem suffix_handle (this : LoaderMemory) (e : YamlEvent) :
    this.mem.freed <:+ (this.handle parse keepsKey e).mem.freed := by
  cases e with
  | mappingStart =>
    change _ <:+ this.mappingStart.mem.freed
    unfold mappingStart
    split
    · exact Ledger.suffix_freeAll ..
    · exact Ledger.suffix_freeAll ..
    · exact List.suffix_rfl
  | scalar value =>
    change _ <:+ (this.scalar parse keepsKey value).mem.freed
    unfold scalar
    cases this.pending with
    | none => exact List.suffix_rfl
    | some key => exact (suffix_pair key _).trans (Ledger.suffix_freeAll ..)
  | _ => exact List.suffix_rfl

/-- An event keeps a freed key in the table, and frees one if it repeats a name. -/
theorem dangling_handle (hm : this.Matches)
    (h : this.Dangling ∨ this.toLoader.repeated parse e ≠ 0) :
    (this.handle parse false e).Dangling := by
  cases e with
  | mappingStart =>
    have hd : this.Dangling := h.resolve_right (by simp [Loader.repeated])
    change this.mappingStart.Dangling
    unfold mappingStart
    split
    · exact FixedPoolBlocks.Dangling.mono hd (Ledger.suffix_freeAll ..)
    · exact FixedPoolBlocks.Dangling.mono hd (Ledger.suffix_freeAll ..)
    · exact hd
  | scalar value =>
    change (this.scalar parse false value).Dangling
    unfold scalar
    cases hpending : this.pending with
    | none =>
      have hd : this.Dangling := h.resolve_right (by simp [Loader.repeated, hpending])
      exact FixedPoolBlocks.Dangling.mono hd List.suffix_rfl
    | some key =>
      have hpair : this.Dangling ∨ this.toLoader.repeatedBy parse key (.ofBytes value) ≠ 0 :=
        h.imp_right fun hne => by simpa [Loader.repeated, hpending] using hne
      exact FixedPoolBlocks.Dangling.mono (dangling_pair hm hpair) (Ledger.suffix_freeAll ..)
  | _ => exact h.resolve_right (by simp [Loader.repeated])

theorem suffix_onEvent (e : YamlEvent) :
    this.mem.freed <:+ (this.onEvent parse keepsKey e).mem.freed :=
  (suffix_handle { this with mem := this.mem.alloc } e).trans (List.suffix_cons ..)

theorem dangling_onEvent (hm : this.Matches)
    (h : this.Dangling ∨ this.toLoader.repeated parse e ≠ 0) :
    (this.onEvent parse false e).Dangling := by
  have hm' : Matches { this with mem := this.mem.alloc } :=
    ⟨hm.pending, hm.start, hm.end_, hm.users⟩
  exact FixedPoolBlocks.Dangling.mono (dangling_handle hm' h) (List.suffix_cons ..)

variable (parse keepsKey) in
theorem suffix_parseEvents (es : List YamlEvent) (this : LoaderMemory) :
    this.mem.freed <:+ (this.parseEvents parse keepsKey es).2.mem.freed := by
  induction es generalizing this with
  | nil => exact List.suffix_rfl
  | cons e es ih =>
    by_cases hend : e = .streamEnd
    · subst hend
      exact List.suffix_cons ..
    · rw [parseEvents_cons hend]
      exact (suffix_onEvent e).trans (ih _)

/-- A stream keeps a freed key in the table, and frees one if it repeats a name. -/
theorem dangling_parseEvents (hm : this.Matches)
    (h : this.Dangling ∨ this.toLoader.total parse (Loader.repeated parse) es ≠ 0) :
    (this.parseEvents parse false es).2.Dangling := by
  induction es generalizing this with
  | nil => exact h.resolve_right (by simp [Loader.total])
  | cons e es ih =>
    by_cases hend : e = .streamEnd
    · subst hend
      exact FixedPoolBlocks.Dangling.mono (h.resolve_right (by simp [Loader.total]))
        (List.suffix_cons ..)
    · rw [parseEvents_cons hend]
      refine ih (hm.onEvent parse false e) ?_
      rw [Loader.total_cons hend] at h
      rw [toLoader_onEvent]
      by_cases hfirst : this.Dangling ∨ this.toLoader.repeated parse e ≠ 0
      · exact Or.inl (dangling_onEvent hm hfirst)
      · obtain ⟨hnot, hzero⟩ := not_or.1 hfirst
        have hrest := h.resolve_left hnot
        exact Or.inr (by omega)

variable (parse keepsKey file) in
theorem suffix_load (parserOk : Bool) (fixed : FixedPoolBlocks) (mem : Ledger) :
    mem.freed <:+ (load parse keepsKey file parserOk fixed mem).2.mem.freed := by
  cases file with
  | none => exact List.suffix_rfl
  | some events =>
    cases parserOk with
    | false => exact List.suffix_cons ..
    | true =>
      have hparse := suffix_parseEvents parse keepsKey events (init fixed mem.alloc.alloc)
      exact hparse.trans ((Ledger.suffix_freeAll ..).trans
        ((List.suffix_cons ..).trans (List.suffix_cons ..)))

/-- A file that repeats a name leaves a freed key in the table. -/
theorem dangling_load {parserOk : Bool}
    (h : repeatedIn parse (if parserOk then file else none) ≠ 0) {fixed : FixedPoolBlocks}
    (hfixed : fixed.users = ∅) (mem : Ledger) :
    (load parse false file parserOk fixed mem).2.Dangling := by
  cases parserOk with
  | false => exact absurd rfl h
  | true =>
    cases file with
    | none => exact absurd rfl h
    | some events =>
      have hparse := dangling_parseEvents (matches_init hfixed mem.alloc.alloc) (Or.inr h)
      exact FixedPoolBlocks.Dangling.mono hparse ((Ledger.suffix_freeAll ..).trans
        ((List.suffix_cons ..).trans (List.suffix_cons ..)))

end LoaderMemory

namespace SnapshotBlocks

theorem suffix_destroy (this : SnapshotBlocks) (mem : Ledger) :
    mem.freed <:+ (this.destroy order mem).freed :=
  (this.fixed.suffix_destroy mem).trans ((Ledger.suffix_freeAll ..).trans
    ((Ledger.suffix_freeAll ..).trans (List.suffix_cons ..)))

variable (order) in
/-- Destroying a table with a freed key frees that key again. -/
theorem not_nodup_destroy {this : SnapshotBlocks} (h : this.fixed.Dangling mem) :
    ¬(this.destroy order mem).freed.Nodup := by
  intro hnodup
  refine h.destroy order (List.Sublist.nodup (List.IsSuffix.sublist ?_) hnodup)
  exact (Ledger.suffix_freeAll ..).trans ((Ledger.suffix_freeAll ..).trans (List.suffix_cons ..))

variable (parse keepsKey order l) in
theorem suffix_load (mem : Ledger) : mem.freed <:+ (load parse keepsKey order l mem).2.freed := by
  have hload := LoaderMemory.suffix_load parse keepsKey l.file l.parserOk
    (FixedPoolBlocks.create mem.alloc).1 (FixedPoolBlocks.create mem.alloc).2
  unfold load
  split_ifs
  · dsimp only
    split_ifs
    · exact hload
    · exact hload.trans ((suffix_destroy ..).trans
        ((Ledger.suffix_freeAll ..).trans (Ledger.suffix_freeAll ..)))
  · exact List.suffix_cons ..
  · exact List.suffix_rfl

variable (order) in
/-- A file that has a user twice leads to a key that is freed and in the table of the snapshot, or
that has been freed twice already if there is no snapshot. -/
theorem dangling_load (h : repeatedIn parse l.read ≠ 0) (mem : Ledger) :
    (load parse false order l mem).1.elim
      (¬(load parse false order l mem).2.freed.Nodup)
      fun s => s.2.fixed.Dangling (load parse false order l mem).2 := by
  unfold load
  split_ifs with hsnapshot hfixed
  · rw [PolicyLoad.read_eq hsnapshot hfixed] at h
    have hload : LoaderMemory.Dangling _ := LoaderMemory.dangling_load h
      (rfl : (FixedPoolBlocks.create mem.alloc).1.users = ∅) (FixedPoolBlocks.create mem.alloc).2
    dsimp only
    split_ifs
    · exact hload
    · intro hnodup
      refine not_nodup_destroy order
        (show (SnapshotBlocks.mk mem.next _ none none).fixed.Dangling _ from hload) ?_
      exact ((Ledger.suffix_freeAll ..).trans (Ledger.suffix_freeAll ..)).sublist.nodup hnodup
  · exact absurd (by simp [PolicyLoad.read, hfixed, repeatedIn]) h
  · exact absurd (by simp [PolicyLoad.read, hsnapshot, repeatedIn]) h

end SnapshotBlocks

namespace EngineMemory

variable {this : EngineMemory}

/-- A block has been freed twice, or will be with the active snapshot. -/
def Broken (this : EngineMemory) : Prop :=
  ¬this.mem.freed.Nodup ∨ this.activeBlocks.fixed.Dangling this.mem

theorem Broken.reload (h : this.Broken) : (this.reload parse keepsKey order l).Broken := by
  have hload := SnapshotBlocks.suffix_load parse keepsKey order l this.mem
  unfold EngineMemory.reload
  generalize SnapshotBlocks.load parse keepsKey order l this.mem = p at hload ⊢
  obtain ⟨_ | ⟨fresh, blocks⟩, mem⟩ := p
  · exact h.imp (fun hnot hnodup => hnot (hload.sublist.nodup hnodup)) fun hd => hd.mono hload
  · refine Or.inl fun hnodup => ?_
    rcases h with hnot | hd
    · exact hnot ((hload.trans (SnapshotBlocks.suffix_destroy ..)).sublist.nodup hnodup)
    · exact SnapshotBlocks.not_nodup_destroy order (hd.mono hload) hnodup

/-- A reload of a file that repeats a name frees a key that stays in the table. -/
theorem broken_reload (h : repeatedIn parse l.read ≠ 0) :
    (this.reload parse false order l).Broken := by
  have hload := SnapshotBlocks.dangling_load order h this.mem
  unfold EngineMemory.reload
  generalize SnapshotBlocks.load parse false order l this.mem = p at hload ⊢
  obtain ⟨_ | ⟨fresh, blocks⟩, mem⟩ := p
  · exact Or.inl hload
  · exact Or.inr (FixedPoolBlocks.Dangling.mono hload (SnapshotBlocks.suffix_destroy ..))

theorem Broken.reloads {ls : List PolicyLoad} (h : this.Broken) :
    (ls.foldl (EngineMemory.reload parse keepsKey order) this).Broken := by
  induction ls generalizing this with
  | nil => exact h
  | cons l ls ih => exact ih h.reload

theorem broken_reloads {ls : List PolicyLoad} (h : ∃ l ∈ ls, repeatedIn parse l.read ≠ 0) :
    (ls.foldl (EngineMemory.reload parse false order) this).Broken := by
  obtain ⟨l, hl, hrepeated⟩ := h
  obtain ⟨pre, post, rfl⟩ := List.append_of_mem hl
  rw [List.foldl_append]
  exact (broken_reload hrepeated).reloads

/-- In the end a block has been freed twice. -/
theorem Broken.destroy (h : this.Broken) : ¬(this.destroy order).freed.Nodup := by
  intro hnodup
  have hfreed : (this.activeBlocks.destroy order this.mem).freed.Nodup :=
    ((List.suffix_cons ..).trans (List.suffix_cons ..)).sublist.nodup hnodup
  rcases h with hnot | hd
  · exact hnot ((SnapshotBlocks.suffix_destroy ..).sublist.nodup hfreed)
  · exact SnapshotBlocks.not_nodup_destroy order hd hfreed

variable (order) in
/-- With a first file that repeats a name, a key stays in the table of the engine, or a block has
been freed twice when there is none. -/
theorem broken_create (h : repeatedIn parse l.read ≠ 0) (callocOk : Bool) (mem : Ledger) :
    (create parse false order l callocOk mem).1.elim
      (¬(create parse false order l callocOk mem).2.freed.Nodup) Broken := by
  have hload := SnapshotBlocks.dangling_load order h mem
  unfold create
  generalize SnapshotBlocks.load parse false order l mem = p at hload ⊢
  obtain ⟨_ | ⟨active, blocks⟩, mem⟩ := p
  · exact hload
  · cases callocOk with
    | false => exact SnapshotBlocks.not_nodup_destroy order hload
    | true => exact Or.inr (FixedPoolBlocks.Dangling.mono hload List.suffix_rfl)

end EngineMemory

/-! ## The life of an engine -/

section Life

variable (parse keepsKey order)

/-- An engine is created, reloads, and is destroyed. -/
def policyLife (l : PolicyLoad) (callocOk : Bool) (ls : List PolicyLoad) : Ledger :=
  match EngineMemory.create parse keepsKey order l callocOk .empty with
  | (some engine, _) => (ls.foldl (EngineMemory.reload parse keepsKey order) engine).destroy order
  | (none, mem) => mem

/-- There is nothing to reload if the engine is not created. -/
def filesRead (l : PolicyLoad) (callocOk : Bool) (ls : List PolicyLoad) : List PolicyFile :=
  l.read :: if callocOk && (policyEngineCreate parse l.read).isSome then ls.map PolicyLoad.read
    else []

/-- A file that has a user twice is safe only if the table keeps its key. -/
def KeysSafe (files : List PolicyFile) : Prop :=
  keepsKey = true ∨ ∀ f ∈ files, repeatedIn parse f = 0

variable {parse keepsKey} {ls : List PolicyLoad} {callocOk : Bool}

/-- The engine is created when there is something to reload. -/
theorem filesRead_eq (keepsKey : Bool) (order : TableOrder CString (ℕ × ℕ)) :
    filesRead parse l callocOk ls = l.read ::
      ((EngineMemory.create parse keepsKey order l callocOk .empty).1.elim []
        fun _ => ls.map PolicyLoad.read) := by
  have hcreate := EngineMemory.create_eq parse keepsKey order l callocOk .empty
  unfold filesRead
  cases hengine : (EngineMemory.create parse keepsKey order l callocOk .empty).1 with
  | none =>
    rw [hengine] at hcreate
    cases callocOk <;> cases hpolicy : policyEngineCreate parse l.read <;>
      simp [hpolicy, Option.filter] at hcreate ⊢
  | some engine =>
    rw [hengine] at hcreate
    cases callocOk <;> cases hpolicy : policyEngineCreate parse l.read <;>
      simp [hpolicy, Option.filter] at hcreate ⊢

/-- At the end of a life in which keys are safe nothing is in use. -/
theorem owns_policyLife (hsafe : KeysSafe parse keepsKey (filesRead parse l callocOk ls)) :
    (policyLife parse keepsKey order l callocOk ls).Owns 0 := by
  rw [filesRead_eq keepsKey order] at hsafe
  have hfirst : keepsKey = true ∨ repeatedIn parse l.read = 0 :=
    hsafe.imp_right fun hall => hall _ (List.mem_cons_self ..)
  have howns := EngineMemory.owns_create order callocOk hfirst Ledger.owns_empty
  unfold policyLife
  generalize EngineMemory.create parse keepsKey order l callocOk .empty = p at howns hsafe ⊢
  obtain ⟨_ | engine, mem⟩ := p
  · exact howns
  · have hrest : keepsKey = true ∨ ∀ l ∈ ls, repeatedIn parse l.read = 0 :=
      hsafe.imp_right fun hall l hl =>
        hall _ (List.mem_cons_of_mem _ (List.mem_map_of_mem hl))
    exact EngineMemory.owns_destroy (EngineMemory.owns_reloads hrest howns)

/-- A life loses the endpoints that its files store over. -/
theorem length_lost_policyLife : (policyLife parse keepsKey order l callocOk ls).lost.length =
    ((filesRead parse l callocOk ls).map (overwrittenIn parse)).sum := by
  have hcreate := EngineMemory.length_lost_create parse keepsKey order .empty l callocOk
  rw [filesRead_eq keepsKey order]
  unfold policyLife
  generalize EngineMemory.create parse keepsKey order l callocOk .empty = p at hcreate ⊢
  obtain ⟨_ | engine, mem⟩ := p
  · simpa [Ledger.empty] using hcreate
  · dsimp only at hcreate ⊢
    rw [EngineMemory.lost_destroy, EngineMemory.length_lost_reloads, hcreate]
    simp [Ledger.empty, Function.comp_def]

/-- A life in which a file repeats a name frees a block twice. -/
theorem not_nodup_policyLife
    (h : ∃ f ∈ filesRead parse l callocOk ls, repeatedIn parse f ≠ 0) :
    ¬(policyLife parse false order l callocOk ls).freed.Nodup := by
  obtain ⟨f, hf, hrepeated⟩ := h
  have hbroken (hfirst : f = l.read) :=
    EngineMemory.broken_create order (hfirst ▸ hrepeated) callocOk .empty
  rw [filesRead_eq false order] at hf
  unfold policyLife
  generalize EngineMemory.create parse false order l callocOk .empty = p at hbroken hf ⊢
  obtain ⟨_ | engine, mem⟩ := p
  · exact hbroken (by simpa using hf)
  · refine EngineMemory.Broken.destroy ?_
    rcases List.mem_cons.1 hf with hfirst | hlater
    · exact EngineMemory.Broken.reloads (hbroken hfirst)
    · obtain ⟨l', hl', rfl⟩ := List.mem_map.1 hlater
      exact EngineMemory.broken_reloads ⟨l', hl', hrepeated⟩

variable (parse keepsKey)

/-- No block is freed twice iff the table keeps its keys or no file has a user twice. Then the
blocks that are not freed in the end are those that are lost, each of them once. They are the
endpoints that others are stored over, as many as the files have of these. -/
theorem policy_memory (l : PolicyLoad) (callocOk : Bool) (ls : List PolicyLoad) :
    ((policyLife parse keepsKey order l callocOk ls).freed.Nodup ↔
      KeysSafe parse keepsKey (filesRead parse l callocOk ls)) ∧
    (KeysSafe parse keepsKey (filesRead parse l callocOk ls) →
      ((policyLife parse keepsKey order l callocOk ls).freed ++
        (policyLife parse keepsKey order l callocOk ls).lost).Perm
          (List.range (policyLife parse keepsKey order l callocOk ls).next)) ∧
    (policyLife parse keepsKey order l callocOk ls).lost.length =
      ((filesRead parse l callocOk ls).map (overwrittenIn parse)).sum := by
  refine ⟨⟨fun hnodup => ?_, fun hsafe => (owns_policyLife order hsafe).nodup⟩, fun hsafe => ?_,
    length_lost_policyLife order⟩
  · by_contra hnot
    obtain ⟨hkeeps, hrepeated⟩ := not_or.1 hnot
    obtain rfl : keepsKey = false := by simpa using hkeeps
    simp only [not_forall, exists_prop] at hrepeated
    exact not_nodup_policyLife order hrepeated hnodup
  · have howns := owns_policyLife order hsafe
    rw [Ledger.Owns, add_zero, Multiset.coe_add] at howns
    exact Multiset.coe_eq_coe.1 howns

end Life

end Cupp
