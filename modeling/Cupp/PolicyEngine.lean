import Cupp.DynamicPool
import Cupp.YamlLoader

/-!
# The policy engine

`policy_engine_t` holds the snapshot in force. A reload builds a fresh snapshot from the
file and makes it the active one, or leaves the old one in force if the file does not
load. `lookup_fixed` and `get_pool` read the active snapshot.
-/

namespace Cupp

/-- `snapshot_t`. -/
structure Snapshot where
  fixed : FixedPool
  poolStart : Option Host
  poolEnd : Option Host

/-- Build a snapshot from a file, `none` if it cannot be read to its end. -/
def snapshotLoad (hostCreateFromString : CString → Option Host) (file : PolicyFile) :
    Option Snapshot :=
  match yamlLoadPolicy hostCreateFromString file with
  | (0, loader) => some ⟨loader.fixed, loader.poolStart, loader.poolEnd⟩
  | _ => none

namespace Snapshot

/-- `get_pool` at this snapshot : both endpoints, or nothing. -/
def pool (s : Snapshot) : Option (Host × Host) :=
  match s.poolStart, s.poolEnd with
  | some start, some end_ => some (start, end_)
  | _, _ => none

/-- The address lies in the range the snapshot configures for the pool. -/
def inPool (s : Snapshot) (ip : Host) : Bool :=
  match s.pool with
  | some (start, end_) => start.isInet && end_.isInet && ip.isInet &&
      (hostToU32 start ≤ hostToU32 ip && hostToU32 ip ≤ hostToU32 end_)
  | none => false

/-- The pool has at most `2^32 - 8` addresses. -/
def PoolFits (s : Snapshot) : Prop :=
  ∀ ends ∈ s.pool, (hostToU32 ends.2).toNat - (hostToU32 ends.1).toNat + 1 ≤ 2 ^ 32 - 8

instance (s : Snapshot) : Decidable s.PoolFits :=
  inferInstanceAs (Decidable (∀ ends ∈ s.pool, _))

/-- No two users have the same fixed address, and none has one in the pool. -/
structure ConflictFree (s : Snapshot) : Prop where
  distinct : (s.fixed.users.entries.map fun e => e.2).Nodup
  outside : ∀ e ∈ s.fixed.users.entries, s.inPool e.2 = false

instance (s : Snapshot) : Decidable s.ConflictFree :=
  decidable_of_iff ((s.fixed.users.entries.map fun e => e.2).Nodup ∧
      ∀ e ∈ s.fixed.users.entries, s.inPool e.2 = false)
    ⟨fun h => ⟨h.1, h.2⟩, fun h => ⟨h.distinct, h.outside⟩⟩

/-- Without conflicts no two users have one address. -/
theorem ConflictFree.eq_of_lookup {s : Snapshot} (h : s.ConflictFree) {m n : CString} {ip : Host}
    (hm : s.fixed.lookup m = some ip) (hn : s.fixed.lookup n = some ip) : m = n := by
  have heq := Multiset.inj_on_of_nodup_map h.distinct _ ((Hashtable.mem_entries _ m ip).2 hm) _
    ((Hashtable.mem_entries _ n ip).2 hn) rfl
  exact congrArg Sigma.fst heq

/-- Without conflicts a user's address is not in the range of the pool. -/
theorem ConflictFree.notInPool {s : Snapshot} (h : s.ConflictFree) {n : CString} {ip : Host}
    (hn : s.fixed.lookup n = some ip) : s.inPool ip = false :=
  h.outside _ ((Hashtable.mem_entries _ n ip).2 hn)

end Snapshot

/-- `private_policy_engine_t`. -/
structure PolicyEngine where
  active : Snapshot

namespace PolicyEngine

/-- `policy_engine_t.lookup_fixed`, in the active snapshot. -/
def lookupFixed (this : PolicyEngine) (user : CString) : Option Host :=
  this.active.fixed.lookup user

/-- `policy_engine_t.get_pool`, of the active snapshot. -/
def getPool (this : PolicyEngine) : Option (Host × Host) :=
  this.active.pool

/-- `policy_engine_t.reload` : a file that does not load leaves the active snapshot in place. -/
def reload (hostCreateFromString : CString → Option Host) (this : PolicyEngine)
    (file : PolicyFile) : Bool × PolicyEngine :=
  match snapshotLoad hostCreateFromString file with
  | none => (false, this)
  | some fresh => (true, { this with active := fresh })

end PolicyEngine

/-- `policy_engine_create` : there is no engine without a first snapshot. -/
def policyEngineCreate (hostCreateFromString : CString → Option Host) (file : PolicyFile) :
    Option PolicyEngine :=
  (snapshotLoad hostCreateFromString file).map fun s => ⟨s⟩

/-! ## The pool of a snapshot -/

/-- A pool created from the endpoints of a snapshot has the snapshot's range. -/
theorem isInPool_eq_inPool {s : Snapshot} {start end_ : Host} {calloc : Option (ℕ → UInt8)}
    {p : DynamicPool} (hpool : s.pool = some (start, end_))
    (hp : dynamicPoolCreate start end_ calloc = some p) (ip : Host) :
    p.isInPool ip = s.inPool ip := by
  obtain ⟨-, hs, he⟩ := sized_of_create hp
  obtain ⟨hstart, hend⟩ := isInet_of_create hp
  simp only [DynamicPool.isInPool, Snapshot.inPool, hpool, hs, he, hstart, hend, Bool.true_and]

end Cupp
