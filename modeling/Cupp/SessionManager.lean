import Cupp.Basic
import Cupp.Lib.TwoIndex

/-!
# The session table

`session_manager_t` files the live leases under the unique id of their IKE_SA (`byUid`)
and under their user name (`byUser`). Both tables hold pointers to the same lease objects,
and `migrate` changes the unique id inside the object. So the model has pointers
(`LeaseRef`) into a heap of leases : `obj` is what memory holds at an address, `next` the
address `malloc` returns next, and `freed` the leases `lease_destroy` was called on. A freed
object keeps its last contents, which is what a dangling pointer reads until the memory is
used again.

`Ok` is the half of the correspondence between the tables that every operation keeps,
whatever names and ids it is called with. `Bound` is the whole of it. It is kept as long
as every unique id has one owner, the name its leases are filed under.
-/

set_option linter.unusedSectionVars false

namespace Cupp

/-- A `lease_t *`. -/
abbrev LeaseRef := ℕ

/-- `lease_t`. Times are seconds. -/
structure Lease where
  username : CString
  uniqueId : UInt32
  ip : Host
  fixed : Bool
  acquired : ℤ
  deriving DecidableEq

/-- The test `now - l->acquired > timeout`. -/
def Lease.expired (l : Lease) (now : ℤ) (timeout : UInt32) : Bool :=
  now - l.acquired > timeout.toNat

/-- `private_session_manager_t` with the heap its leases live in. -/
structure SessionManager where
  byUid : Hashtable UInt32 LeaseRef
  byUser : Hashtable CString LeaseRef
  obj : LeaseRef → Lease
  next : LeaseRef
  freed : Finset LeaseRef

namespace SessionManager

/-- `session_manager_create`. -/
def create : SessionManager where
  byUid := ∅
  byUser := ∅
  obj _ := ⟨.ofBytes [], 0, .inet 0 0 0 0, false, 0⟩
  next := 0
  freed := ∅

/-- `lease_destroy`. -/
def leaseDestroy (this : SessionManager) (lease : LeaseRef) : SessionManager :=
  { this with freed := insert lease this.freed }

/-- `session_manager_t.lookup_by_user`. -/
def lookupByUser (this : SessionManager) (username : CString) : Option LeaseRef :=
  this.byUser.get username

/-- `lease_create`, then `put` into both tables. -/
def putLease (this : SessionManager) (username : CString) (uniqueId : UInt32) (ip : Host)
    (fixed : Bool) (now : ℤ) : SessionManager :=
  { this with
    byUid := this.byUid.insert uniqueId this.next
    byUser := this.byUser.insert username this.next
    obj := Function.update this.obj this.next ⟨username, uniqueId, ip, fixed, now⟩
    next := this.next + 1 }

/-- `remove` from `by_uid` at a key, and from `by_user` at the lease's name. -/
def removeLease (this : SessionManager) (uniqueId : UInt32) (lease : LeaseRef) : SessionManager :=
  { this with
    byUid := this.byUid.erase uniqueId
    byUser := this.byUser.erase (this.obj lease).username }

/-- `remove` from `by_uid` at the old unique id, and `put` at the new one. -/
def moveLease (this : SessionManager) (lease : LeaseRef) (newUniqueId : UInt32) (now : ℤ) :
    SessionManager :=
  { this with
    byUid := (this.byUid.erase (this.obj lease).uniqueId).insert newUniqueId lease
    obj := Function.update this.obj lease
      { this.obj lease with uniqueId := newUniqueId, acquired := now } }

/-- File a new lease, in place of one the user already has. `mallocOk` : `lease_create`
gets its memory. -/
def bindLease (this : SessionManager) (username : CString) (uniqueId : UInt32) (ip : Host)
    (fixed : Bool) (now : ℤ) (mallocOk : Bool) : Option LeaseRef × SessionManager :=
  let this :=
    match this.byUser.get username with
    | some existing =>
      (this.removeLease (this.obj existing).uniqueId existing).leaseDestroy existing
    | none => this
  if mallocOk then (some this.next, this.putLease username uniqueId ip fixed now)
  else (none, this)

/-- Move the lease of a user to another unique id. -/
def migrate (this : SessionManager) (username : CString) (newUniqueId : UInt32) (now : ℤ) :
    Option LeaseRef × SessionManager :=
  match this.byUser.get username with
  | some lease => (some lease, this.moveLease lease newUniqueId now)
  | none => (none, this)

/-- Take the lease of a unique id out of both tables. -/
def unbind (this : SessionManager) (uniqueId : UInt32) : Option LeaseRef × SessionManager :=
  match this.byUid.get uniqueId with
  | some lease => (some lease, this.removeLease uniqueId lease)
  | none => (none, this)

/-- The snapshot `foreach_expiring` takes of the entries of `by_uid`, listed in the order
the table enumerates them. -/
def expiring (this : SessionManager) (now : ℤ) (timeout : UInt32)
    (entries : List (Σ _ : UInt32, LeaseRef)) : List LeaseRef :=
  (entries.map fun e => e.2).filter fun lease => (this.obj lease).expired now timeout

/-- The entries `count` meets, in the order the table enumerates them. -/
def count (entries : List (Σ _ : UInt32, LeaseRef)) : ℕ :=
  entries.foldl (fun c _ => c + 1) 0

/-! ## The tables and the leases in them -/

/-- The unique id a lease records. -/
def uid (m : SessionManager) (r : LeaseRef) : UInt32 :=
  (m.obj r).uniqueId

/-- The user name a lease records. -/
def user (m : SessionManager) (r : LeaseRef) : CString :=
  (m.obj r).username

/-- Leases are filed under what they record, and what `byUid` finds `byUser` finds too.
The leases filed are allocated and not freed. -/
structure Ok (m : SessionManager) : Prop where
  filed : TwoIndex.Filed m.byUid.get m.byUser.get m.uid m.user
  lt : ∀ {n r}, m.byUser.get n = some r → r < m.next
  notFreed : ∀ {n r}, m.byUser.get n = some r → r ∉ m.freed
  freed_lt : ∀ {r}, r ∈ m.freed → r < m.next

/-- Both tables hold the same leases, each filed under the owner of its unique id. -/
structure Bound (owner : UInt32 → CString) (m : SessionManager) : Prop where
  paired : TwoIndex.Paired m.byUid.get m.byUser.get m.uid m.user
  owned : ∀ {n r}, m.byUser.get n = some r → owner (m.uid r) = n

theorem ok_create : create.Ok :=
  ⟨by simpa [create] using TwoIndex.Filed.empty, by simp [create], by simp [create],
    by simp [create]⟩

theorem bound_create (owner : UInt32 → CString) : create.Bound owner :=
  ⟨by simpa [create] using TwoIndex.Paired.empty, by simp [create]⟩

variable {m : SessionManager} {n : CString} {u : UInt32} {r : LeaseRef}
  {owner : UInt32 → CString}

/-- The next lease object is in neither table. -/
theorem Ok.fresh_next (h : m.Ok) : TwoIndex.Fresh m.byUid.get m.byUser.get m.next :=
  ⟨fun _ hu => lt_irrefl _ (h.lt (h.filed.toB hu)), fun _ hn => lt_irrefl _ (h.lt hn)⟩

theorem Ok.user_eq (h : m.Ok) (hr : m.byUser.get n = some r) : m.user r = n :=
  h.filed.keyB_eq hr

theorem Ok.uid_eq (h : m.Ok) (hr : m.byUid.get u = some r) : m.uid r = u :=
  h.filed.keyA_eq hr

/-- If the unique id of a login is taken, it is by the lease the user already has. -/
theorem Bound.eq_of_owner (h : m.Bound owner) {r' : LeaseRef}
    (hr : m.byUser.get (owner u) = some r) (hu : m.byUid.get u = some r') : r' = r :=
  h.paired.toFiled.eq_of_owner h.owned hr hu

theorem Bound.byUid_eq_none (h : m.Bound owner) (hn : m.byUser.get (owner u) = none) :
    m.byUid.get u = none := by
  by_contra hne
  obtain ⟨r', hr'⟩ := Option.ne_none_iff_exists'.1 hne
  have hb := h.paired.toB hr'
  have ho := h.owned hb
  rw [h.paired.keyA_eq hr'] at ho
  rw [← ho, hn] at hb
  simp at hb

/-! ## A new lease -/

section Put

variable (m n u) (ip : Host) (fixed : Bool) (now : ℤ)

/-- `bind_lease` of a name without a lease files a new one, if there is memory. -/
theorem bindLease_of_none (h : m.byUser.get n = none) (mallocOk : Bool) :
    m.bindLease n u ip fixed now mallocOk =
      if mallocOk then (some m.next, m.putLease n u ip fixed now) else (none, m) := by
  unfold bindLease
  rw [h]

theorem obj_putLease : (m.putLease n u ip fixed now).obj =
    Function.update m.obj m.next ⟨n, u, ip, fixed, now⟩ :=
  rfl

theorem uid_putLease : (m.putLease n u ip fixed now).uid = Function.update m.uid m.next u :=
  funext fun r => Function.apply_update (fun _ l => Lease.uniqueId l) m.obj m.next _ r

theorem user_putLease : (m.putLease n u ip fixed now).user = Function.update m.user m.next n :=
  funext fun r => Function.apply_update (fun _ l => Lease.username l) m.obj m.next _ r

@[simp] theorem byUid_putLease : (m.putLease n u ip fixed now).byUid.get =
    Function.update m.byUid.get u (some m.next) :=
  Hashtable.get_insert _ _ _

@[simp] theorem byUser_putLease : (m.putLease n u ip fixed now).byUser.get =
    Function.update m.byUser.get n (some m.next) :=
  Hashtable.get_insert _ _ _

variable {m n u ip fixed now}

/-- Filing a lease under a new name keeps the tables in order. -/
theorem Ok.putLease (h : m.Ok) (hn : m.byUser.get n = none) :
    (m.putLease n u ip fixed now).Ok := by
  have hold : ∀ {n' r'}, (m.putLease n u ip fixed now).byUser.get n' = some r' →
      r' = m.next ∨ m.byUser.get n' = some r' := by
    intro n' r' h'
    rcases eq_or_ne n' n with rfl | hne
    · exact Or.inl (by simpa [eq_comm] using h')
    · exact Or.inr (by simpa [hne] using h')
  refine ⟨?_, fun h' => ?_, fun h' => ?_, fun h' => Nat.lt_succ_of_lt (h.freed_lt h')⟩
  · rw [uid_putLease, user_putLease, byUid_putLease, byUser_putLease]
    exact h.filed.insert h.fresh_next hn u
  · rcases hold h' with rfl | h'
    · exact Nat.lt_succ_self _
    · exact Nat.lt_succ_of_lt (h.lt h')
  · rcases hold h' with rfl | h'
    · exact fun hf => lt_irrefl _ (h.freed_lt hf)
    · exact h.notFreed h'

/-- Filing a lease of the unique id's own user keeps each unique id with its user. -/
theorem Bound.putLease (h : m.Bound owner) (hok : m.Ok) (hn : m.byUser.get n = none)
    (hown : owner u = n) : (m.putLease n u ip fixed now).Bound owner := by
  subst hown
  refine ⟨?_, fun {n' r'} h' => ?_⟩
  · rw [uid_putLease, user_putLease, byUid_putLease, byUser_putLease]
    exact h.paired.insert hok.fresh_next hn (h.byUid_eq_none hn)
  · rw [uid_putLease]
    rcases eq_or_ne n' (owner u) with rfl | hne
    · obtain rfl : m.next = r' := by simpa using h'
      simp
    · have hr' : m.byUser.get n' = some r' := by simpa [hne] using h'
      rw [Function.update_of_ne (hok.lt hr').ne]
      exact h.owned hr'

end Put

/-! ## Another unique id for a lease -/

section Move

variable (m r u) (now : ℤ)

/-- `migrate` of a name with a lease moves it to the new unique id. -/
theorem migrate_of_some (h : m.byUser.get n = some r) :
    m.migrate n u now = (some r, m.moveLease r u now) := by
  unfold migrate
  rw [h]

theorem uid_moveLease : (m.moveLease r u now).uid = Function.update m.uid r u :=
  funext fun r' => Function.apply_update (fun _ l => Lease.uniqueId l) m.obj r _ r'

@[simp] theorem byUid_moveLease : (m.moveLease r u now).byUid.get =
    Function.update (Function.update m.byUid.get (m.uid r) none) u (some r) := by
  simp [moveLease, uid]

@[simp] theorem byUser_moveLease : (m.moveLease r u now).byUser = m.byUser :=
  rfl

/-- Of a lease, `migrate` changes the unique id and the time only. -/
theorem obj_moveLease (r' : LeaseRef) : ((m.moveLease r u now).obj r').username =
      (m.obj r').username ∧ ((m.moveLease r u now).obj r').ip = (m.obj r').ip ∧
    ((m.moveLease r u now).obj r').fixed = (m.obj r').fixed := by
  rcases eq_or_ne r' r with rfl | hne
  · simp [moveLease]
  · simp [moveLease, hne]

theorem user_moveLease : (m.moveLease r u now).user = m.user :=
  funext fun r' => (m.obj_moveLease u r now r').1

variable {m r u now}

/-- Moving a lease to another unique id keeps the tables in order. -/
theorem Ok.moveLease (h : m.Ok) (hn : m.byUser.get n = some r) : (m.moveLease r u now).Ok := by
  refine ⟨?_, h.lt, h.notFreed, h.freed_lt⟩
  rw [uid_moveLease, user_moveLease, byUid_moveLease, byUser_moveLease]
  exact h.filed.rekey hn u

/-- Moving a lease of the unique id's own user keeps each unique id with its user. -/
theorem Bound.moveLease (h : m.Bound owner) (hn : m.byUser.get (owner u) = some r) :
    (m.moveLease r u now).Bound owner := by
  refine ⟨?_, fun {n' r'} h' => ?_⟩
  · rw [uid_moveLease, user_moveLease, byUid_moveLease, byUser_moveLease]
    exact h.paired.rekey hn fun r' hr' => h.eq_of_owner hn hr'
  · rw [uid_moveLease]
    rcases eq_or_ne r' r with rfl | hne
    · rw [Function.update_self]
      exact h.paired.toFiled.eq_of_byB hn h'
    · rw [Function.update_of_ne hne]
      exact h.owned h'

end Move

/-! ## Taking a lease out -/

section Remove

variable (m r u)

theorem unbind_of_some (h : m.byUid.get u = some r) :
    m.unbind u = (some r, m.removeLease u r) := by
  unfold unbind
  rw [h]

theorem unbind_of_none (h : m.byUid.get u = none) : m.unbind u = (none, m) := by
  unfold unbind
  rw [h]

@[simp] theorem byUid_removeLease :
    (m.removeLease u r).byUid.get = Function.update m.byUid.get u none :=
  Hashtable.get_erase _ _

@[simp] theorem byUser_removeLease :
    (m.removeLease u r).byUser.get = Function.update m.byUser.get (m.user r) none :=
  Hashtable.get_erase _ _

variable {m r u}

theorem byUser_of_removeLease {n' : CString} {r' : LeaseRef}
    (h : (m.removeLease u r).byUser.get n' = some r') :
    n' ≠ m.user r ∧ m.byUser.get n' = some r' := by
  rcases eq_or_ne n' (m.user r) with rfl | hne
  · simp at h
  · exact ⟨hne, by simpa [hne] using h⟩

/-- Taking a lease out keeps the tables in order. -/
theorem Ok.removeLease (h : m.Ok) (hu : m.byUid.get u = some r) : (m.removeLease u r).Ok := by
  refine ⟨?_, fun h' => h.lt (byUser_of_removeLease h').2,
    fun h' => h.notFreed (byUser_of_removeLease h').2, h.freed_lt⟩
  rw [byUid_removeLease, byUser_removeLease]
  exact h.filed.remove hu

/-- Taking a lease out keeps each unique id with its user. -/
theorem Bound.removeLease (h : m.Bound owner) (hu : m.byUid.get u = some r) :
    (m.removeLease u r).Bound owner := by
  refine ⟨?_, fun h' => h.owned (byUser_of_removeLease h').2⟩
  rw [byUid_removeLease, byUser_removeLease]
  exact h.paired.remove hu

/-- A lease that is in no table can be destroyed. -/
theorem Ok.leaseDestroy (h : m.Ok) (hlt : r < m.next) (hr : ∀ n, m.byUser.get n ≠ some r) :
    (m.leaseDestroy r).Ok := by
  refine ⟨h.filed, h.lt, fun {n r'} h' hf => ?_, fun hf => ?_⟩
  · rcases Finset.mem_insert.1 hf with rfl | hf
    · exact hr n h'
    · exact h.notFreed h' hf
  · rcases Finset.mem_insert.1 hf with rfl | hf
    · exact hlt
    · exact h.freed_lt hf

theorem Bound.leaseDestroy (h : m.Bound owner) : (m.leaseDestroy r).Bound owner :=
  ⟨h.paired, h.owned⟩

end Remove

/-! ## Leases taken out and not destroyed -/

/-- `rs` are distinct leases that are in no table and not freed. -/
structure Detached (m : SessionManager) (rs : List LeaseRef) : Prop where
  nodup : rs.Nodup
  unfiled : ∀ {r}, r ∈ rs → ∀ n, m.byUser.get n ≠ some r
  lt : ∀ {r}, r ∈ rs → r < m.next
  notFreed : ∀ {r}, r ∈ rs → r ∉ m.freed

section Detached

variable {rs : List LeaseRef} {ip : Host} {fixed : Bool} {now : ℤ}

theorem Detached.nil (m : SessionManager) : m.Detached [] :=
  ⟨List.nodup_nil, nofun, nofun, nofun⟩

/-- A new lease is none of those taken out. -/
theorem Detached.putLease (h : m.Detached rs) : (m.putLease n u ip fixed now).Detached rs := by
  refine ⟨h.nodup, fun {r} hr n' h' => ?_, fun hr => Nat.lt_succ_of_lt (h.lt hr), h.notFreed⟩
  rcases eq_or_ne n' n with rfl | hne
  · obtain rfl : m.next = r := by simpa using h'
    exact lt_irrefl _ (h.lt hr)
  · exact h.unfiled hr n' (by simpa [hne] using h')

theorem Detached.moveLease (h : m.Detached rs) : (m.moveLease r u now).Detached rs :=
  ⟨h.nodup, h.unfiled, h.lt, h.notFreed⟩

/-- A lease that is taken out joins them. -/
theorem Detached.removeLease (h : m.Detached rs) (hok : m.Ok) (hu : m.byUid.get u = some r) :
    (m.removeLease u r).Detached (r :: rs) := by
  have hfiled := hok.filed.toB hu
  refine ⟨List.nodup_cons.2 ⟨fun hr => h.unfiled hr _ hfiled, h.nodup⟩, ?_, ?_, ?_⟩
  · intro r' hr' n' h'
    obtain ⟨hne, hold⟩ := byUser_of_removeLease h'
    rcases List.mem_cons.1 hr' with rfl | hr'
    · exact hne (hok.user_eq hold).symm
    · exact h.unfiled hr' n' hold
  · intro r' hr'
    rcases List.mem_cons.1 hr' with rfl | hr'
    · exact hok.lt hfiled
    · exact h.lt hr'
  · intro r' hr'
    rcases List.mem_cons.1 hr' with rfl | hr'
    · exact hok.notFreed hfiled
    · exact h.notFreed hr'

/-- A lease among them can be destroyed, and is then no longer among them. -/
theorem Detached.leaseDestroy (h : m.Detached rs) (hok : m.Ok) (hr : r ∈ rs) :
    (m.leaseDestroy r).Ok ∧ (m.leaseDestroy r).Detached (rs.erase r) := by
  refine ⟨hok.leaseDestroy (h.lt hr) (h.unfiled hr), h.nodup.erase r,
    fun hr' => h.unfiled (List.mem_of_mem_erase hr'), fun hr' => h.lt (List.mem_of_mem_erase hr'),
    fun {r'} hr' hf => ?_⟩
  rcases Finset.mem_insert.1 hf with rfl | hf
  · exact h.nodup.not_mem_erase hr'
  · exact h.notFreed (List.mem_of_mem_erase hr') hf

end Detached

end SessionManager

end Cupp
