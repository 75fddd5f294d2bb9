import Cupp.Identity
import Cupp.PolicyEngine
import Cupp.SessionManager

/-!
# The allocator

`ip_allocator_t` answers `acquire_address` from the lease the user already has, from the
fixed table, or from the dynamic pool, and takes addresses back in `release_address`, the
listener's `ike_updown`, and `sweep`.

`acquire_address` works under the allocator's lock up to the return (`acquireEnter`), but
for the roll-back when the answer cannot be cloned, which releases the lease after the
unlock. `release_by_uid_impl` takes the lease out of the tables under the lock
(`releaseUnbind`), and gives its address back and destroys it after the unlock
(`releaseFinish`). These critical sections are the functions here, and the whole calls are
their compositions.

What the allocator asks of its surroundings is an argument : which allocations succeed
(`Alloc`), the time, the order in which a table enumerates its entries, and which unique
ids `checkout_by_id` finds.
-/

namespace Cupp

/-- The allocations of one `acquire_address` call, each with whether it succeeds. -/
structure Alloc where
  /-- `strdup` of the placeholder name. -/
  anonName : Bool
  /-- Clone of the fixed address for the lease. -/
  fixedClone : Bool
  /-- Host of the pool address. -/
  poolHost : Bool
  /-- `malloc` of the lease. -/
  lease : Bool
  /-- Clone of the address for the caller. -/
  result : Bool
  deriving DecidableEq

/-- All allocations succeed. -/
def Alloc.ok : Alloc :=
  ⟨true, true, true, true, true⟩

/-- The arguments of `acquire_address` with the time and the memory it runs with. -/
structure AcquireCall where
  pools : Option (List (Option CString))
  ikeSa : Option IkeSa
  now : ℤ
  mem : Alloc
  deriving DecidableEq

/-- How the locked part of `acquire_address` ends : with the answer, or with a lease to be
released again because its address could not be cloned. -/
inductive Acquired
  | done (answer : Option Host)
  | rollback
  deriving DecidableEq

/-- `private_ip_allocator_t`. -/
structure IpAllocator where
  policy : PolicyEngine
  dyn : Option DynamicPool
  sessions : SessionManager
  poolName : CString
  leaseTimeout : UInt32

/-- `ip_allocator_create` : a policy without a pool leaves the pool out, a timeout of 0 is an hour.
-/
def ipAllocatorCreate (policy : PolicyEngine) (poolName : Option CString) (leaseTimeout : UInt32)
    (calloc : Option (ℕ → UInt8)) : IpAllocator where
  policy := policy
  dyn :=
    match policy.getPool with
    | some (start, end_) => dynamicPoolCreate start end_ calloc
    | none => none
  sessions := .create
  poolName := poolName.getD (.ofBytes (ascii ['c', 'u', 'p', 'p']))
  leaseTimeout := if leaseTimeout = 0 then 3600 else leaseTimeout

namespace IpAllocator

/-- `pools_include` : one of the names is the allocator's pool name. -/
def poolsInclude (this : IpAllocator) (pools : Option (List (Option CString))) : Bool :=
  match pools with
  | none => false
  | some names => names.any fun name => name = some this.poolName

/-! ## Releasing -/

/-- The locked part of `release_by_uid_impl`. -/
def releaseUnbind (this : IpAllocator) (uid : UInt32) : Option LeaseRef × IpAllocator :=
  let (lease, sessions) := this.sessions.unbind uid
  (lease, { this with sessions := sessions })

/-- The part of `release_by_uid_impl` after the unlock. -/
def releaseFinish (this : IpAllocator) (lease : LeaseRef) : IpAllocator :=
  { this with
    dyn :=
      if (this.sessions.obj lease).fixed then this.dyn
      else this.dyn.map (·.release (this.sessions.obj lease).ip)
    sessions := this.sessions.leaseDestroy lease }

/-- `release_by_uid_impl`, its two sections in a row. -/
def releaseByUidImpl (this : IpAllocator) (uid : UInt32) : Bool × IpAllocator :=
  match this.releaseUnbind uid with
  | (none, this) => (false, this)
  | (some lease, this) => (true, this.releaseFinish lease)

/-- `release_address`, which looks at the SA only. -/
def releaseAddress (this : IpAllocator) (_pools : Option (List (Option CString)))
    (_address : Option Host) (ikeSa : Option IkeSa) : Bool × IpAllocator :=
  match ikeSa with
  | none => (false, this)
  | some ikeSa => this.releaseByUidImpl ikeSa.uniqueId

/-- The listener's hook, which stays registered. -/
def ikeUpdown (this : IpAllocator) (ikeSa : Option IkeSa) (up : Bool) : Bool × IpAllocator :=
  match ikeSa with
  | some ikeSa => if up then (true, this) else (true, (this.releaseByUidImpl ikeSa.uniqueId).2)
  | none => (true, this)

/-! ## Acquiring -/

/-- The address of a user without a lease : the fixed one if there is one, else one of the
pool. The flag is `is_fixed`. -/
def newAddress (this : IpAllocator) (username : CString) (mem : Alloc) :
    Option Host × Bool × Option DynamicPool :=
  let fixedSrc := if isAnon username then none else this.policy.lookupFixed username
  match fixedSrc.filter fun _ => mem.fixedClone with
  | some ip => (some ip, true, this.dyn)
  | none =>
    match this.dyn with
    | some dyn =>
      let (ip, dyn) := dyn.acquire mem.poolHost
      (ip, false, some dyn)
    | none => (none, false, none)

/-- `acquire_address` between lock and unlock. -/
def acquireSection (this : IpAllocator) (username : CString) (uid : UInt32) (now : ℤ)
    (mem : Alloc) : Acquired × IpAllocator :=
  match this.sessions.lookupByUser username with
  | some lease =>
    let sessions := (this.sessions.migrate username uid now).2
    (.done (if mem.result then some (sessions.obj lease).ip else none),
      { this with sessions := sessions })
  | none =>
    match this.newAddress username mem with
    | (none, _, dyn) => (.done none, { this with dyn := dyn })
    | (some ip, isFixed, dyn) =>
      match this.sessions.bindLease username uid ip isFixed now mem.lease with
      | (none, sessions) => (.done none, { this with dyn := dyn, sessions := sessions })
      | (some lease, sessions) =>
        (if mem.result then .done (some (sessions.obj lease).ip) else .rollback,
          { this with dyn := dyn, sessions := sessions })

/-- `acquire_address` up to the unlock. -/
def acquireEnter (this : IpAllocator) (call : AcquireCall) : Acquired × IpAllocator :=
  match call.ikeSa with
  | none => (.done none, this)
  | some ikeSa =>
    if !this.poolsInclude call.pools then (.done none, this)
    else if (identityGetUsername ikeSa).isNone && !call.mem.anonName then (.done none, this)
    else this.acquireSection (sessionName ikeSa) ikeSa.uniqueId call.now call.mem

/-- `acquire_address`, with the release that follows when the answer cannot be cloned. -/
def acquireAddress (this : IpAllocator) (call : AcquireCall) : Option Host × IpAllocator :=
  match this.acquireEnter call, call.ikeSa with
  | (.done answer, this), _ => (answer, this)
  | (.rollback, this), some ikeSa => (none, (this.releaseByUidImpl ikeSa.uniqueId).2)
  | (.rollback, this), none => (none, this)

/-! ## Sweeping -/

/-- `sweep_cb` : release a lease whose IKE_SA cannot be checked out. -/
def sweepCb (this : IpAllocator) (checkoutById : UInt32 → Bool) (lease : LeaseRef) :
    IpAllocator :=
  if checkoutById (this.sessions.obj lease).uniqueId then this
  else (this.releaseByUidImpl (this.sessions.obj lease).uniqueId).2

/-- A sweep that nothing interrupts, the table enumerated as `entries`. -/
def sweep (this : IpAllocator) (now : ℤ) (checkoutById : UInt32 → Bool)
    (entries : List (Σ _ : UInt32, LeaseRef)) : IpAllocator :=
  (this.sessions.expiring now this.leaseTimeout entries).foldl
    (fun this lease => this.sweepCb checkoutById lease) this

/-- `reload` of the policy the allocator borrows. -/
def reloadPolicy (hostCreateFromString : CString → Option Host) (this : IpAllocator)
    (file : PolicyFile) : Bool × IpAllocator :=
  let (ok, policy) := this.policy.reload hostCreateFromString file
  (ok, { this with policy := policy })

/-! ## What `acquire_address` can do -/

/-- The IKE_SA of a call that is for this plugin and has a name to work with. -/
def served (s : IpAllocator) (call : AcquireCall) : Option IkeSa :=
  call.ikeSa.filter fun ikeSa =>
    s.poolsInclude call.pools && ((identityGetUsername ikeSa).isSome || call.mem.anonName)

theorem ikeSa_of_served {s : IpAllocator} {call : AcquireCall} {ikeSa : IkeSa}
    (h : s.served call = some ikeSa) : call.ikeSa = some ikeSa :=
  (Option.filter_eq_some_iff.1 h).1

/-- Only served calls get to the tables. -/
theorem acquireEnter_eq (s : IpAllocator) (call : AcquireCall) : s.acquireEnter call =
    match s.served call with
    | none => (.done none, s)
    | some ikeSa => s.acquireSection (sessionName ikeSa) ikeSa.uniqueId call.now call.mem := by
  unfold acquireEnter served
  cases call.ikeSa with
  | none => rfl
  | some ikeSa =>
    cases s.poolsInclude call.pools with
    | false => simp [Option.filter]
    | true =>
      cases hname : identityGetUsername ikeSa with
      | none => cases call.mem.anonName <;> simp [Option.filter, hname]
      | some name => simp [Option.filter, hname]

/-- Where the address of a user without a lease comes from. -/
inductive NewAddress (s : IpAllocator) (n : CString) (mem : Alloc) :
    Option Host → Bool → Option DynamicPool → Prop
  /-- The fixed table has an address for the name. -/
  | fixed {ip : Host} : isAnon n = false → s.policy.lookupFixed n = some ip →
      mem.fixedClone = true → NewAddress s n mem (some ip) true s.dyn
  /-- It has none, and there is no pool. -/
  | noPool : (isAnon n = false → mem.fixedClone = true → s.policy.lookupFixed n = none) →
      s.dyn = none → NewAddress s n mem none false none
  /-- It has none, and the pool is asked. -/
  | pool {p p' : DynamicPool} {ip : Option Host} :
      (isAnon n = false → mem.fixedClone = true → s.policy.lookupFixed n = none) →
      s.dyn = some p → p.acquire mem.poolHost = (ip, p') → NewAddress s n mem ip false (some p')

/-- What `acquire_address` finds for a name without a lease. -/
theorem newAddress_spec (s : IpAllocator) (n : CString) (mem : Alloc) :
    NewAddress s n mem (s.newAddress n mem).1 (s.newAddress n mem).2.1
      (s.newAddress n mem).2.2 := by
  unfold newAddress
  simp only
  cases hf : (if isAnon n then none else s.policy.lookupFixed n).filter fun _ => mem.fixedClone with
  | some ip =>
    obtain ⟨hsrc, hclone⟩ := Option.filter_eq_some_iff.1 hf
    by_cases ha : isAnon n = true
    · simp [ha] at hsrc
    · exact .fixed (by simpa using ha) (by simpa [ha] using hsrc) hclone
  | none =>
    have hnone : isAnon n = false → mem.fixedClone = true → s.policy.lookupFixed n = none := by
      intro ha hc
      exact Option.eq_none_iff_forall_ne_some.2
        (by simpa [ha, hc, Option.filter_eq_none_iff] using hf)
    cases hd : s.dyn with
    | none => exact .noPool hnone hd
    | some p => exact .pool hnone hd rfl

/-- The ways the locked part of `acquire_address` can go. -/
inductive AcquireCase (s : IpAllocator) (call : AcquireCall) : Acquired → IpAllocator → Prop
  /-- The call is not for this plugin, or has no name to work with. -/
  | skipped : s.served call = none → AcquireCase s call (.done none) s
  /-- The user has a lease, which moves to the unique id of the call. -/
  | reused {ikeSa : IkeSa} {r : LeaseRef} : s.served call = some ikeSa →
      s.sessions.byUser.get (sessionName ikeSa) = some r →
      AcquireCase s call (.done (if call.mem.result then some (s.sessions.obj r).ip else none))
        { s with sessions := s.sessions.moveLease r ikeSa.uniqueId call.now }
  /-- The user has no lease and gets none. -/
  | refused {ikeSa : IkeSa} {ip : Option Host} {isFixed : Bool} {dyn : Option DynamicPool} :
      s.served call = some ikeSa → s.sessions.byUser.get (sessionName ikeSa) = none →
      NewAddress s (sessionName ikeSa) call.mem ip isFixed dyn →
      (ip = none ∨ call.mem.lease = false) →
      AcquireCase s call (.done none) { s with dyn := dyn }
  /-- The user has no lease and gets one. -/
  | bound {ikeSa : IkeSa} {ip : Host} {isFixed : Bool} {dyn : Option DynamicPool} :
      s.served call = some ikeSa → s.sessions.byUser.get (sessionName ikeSa) = none →
      NewAddress s (sessionName ikeSa) call.mem (some ip) isFixed dyn →
      call.mem.lease = true →
      AcquireCase s call (if call.mem.result then .done (some ip) else .rollback)
        { s with
          dyn := dyn
          sessions := s.sessions.putLease (sessionName ikeSa) ikeSa.uniqueId ip isFixed call.now }

/-- The section of `acquire_address` for an SA that is served. -/
theorem acquireSection_case (s : IpAllocator) {call : AcquireCall} {ikeSa : IkeSa}
    (hserved : s.served call = some ikeSa) : AcquireCase s call
      (s.acquireSection (sessionName ikeSa) ikeSa.uniqueId call.now call.mem).1
      (s.acquireSection (sessionName ikeSa) ikeSa.uniqueId call.now call.mem).2 := by
  unfold acquireSection SessionManager.lookupByUser
  cases hr : s.sessions.byUser.get (sessionName ikeSa) with
  | some r =>
    simp only [SessionManager.migrate_of_some _ _ _ _ hr,
      (s.sessions.obj_moveLease ikeSa.uniqueId r call.now r).2.1]
    exact .reused hserved hr
  | none =>
    have hnew := s.newAddress_spec (sessionName ikeSa) call.mem
    revert hnew
    obtain ⟨ip, isFixed, dyn⟩ := s.newAddress (sessionName ikeSa) call.mem
    intro hnew
    cases ip with
    | none => exact .refused hserved hr hnew (Or.inl rfl)
    | some ip =>
      simp only [SessionManager.bindLease_of_none _ _ _ _ _ _ hr]
      cases hl : call.mem.lease with
      | false => exact .refused hserved hr hnew (Or.inr hl)
      | true =>
        simp only [if_true, SessionManager.obj_putLease, Function.update_self]
        exact .bound hserved hr hnew hl

theorem acquireEnter_cases {s s' : IpAllocator} {call : AcquireCall} {answer : Acquired}
    (h : s.acquireEnter call = (answer, s')) : AcquireCase s call answer s' := by
  rw [acquireEnter_eq] at h
  cases hserved : s.served call with
  | none =>
    simp only [hserved, Prod.mk.injEq] at h
    obtain ⟨rfl, rfl⟩ := h
    exact .skipped hserved
  | some ikeSa =>
    simp only [hserved] at h
    have hcase := s.acquireSection_case hserved
    rwa [h] at hcase

theorem acquireAddress_of_done {s s' : IpAllocator} {call : AcquireCall} {answer : Option Host}
    (hacq : s.acquireEnter call = (.done answer, s')) : s.acquireAddress call = (answer, s') := by
  rw [acquireAddress, hacq]

end IpAllocator

end Cupp
