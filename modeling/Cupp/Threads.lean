import Cupp.Lib.Concurrent
import Cupp.Lib.Shuffle
import Cupp.Sections

/-!
# Threads, access by access

The critical sections are steps of their own in `World`. Here they are code again : a call takes
the lock, asks the session table, the policy and the pool one after the other, and gives the lock
back, and between any two of these accesses other threads may have theirs (`Pc.next`). The session
table and the pool have mutexes inside, which are taken for one access and under which nothing else
is waited for, so such an access is one step. The policy is read and switched without the
allocator's lock, and a release gives its address back without it. A fixed address is looked up and
copied in one step. That a reload may free it in between is the subject of `EngineWorld`.

Around the calls there is charon (`ThreadPlace.next`). A worker may have an IKE_SA checked out
during its call, and no other thread gets that SA until it is checked in. A sweep has `sweep_lock`
all the time, and checks out the SA of each lease that has expired.
-/

set_option linter.unusedSectionVars false

open Concurrent Transition

namespace Cupp

/-- The locks of the allocator, of the policy engine and of the plugin, and an IKE_SA that is
checked out. -/
inductive Lock
  | lock
  | reloadLock
  | sweepLock
  | ikeSa (uid : UInt32)
  deriving DecidableEq

/-- Where a thread is in the code of the plugin, with its local variables. It is before the access
that the place is named after. -/
inductive Pc
  | acquireAddress (call : AcquireCall)
  | acquireLock (call : AcquireCall) (ikeSa : IkeSa)
  | lookupByUser (call : AcquireCall) (ikeSa : IkeSa)
  | migrate (call : AcquireCall) (ikeSa : IkeSa) (lease : LeaseRef)
  | lookupFixed (call : AcquireCall) (ikeSa : IkeSa)
  | dynAcquire (call : AcquireCall) (ikeSa : IkeSa)
  | bindLease (call : AcquireCall) (ikeSa : IkeSa) (ip : Host) (isFixed : Bool)
  | acquireUnlock (call : AcquireCall) (ikeSa : IkeSa) (answer : Acquired)
  | releaseByUidImpl (uid : UInt32)
  | unbind (uid : UInt32)
  | releaseUnlock (uid : UInt32) (lease : Option LeaseRef)
  | dynRelease (lease : LeaseRef)
  | leaseDestroy (lease : LeaseRef)
  | reload (file : PolicyFile)
  | snapshotLoad (file : PolicyFile)
  | switch (file : PolicyFile) (fresh : Snapshot)
  | reloadUnlock (file : PolicyFile)

namespace Pc

/-- The answer of `acquire_address` after `bind_lease`. -/
def bound (call : AcquireCall) (sessions : SessionManager) : Option LeaseRef → Acquired
  | some lease => if call.mem.result then .done (some (sessions.obj lease).ip) else .rollback
  | none => .done none

/-- One access. There is no place after it if the call has returned. A section of the code is
complete with its last access. -/
def next (parse : CString → Option Host) (this : IpAllocator) :
    Pc → IpAllocator × Option Pc × Option CriticalSection
  | acquireAddress call =>
    match this.served call with
    | some ikeSa => (this, some (acquireLock call ikeSa), none)
    | none => (this, none, some (.acquire call (.done none)))
  | acquireLock call ikeSa => (this, some (lookupByUser call ikeSa), none)
  | lookupByUser call ikeSa =>
    match this.sessions.lookupByUser (sessionName ikeSa) with
    | some lease => (this, some (migrate call ikeSa lease), none)
    | none => (this, some (lookupFixed call ikeSa), none)
  | migrate call ikeSa lease =>
    let sessions := (this.sessions.migrate (sessionName ikeSa) ikeSa.uniqueId call.now).2
    let answer := if call.mem.result then some (sessions.obj lease).ip else none
    ({ this with sessions := sessions }, some (acquireUnlock call ikeSa (.done answer)), none)
  | lookupFixed call ikeSa =>
    let fixedSrc :=
      if isAnon (sessionName ikeSa) then none else this.policy.lookupFixed (sessionName ikeSa)
    match fixedSrc.filter fun _ => call.mem.fixedClone with
    | some ip => (this, some (bindLease call ikeSa ip true), none)
    | none => (this, some (dynAcquire call ikeSa), none)
  | dynAcquire call ikeSa =>
    match this.dyn with
    | some dyn =>
      let (ip, dyn) := dyn.acquire call.mem.poolHost
      let pc :=
        match ip with
        | some ip => bindLease call ikeSa ip false
        | none => acquireUnlock call ikeSa (.done none)
      ({ this with dyn := some dyn }, some pc, none)
    | none => (this, some (acquireUnlock call ikeSa (.done none)), none)
  | bindLease call ikeSa ip isFixed =>
    let (lease, sessions) := this.sessions.bindLease (sessionName ikeSa) ikeSa.uniqueId ip isFixed
      call.now call.mem.lease
    ({ this with sessions := sessions },
      some (acquireUnlock call ikeSa (bound call sessions lease)), none)
  | acquireUnlock call ikeSa answer =>
    match answer with
    | .done _ => (this, none, some (.acquire call answer))
    | .rollback => (this, some (releaseByUidImpl ikeSa.uniqueId), some (.acquire call answer))
  | releaseByUidImpl uid => (this, some (unbind uid), none)
  | unbind uid =>
    let (lease, sessions) := this.sessions.unbind uid
    ({ this with sessions := sessions }, some (releaseUnlock uid lease), none)
  | releaseUnlock uid lease => (this, lease.map dynRelease, some (.unbind uid))
  | dynRelease lease =>
    let dyn :=
      if (this.sessions.obj lease).fixed then this.dyn
      else this.dyn.map (·.release (this.sessions.obj lease).ip)
    ({ this with dyn := dyn }, some (leaseDestroy lease), none)
  | leaseDestroy lease =>
    ({ this with sessions := this.sessions.leaseDestroy lease }, none, some (.finish lease))
  | reload file => (this, some (snapshotLoad file), none)
  | snapshotLoad file =>
    match Cupp.snapshotLoad parse file with
    | some fresh => (this, some (switch file fresh), none)
    | none => (this, some (reloadUnlock file), none)
  | switch file fresh =>
    ({ this with policy := { this.policy with active := fresh } }, some (reloadUnlock file), none)
  | reloadUnlock file => (this, none, some (.reload file))

/-- The lock that the thread has. -/
def locks : Pc → Finset Lock
  | lookupByUser .. | migrate .. | lookupFixed .. | dynAcquire .. | bindLease .. | acquireUnlock ..
  | unbind _ | releaseUnlock .. => {.lock}
  | snapshotLoad _ | switch .. | reloadUnlock _ => {.reloadLock}
  | acquireAddress _ | acquireLock .. | releaseByUidImpl _ | dynRelease _ | leaseDestroy _
  | reload _ => ∅

end Pc

/-- What charon asks the plugin for. -/
inductive ThreadCall
  | acquireAddress (call : AcquireCall)
  | release (uid : UInt32)
  | reload (file : PolicyFile)
  deriving DecidableEq

/-- The first access of a call. -/
def ThreadCall.start : ThreadCall → Pc
  | acquireAddress call => .acquireAddress call
  | release uid => .releaseByUidImpl uid
  | reload file => .reload file

/-- What a thread is told to do : a call, with an SA checked out or without, or a sweep. -/
inductive Job
  | call (ikeSa : Option UInt32) (call : ThreadCall)
  | sweep

/-- Where a thread is. A sweep has the leases it has still to look at. -/
inductive ThreadPlace
  | idle
  | checkout (ikeSa : Option UInt32) (call : ThreadCall)
  | worker (ikeSa : Option UInt32) (pc : Pc)
  | sweep
  | foreachExpiring
  | sweepCb (rest : List LeaseRef)
  | checkoutById (lease : LeaseRef) (uid : UInt32) (rest : List LeaseRef)
  | checkin (uid : UInt32) (rest : List LeaseRef)
  | orphan (lease : LeaseRef) (rest : List LeaseRef)
  | releasing (rest : List LeaseRef) (pc : Pc)

/-- What a sweep gets from outside : the time, the entries in the order the table enumerates them,
and whether an SA exists. -/
structure SweepInput where
  now : ℤ
  entries : List (Σ _ : UInt32, LeaseRef)
  present : Bool

namespace ThreadPlace

/-- The first access of a job. -/
def start : Job → ThreadPlace
  | .call ikeSa call => checkout ikeSa call
  | .sweep => sweep

/-- The next access of a place, what it leads to, and the section it completes. -/
def next (parse : CString → Option Host) (input : SweepInput) (this : IpAllocator) :
    ThreadPlace → Option (IpAllocator × ThreadPlace × Option CriticalSection)
  | idle => none
  | checkout ikeSa call => some (this, worker ikeSa call.start, none)
  | worker ikeSa pc =>
    let (this, pc, done) := pc.next parse this
    some (this, pc.elim idle (worker ikeSa), done)
  | sweep => some (this, foreachExpiring, none)
  | foreachExpiring =>
    if Hashtable.Enumerates input.entries this.sessions.byUid then
      some (this, sweepCb (this.sessions.expiring input.now this.leaseTimeout input.entries), none)
    else none
  | sweepCb [] => some (this, idle, none)
  | sweepCb (lease :: rest) =>
    some (this, checkoutById lease (this.sessions.obj lease).uniqueId rest, none)
  | checkoutById lease uid rest =>
    if input.present then some (this, checkin uid rest, none)
    else some (this, orphan lease rest, none)
  | checkin _ rest => some (this, sweepCb rest, none)
  | orphan lease rest =>
    some (this, releasing rest (.releaseByUidImpl (this.sessions.obj lease).uniqueId), none)
  | releasing rest pc =>
    let (this, pc, done) := pc.next parse this
    some (this, pc.elim (sweepCb rest) (releasing rest), done)

/-- The locks that are held at a place. -/
def locks : ThreadPlace → Finset Lock
  | idle | checkout .. | sweep => ∅
  | worker ikeSa pc => (ikeSa.map Lock.ikeSa).toFinset ∪ pc.locks
  | foreachExpiring | sweepCb _ | checkoutById .. | orphan .. => {.sweepLock}
  | checkin uid _ => {.sweepLock, .ikeSa uid}
  | releasing _ pc => {.sweepLock} ∪ pc.locks

/-- No call is under way. -/
def isIdle : ThreadPlace → Bool
  | idle => true
  | _ => false

/-- Where the thread is in the code of the plugin, if it is. -/
def pc : ThreadPlace → Option Pc
  | worker _ pc | releasing _ pc => some pc
  | _ => none

end ThreadPlace

/-- The code that all threads run. -/
def threadCode (parse : CString → Option Host) :
    Code IpAllocator ThreadPlace Job SweepInput CriticalSection Lock where
  idle := ThreadPlace.isIdle
  start := ThreadPlace.start
  next := ThreadPlace.next parse
  locks := ThreadPlace.locks
  locks_idle p hp := by
    cases p <;> first | rfl | simp [ThreadPlace.isIdle] at hp
  locks_start q := by cases q <;> rfl

/-- The threads `T` with the allocator they share. -/
abbrev Threads (T : Type) :=
  State T IpAllocator ThreadPlace CriticalSection Lock

variable {parse : CString → Option Host} {T : Type} [DecidableEq T] {s s' : Threads T}
  {a a' : IpAllocator} {pl pl' : ThreadPlace} {pc pc' : Pc} {input : SweepInput}
  {done : Option CriticalSection} {t : T} {es : List (Event T Job SweepInput)}
  {guard : List (Event T Job SweepInput) → Threads T → Event T Job SweepInput → Prop}

/-! ## What an access does -/

namespace Pc

/-- The ways an access can go. -/
inductive NextCase (parse : CString → Option Host) (a : IpAllocator) :
    Pc → IpAllocator → Option Pc → Option CriticalSection → Prop
  | skip {call : AcquireCall} : a.served call = none →
      NextCase parse a (acquireAddress call) a none (some (.acquire call (.done none)))
  | enter {call : AcquireCall} {ikeSa : IkeSa} : a.served call = some ikeSa →
      NextCase parse a (acquireAddress call) a (some (acquireLock call ikeSa)) none
  | lock {call : AcquireCall} {ikeSa : IkeSa} :
      NextCase parse a (acquireLock call ikeSa) a (some (lookupByUser call ikeSa)) none
  | found {call : AcquireCall} {ikeSa : IkeSa} {r : LeaseRef} :
      a.sessions.byUser.get (sessionName ikeSa) = some r →
      NextCase parse a (lookupByUser call ikeSa) a (some (migrate call ikeSa r)) none
  | missing {call : AcquireCall} {ikeSa : IkeSa} :
      a.sessions.byUser.get (sessionName ikeSa) = none →
      NextCase parse a (lookupByUser call ikeSa) a (some (lookupFixed call ikeSa)) none
  | migrate {call : AcquireCall} {ikeSa : IkeSa} {r : LeaseRef} {m : SessionManager} :
      (a.sessions.migrate (sessionName ikeSa) ikeSa.uniqueId call.now).2 = m →
      NextCase parse a (migrate call ikeSa r) { a with sessions := m }
        (some (acquireUnlock call ikeSa
          (.done (if call.mem.result then some (m.obj r).ip else none)))) none
  | fixed {call : AcquireCall} {ikeSa : IkeSa} {ip : Host} :
      ((if isAnon (sessionName ikeSa) then none
        else a.policy.lookupFixed (sessionName ikeSa)).filter fun _ => call.mem.fixedClone) =
        some ip →
      NextCase parse a (lookupFixed call ikeSa) a (some (bindLease call ikeSa ip true)) none
  | notFixed {call : AcquireCall} {ikeSa : IkeSa} :
      ((if isAnon (sessionName ikeSa) then none
        else a.policy.lookupFixed (sessionName ikeSa)).filter fun _ => call.mem.fixedClone) =
        none →
      NextCase parse a (lookupFixed call ikeSa) a (some (dynAcquire call ikeSa)) none
  | noPool {call : AcquireCall} {ikeSa : IkeSa} : a.dyn = none →
      NextCase parse a (dynAcquire call ikeSa) a (some (acquireUnlock call ikeSa (.done none))) none
  | pool {call : AcquireCall} {ikeSa : IkeSa} {p p' : DynamicPool} {ip : Host} : a.dyn = some p →
      p.acquire call.mem.poolHost = (some ip, p') →
      NextCase parse a (dynAcquire call ikeSa) { a with dyn := some p' }
        (some (bindLease call ikeSa ip false)) none
  | full {call : AcquireCall} {ikeSa : IkeSa} {p p' : DynamicPool} : a.dyn = some p →
      p.acquire call.mem.poolHost = (none, p') →
      NextCase parse a (dynAcquire call ikeSa) { a with dyn := some p' }
        (some (acquireUnlock call ikeSa (.done none))) none
  | bind {call : AcquireCall} {ikeSa : IkeSa} {ip : Host} {isFixed : Bool} {m : SessionManager}
      {lease : Option LeaseRef} :
      a.sessions.bindLease (sessionName ikeSa) ikeSa.uniqueId ip isFixed call.now call.mem.lease =
        (lease, m) →
      NextCase parse a (bindLease call ikeSa ip isFixed) { a with sessions := m }
        (some (acquireUnlock call ikeSa (bound call m lease))) none
  | unlock {call : AcquireCall} {ikeSa : IkeSa} {answer : Option Host} :
      NextCase parse a (acquireUnlock call ikeSa (.done answer)) a none
        (some (.acquire call (.done answer)))
  | rollback {call : AcquireCall} {ikeSa : IkeSa} :
      NextCase parse a (acquireUnlock call ikeSa .rollback) a
        (some (releaseByUidImpl ikeSa.uniqueId)) (some (.acquire call .rollback))
  | releaseLock {uid : UInt32} :
      NextCase parse a (releaseByUidImpl uid) a (some (unbind uid)) none
  | unbind {uid : UInt32} {lease : Option LeaseRef} {m : SessionManager} :
      a.sessions.unbind uid = (lease, m) →
      NextCase parse a (unbind uid) { a with sessions := m } (some (releaseUnlock uid lease)) none
  | releaseUnlock {uid : UInt32} {lease : Option LeaseRef} :
      NextCase parse a (releaseUnlock uid lease) a (lease.map dynRelease) (some (.unbind uid))
  | dynRelease {r : LeaseRef} :
      NextCase parse a (dynRelease r) { a with dyn := (a.releaseFinish r).dyn }
        (some (leaseDestroy r)) none
  | leaseDestroy {r : LeaseRef} :
      NextCase parse a (leaseDestroy r) { a with sessions := a.sessions.leaseDestroy r } none
        (some (.finish r))
  | reloadLock {file : PolicyFile} :
      NextCase parse a (reload file) a (some (snapshotLoad file)) none
  | loaded {file : PolicyFile} {fresh : Snapshot} : Cupp.snapshotLoad parse file = some fresh →
      NextCase parse a (snapshotLoad file) a (some (switch file fresh)) none
  | notLoaded {file : PolicyFile} : Cupp.snapshotLoad parse file = none →
      NextCase parse a (snapshotLoad file) a (some (reloadUnlock file)) none
  | switch {file : PolicyFile} {fresh : Snapshot} :
      NextCase parse a (switch file fresh) { a with policy := ⟨fresh⟩ } (some (reloadUnlock file))
        none
  | reloadUnlock {file : PolicyFile} :
      NextCase parse a (reloadUnlock file) a none (some (.reload file))

/-- What an access does. -/
theorem next_cases (parse : CString → Option Host) (a : IpAllocator) (pc : Pc) :
    NextCase parse a pc (pc.next parse a).1 (pc.next parse a).2.1 (pc.next parse a).2.2 := by
  cases pc with
  | acquireAddress call =>
    simp only [next]
    cases hserved : a.served call with
    | none => exact .skip hserved
    | some ikeSa => exact .enter hserved
  | lookupByUser call ikeSa =>
    simp only [next, SessionManager.lookupByUser]
    cases hr : a.sessions.byUser.get (sessionName ikeSa) with
    | none => exact .missing hr
    | some r => exact .found hr
  | lookupFixed call ikeSa =>
    simp only [next]
    cases hf : (if isAnon (sessionName ikeSa) then none
        else a.policy.lookupFixed (sessionName ikeSa)).filter fun _ => call.mem.fixedClone with
    | none => exact .notFixed hf
    | some ip => exact .fixed hf
  | dynAcquire call ikeSa =>
    simp only [next]
    cases hd : a.dyn with
    | none => exact .noPool hd
    | some p =>
      cases hp : p.acquire call.mem.poolHost with
      | mk ip p' =>
        simp only [hp]
        cases ip with
        | none => exact .full hd hp
        | some ip => exact .pool hd hp
  | acquireUnlock call ikeSa answer =>
    cases answer with
    | done answer => exact .unlock
    | rollback => exact .rollback
  | snapshotLoad file =>
    simp only [next]
    cases hload : Cupp.snapshotLoad parse file with
    | none => exact .notLoaded hload
    | some fresh => exact .loaded hload
  | acquireLock => exact .lock
  | migrate => exact .migrate rfl
  | bindLease => exact .bind rfl
  | releaseByUidImpl => exact .releaseLock
  | unbind => exact .unbind rfl
  | releaseUnlock => exact .releaseUnlock
  | dynRelease => exact .dynRelease
  | leaseDestroy => exact .leaseDestroy
  | reload => exact .reloadLock
  | switch => exact .switch
  | reloadUnlock => exact .reloadUnlock

end Pc

namespace ThreadPlace

theorem next_worker {ikeSa : Option UInt32} : (worker ikeSa pc).next parse input a =
    some ((pc.next parse a).1, (pc.next parse a).2.1.elim idle (worker ikeSa),
      (pc.next parse a).2.2) :=
  rfl

theorem next_releasing {rest : List LeaseRef} : (releasing rest pc).next parse input a =
    some ((pc.next parse a).1, (pc.next parse a).2.1.elim (sweepCb rest) (releasing rest),
      (pc.next parse a).2.2) :=
  rfl

end ThreadPlace

/-! ## Locks are taken in one order -/

/-- A sweep has `sweep_lock` before it checks an SA out, and a worker has its SA before it takes a
lock of the plugin. -/
def Lock.rank : Lock → ℕ
  | sweepLock => 0
  | ikeSa _ => 1
  | lock | reloadLock => 2

theorem Lock.rank_lt (l : Lock) : l.rank < 3 := by
  cases l <;> simp [Lock.rank]

/-- Inside the allocator only its own locks are held, which come last. -/
theorem Pc.rank_of_locks {l : Lock} (h : l ∈ pc.locks) : l.rank = 2 := by
  cases pc <;> simp [Pc.locks] at h <;> subst h <;> rfl

/-- In the code of the plugin a thread takes a lock only if it has none. -/
theorem Pc.locks_next (h : (pc.next parse a).2.1 = some pc') :
    pc'.locks ⊆ pc.locks ∨ pc.locks = ∅ := by
  have hcase := pc.next_cases parse a
  rw [h] at hcase
  generalize (pc.next parse a).1 = a', (pc.next parse a).2.2 = done at hcase
  generalize hnext : some pc' = next at hcase
  cases hcase with
  | skip | enter | lock | releaseLock | dynRelease | leaseDestroy | reloadLock => exact Or.inr rfl
  | unlock | reloadUnlock => simp at hnext
  | releaseUnlock =>
    obtain ⟨r, -, rfl⟩ := Option.map_eq_some_iff.1 hnext.symm
    exact Or.inl (Finset.empty_subset _)
  | rollback =>
    obtain rfl := Option.some.inj hnext
    exact Or.inl (Finset.empty_subset _)
  | found | missing | migrate | fixed | notFixed | noPool | pool | full | bind | unbind | loaded
  | notLoaded | switch =>
    obtain rfl := Option.some.inj hnext
    exact Or.inl (Finset.Subset.refl _)

/-- Nor does it take one that ranks lower than those from outside the plugin. -/
theorem Pc.rank_next {outer : Finset Lock} (houter : ∀ l ∈ outer, l.rank < 2)
    {l l' : Lock} (h : (pc.next parse a).2.1 = some pc') (hl : l ∈ pc'.locks)
    (hnot : l ∉ outer ∪ pc.locks) (hl' : l' ∈ outer ∪ pc.locks) : l'.rank < l.rank := by
  rw [Pc.rank_of_locks hl]
  rcases Pc.locks_next h with hsub | hempty
  · exact absurd (Finset.mem_union_right _ (hsub hl)) hnot
  · rw [hempty, Finset.union_empty] at hl'
    exact houter l' hl'

/-- A thread that is not idle waits for nothing but locks, even if all SAs exist. -/
theorem ThreadPlace.ready (a : IpAllocator) (hbusy : pl.isIdle = false) : ∃ input a' pl' done,
    input.present = true ∧ pl.next parse input a = some (a', pl', done) ∧
      ∀ l ∈ pl'.locks, l ∉ pl.locks → ∀ l' ∈ pl.locks, l'.rank < l.rank := by
  obtain ⟨entries, hes⟩ := Hashtable.exists_enumerates a.sessions.byUid
  refine ⟨⟨0, entries, true⟩, ?_⟩
  cases pl with
  | idle => simp [isIdle] at hbusy
  | checkout ikeSa call => exact ⟨_, _, _, rfl, rfl, fun l _ _ l' hl' => by simp [locks] at hl'⟩
  | worker ikeSa pc =>
    refine ⟨_, _, _, rfl, next_worker, fun l hl hnot l' hl' => ?_⟩
    cases hnext : (pc.next parse a).2.1 with
    | none => simp [hnext, locks] at hl
    | some pc' =>
      rw [hnext] at hl
      have houter : ∀ l ∈ (ikeSa.map Lock.ikeSa).toFinset, l.rank < 2 := by
        intro l hl
        obtain ⟨uid, -, rfl⟩ := Option.map_eq_some_iff.1 (Option.mem_toFinset.1 hl)
        exact Nat.one_lt_two
      refine Pc.rank_next houter hnext ((Finset.mem_union.1 hl).resolve_left fun hsa => ?_) hnot hl'
      exact hnot (Finset.mem_union_left _ hsa)
  | sweep => exact ⟨_, _, _, rfl, rfl, fun l _ _ l' hl' => by simp [locks] at hl'⟩
  | foreachExpiring => exact ⟨_, _, _, rfl, if_pos hes, fun l hl hnot => absurd hl hnot⟩
  | sweepCb rest =>
    cases rest with
    | nil => exact ⟨_, _, _, rfl, rfl, fun l hl => by simp [locks] at hl⟩
    | cons lease rest => exact ⟨_, _, _, rfl, rfl, fun l hl hnot => absurd hl hnot⟩
  | checkoutById lease uid rest =>
    refine ⟨_, _, _, rfl, rfl, fun l hl hnot l' hl' => ?_⟩
    obtain rfl : l' = .sweepLock := by simpa [locks] using hl'
    rcases Finset.mem_insert.1 hl with rfl | hl
    · exact absurd hl' hnot
    · obtain rfl := Finset.mem_singleton.1 hl
      exact Nat.one_pos
  | checkin uid rest =>
    refine ⟨_, _, _, rfl, rfl, fun l hl hnot => absurd ?_ hnot⟩
    exact Finset.mem_insert.2 (Or.inl (Finset.mem_singleton.1 hl))
  | orphan lease rest =>
    refine ⟨_, _, _, rfl, rfl, fun l hl hnot => absurd ?_ hnot⟩
    simpa [locks, Pc.locks] using hl
  | releasing rest pc =>
    refine ⟨_, _, _, rfl, next_releasing, fun l hl hnot l' hl' => ?_⟩
    cases hnext : (pc.next parse a).2.1 with
    | none =>
      rw [hnext] at hl
      exact absurd (Finset.mem_union_left _ hl) hnot
    | some pc' =>
      rw [hnext] at hl
      have houter : ∀ l ∈ ({.sweepLock} : Finset Lock), l.rank < 2 := by
        intro l hl
        obtain rfl := Finset.mem_singleton.1 hl
        exact Nat.two_pos
      refine Pc.rank_next houter hnext ((Finset.mem_union.1 hl).resolve_left fun hsa => ?_) hnot hl'
      exact hnot (Finset.mem_union_left _ hsa)

/-! ## All calls return -/

/-- How many accesses a call makes from here at most. -/
def Pc.left : Pc → ℕ
  | acquireAddress _ => 12
  | acquireLock .. => 11
  | lookupByUser .. => 10
  | lookupFixed .. => 9
  | dynAcquire .. => 8
  | bindLease .. | migrate .. => 7
  | acquireUnlock .. => 6
  | releaseByUidImpl _ => 5
  | unbind _ | reload _ => 4
  | releaseUnlock .. | snapshotLoad _ => 3
  | dynRelease _ | switch .. => 2
  | leaseDestroy _ | reloadUnlock _ => 1

/-- The same for jobs, but for sweeps that have not listed their leases. -/
def ThreadPlace.left : ThreadPlace → ℕ
  | idle => 0
  | checkout _ call => call.start.left + 1
  | worker _ pc => pc.left
  | sweep => 2
  | foreachExpiring => 1
  | sweepCb rest => 9 * rest.length + 1
  | checkoutById _ _ rest => 9 * rest.length + 8
  | checkin _ rest => 9 * rest.length + 2
  | orphan _ rest => 9 * rest.length + 7
  | releasing rest pc => 9 * rest.length + 1 + pc.left

/-- The leases have not been listed. -/
def ThreadPlace.unlisted : ThreadPlace → ℕ
  | sweep | foreachExpiring => 1
  | _ => 0

theorem Pc.left_pos (pc : Pc) : 0 < pc.left := by
  cases pc <;> exact Nat.succ_pos _

/-- An access leaves fewer accesses to be made. -/
theorem Pc.left_next (h : (pc.next parse a).2.1 = some pc') : pc'.left < pc.left := by
  have hcase := pc.next_cases parse a
  rw [h] at hcase
  generalize (pc.next parse a).1 = a', (pc.next parse a).2.2 = done at hcase
  generalize hnext : some pc' = next at hcase
  cases hcase with
  | releaseUnlock =>
    obtain ⟨r, -, rfl⟩ := Option.map_eq_some_iff.1 hnext.symm
    exact Nat.lt_succ_self _
  | skip | unlock | leaseDestroy | reloadUnlock => simp at hnext
  | _ =>
    obtain rfl := Option.some.inj hnext
    simp [Pc.left]

/-- Each access brings a thread nearer to the end of its job. -/
theorem ThreadPlace.left_next (h : pl.next parse input a = some (a', pl', done)) :
    pl'.unlisted < pl.unlisted ∨ pl'.unlisted = pl.unlisted ∧ pl'.left < pl.left := by
  cases pl with
  | idle => simp [next] at h
  | checkout ikeSa call =>
    obtain ⟨-, rfl, -⟩ := by simpa [next] using h
    exact Or.inr ⟨rfl, Nat.lt_succ_self _⟩
  | worker ikeSa pc =>
    obtain ⟨-, rfl, -⟩ := by simpa [next] using h
    have hpos := pc.left_pos
    cases hnext : (pc.next parse a).2.1 with
    | none => exact Or.inr ⟨rfl, hpos⟩
    | some pc' => exact Or.inr ⟨rfl, Pc.left_next hnext⟩
  | sweep =>
    obtain ⟨-, rfl, -⟩ := by simpa [next] using h
    exact Or.inr ⟨rfl, Nat.lt_succ_self _⟩
  | foreachExpiring =>
    simp only [next] at h
    split_ifs at h
    obtain ⟨-, rfl, -⟩ := by simpa using h
    exact Or.inl Nat.one_pos
  | sweepCb rest =>
    cases rest with
    | nil =>
      obtain ⟨-, rfl, -⟩ := by simpa [next] using h
      exact Or.inr ⟨rfl, Nat.succ_pos _⟩
    | cons lease rest =>
      obtain ⟨-, rfl, -⟩ := by simpa [next] using h
      refine Or.inr ⟨rfl, ?_⟩
      simp only [left, List.length_cons]
      omega
  | checkoutById lease uid rest =>
    simp only [next] at h
    split_ifs at h
    · obtain ⟨-, rfl, -⟩ := by simpa using h
      refine Or.inr ⟨rfl, ?_⟩
      simp only [left]
      omega
    · obtain ⟨-, rfl, -⟩ := by simpa using h
      refine Or.inr ⟨rfl, ?_⟩
      simp only [left]
      omega
  | checkin uid rest =>
    obtain ⟨-, rfl, -⟩ := by simpa [next] using h
    exact Or.inr ⟨rfl, Nat.lt_succ_self _⟩
  | orphan lease rest =>
    obtain ⟨-, rfl, -⟩ := by simpa [next] using h
    refine Or.inr ⟨rfl, ?_⟩
    simp only [left, Pc.left]
    omega
  | releasing rest pc =>
    obtain ⟨-, rfl, -⟩ := by simpa [next] using h
    have hpos := pc.left_pos
    cases hnext : (pc.next parse a).2.1 with
    | none =>
      refine Or.inr ⟨rfl, ?_⟩
      simp only [left, Option.elim_none]
      omega
    | some pc' =>
      have hlt := Pc.left_next hnext
      refine Or.inr ⟨rfl, ?_⟩
      simp only [left, Option.elim_some]
      omega

/-- Any number of threads with any jobs, in any order : they do not go on forever unless there are
new jobs, and if none of them can go on, even with an SA for each lease that a sweep looks at, then
all calls have returned. So no thread waits for another forever. -/
theorem calls_return [Fintype T] {alloc : IpAllocator}
    (h : (threadCode parse).Run guard (Code.initial alloc .idle : Threads T) es s) :
    ¬Forever (fun s s' => ∃ t input, (threadCode parse).step s (.step t input) = some s') s ∧
    ((∀ t input, input.present = true → (threadCode parse).step s (.step t input) = none) →
      ∀ t, (s.place t).isIdle = true) := by
  constructor
  · have hwf := wellFounded_step (T := T) (c := threadCode parse)
      fun input a pl a' pl' done hnext => ThreadPlace.left_next hnext
    exact not_forever (I := fun _ => True) hwf (fun s s' _ hs => ⟨trivial, hs⟩) trivial
  · intro hstuck t
    by_contra hbusy
    have hown := owned_of_run (owned_initial rfl) h
    obtain ⟨t', input, s', hpresent, hs'⟩ := hown.progress Lock.rank_lt
      (fun t ht => (s.place t).ready s.data ht) (Bool.not_eq_true _ ▸ hbusy)
    simp [hstuck t' input hpresent] at hs'

/-- `a` has logged in with the SA 1. A second login has the SA and waits for the lock, which a third
thread has, and a sweep waits for the SA. -/
theorem calls_return_of_waiting : ∃ s : Threads (Fin 3),
    (threadCode fun _ => none).Run (fun _ _ _ => True)
      (Code.initial (smallAlloc (smallPolicy [] 1 3)) .idle)
      ([.call 0 (.call (some 1) (.acquireAddress (login (letterSa 1 'a') 0)))] ++
        List.replicate 8 (.step 0 ⟨0, [], true⟩) ++
        [.call 1 .sweep, .step 1 ⟨0, [], true⟩, .step 1 ⟨9000, [⟨1, 0⟩], true⟩,
          .step 1 ⟨0, [], true⟩,
          .call 0 (.call (some 1) (.acquireAddress (login (letterSa 1 'a') 0))),
          .step 0 ⟨0, [], true⟩, .step 0 ⟨0, [], true⟩, .call 2 (.call none (.release 7)),
          .step 2 ⟨0, [], true⟩, .step 2 ⟨0, [], true⟩]) s ∧
    (s.owner (.ikeSa 1), s.owner .lock, s.owner .sweepLock) = (some 0, some 2, some 1) ∧
    ∃ t input, input.present = true ∧
      (threadCode fun _ => none).step s (.step t input) ≠ none := by
  obtain ⟨s, hrun, hfacts⟩ := Run.exists_of_exec (by decide : (exec
    (threadCode fun _ => none).step (fun _ _ _ => True) []
      (Code.initial (smallAlloc (smallPolicy [] 1 3)) .idle : Threads (Fin 3))
      ([.call 0 (.call (some 1) (.acquireAddress (login (letterSa 1 'a') 0)))] ++
        List.replicate 8 (.step 0 ⟨0, [], true⟩) ++
        [.call 1 .sweep, .step 1 ⟨0, [], true⟩, .step 1 ⟨9000, [⟨1, 0⟩], true⟩,
          .step 1 ⟨0, [], true⟩,
          .call 0 (.call (some 1) (.acquireAddress (login (letterSa 1 'a') 0))),
          .step 0 ⟨0, [], true⟩, .step 0 ⟨0, [], true⟩, .call 2 (.call none (.release 7)),
          .step 2 ⟨0, [], true⟩, .step 2 ⟨0, [], true⟩])).map (fun s =>
      ((s.owner (.ikeSa 1), s.owner .lock, s.owner .sweepLock), (s.place 0).isIdle)) =
      some ((some 0, some 2, some 1), false))
  obtain ⟨howners, hbusy⟩ := Prod.mk.inj hfacts
  refine ⟨s, hrun, howners, ?_⟩
  by_contra hstuck
  have hidle := (calls_return hrun).2 (fun t input hpresent => by
    by_contra hne
    exact hstuck ⟨t, input, hpresent, hne⟩) 0
  simp [hbusy] at hidle

end Cupp
