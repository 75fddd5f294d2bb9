import Cupp.Lib.Runs
import Cupp.Owners

/-!
# Threads at the level of critical sections

Any number of threads call the allocator. What one thread does in a critical section is
atomic for the others, so a run is a sequence of sections (`CriticalSection`) : the locked
part of an `acquire_address`, the locked part of a `release_by_uid_impl`, the rest of a
`release_by_uid_impl`, or a policy reload. `release_by_uid_impl` runs for `release_address`,
`ike_updown` and `sweep` alike. The leases whose release is under way are the `pending`
ones of the `World`.

Every run keeps the invariant of the critical sections (`ok_of_run`). If each unique id
goes with one session name, the tables correspond throughout (`bound_of_run`).
-/

set_option linter.unusedSectionVars false

open Transition

namespace Cupp

/-- The allocator with the leases that are unbound and not yet destroyed. -/
structure World where
  alloc : IpAllocator
  pending : List LeaseRef

/-- What runs under a lock from beginning to end. -/
inductive CriticalSection
  | acquire (call : AcquireCall) (answer : Acquired)
  | unbind (uid : UInt32)
  | finish (lease : LeaseRef)
  | reload (file : PolicyFile)
  deriving DecidableEq

/-- Nothing has been asked of the allocator. -/
def World.start (alloc : IpAllocator) : World :=
  ⟨alloc, []⟩

variable (parse : CString → Option Host)

/-- One critical section. A section labelled with an answer has to give it, and only a
pending release can finish. -/
def World.step (w : World) : CriticalSection → Option World
  | .acquire call answer =>
    match w.alloc.acquireEnter call with
    | (answer', alloc) => if answer' = answer then some { w with alloc := alloc } else none
  | .unbind uid =>
    match w.alloc.releaseUnbind uid with
    | (none, alloc) => some { w with alloc := alloc }
    | (some lease, alloc) => some ⟨alloc, lease :: w.pending⟩
  | .finish lease =>
    if lease ∈ w.pending then some ⟨w.alloc.releaseFinish lease, w.pending.erase lease⟩ else none
  | .reload file => some { w with alloc := (w.alloc.reloadPolicy parse file).2 }

/-- Runs from a state in which no release is under way. -/
abbrev World.Run (guard : List CriticalSection → World → CriticalSection → Prop)
    (alloc : IpAllocator) : List CriticalSection → World → Prop :=
  Transition.Run (fun w e w' => w.step parse e = some w') guard (.start alloc)

/-! ## Assumptions on calls -/

/-- The call's unique id goes with its session name. -/
def AcquireCall.OwnedBy (owner : UInt32 → CString) (call : AcquireCall) : Prop :=
  ∀ ikeSa ∈ call.ikeSa, sessionName ikeSa = owner ikeSa.uniqueId

instance (owner : UInt32 → CString) (call : AcquireCall) : Decidable (call.OwnedBy owner) :=
  inferInstanceAs (Decidable (∀ ikeSa ∈ call.ikeSa, sessionName ikeSa = owner ikeSa.uniqueId))

namespace CriticalSection

/-- `P` holds of the call if the section belongs to `acquire_address`. -/
def OnAcquire (P : AcquireCall → Prop) : CriticalSection → Prop
  | acquire call _ => P call
  | _ => True

instance (P : AcquireCall → Prop) [DecidablePred P] : DecidablePred (OnAcquire P)
  | acquire call _ => inferInstanceAs (Decidable (P call))
  | unbind _ | finish _ | reload _ => inferInstanceAs (Decidable True)

theorem onAcquire_of {P : AcquireCall → Prop} (h : ∀ call, P call) (e : CriticalSection) :
    e.OnAcquire P := by
  cases e with
  | acquire call => exact h call
  | unbind | finish | reload => trivial

end CriticalSection

/-! ## What a section does -/

variable {parse}

/-- The ways a critical section can go. -/
inductive World.StepCase (parse : CString → Option Host) (w : World) :
    CriticalSection → World → Prop
  | acquire {call : AcquireCall} {answer : Acquired} {alloc : IpAllocator} :
      w.alloc.acquireEnter call = (answer, alloc) →
      StepCase parse w (.acquire call answer) { w with alloc := alloc }
  | unbindNone {uid : UInt32} : w.alloc.sessions.byUid.get uid = none →
      StepCase parse w (.unbind uid) w
  | unbindSome {uid : UInt32} {r : LeaseRef} : w.alloc.sessions.byUid.get uid = some r →
      StepCase parse w (.unbind uid)
        ⟨{ w.alloc with sessions := w.alloc.sessions.removeLease uid r }, r :: w.pending⟩
  | finish {r : LeaseRef} : r ∈ w.pending →
      StepCase parse w (.finish r) ⟨w.alloc.releaseFinish r, w.pending.erase r⟩
  | reload {file : PolicyFile} : StepCase parse w (.reload file)
      { w with alloc := (w.alloc.reloadPolicy parse file).2 }

/-- What a section does. -/
theorem World.step_cases {w w' : World} {e : CriticalSection} (h : w.step parse e = some w') :
    StepCase parse w e w' := by
  cases e with
  | acquire call answer =>
    cases hacq : w.alloc.acquireEnter call with
    | mk answer' alloc =>
      simp only [step, hacq] at h
      split_ifs at h with heq
      obtain rfl := Option.some.inj h
      exact .acquire (heq ▸ hacq)
  | unbind uid =>
    cases hu : w.alloc.sessions.byUid.get uid with
    | none =>
      simp only [step, IpAllocator.releaseUnbind_of_none hu] at h
      obtain rfl := Option.some.inj h
      exact .unbindNone hu
    | some r =>
      simp only [step, IpAllocator.releaseUnbind_of_some hu] at h
      obtain rfl := Option.some.inj h
      exact .unbindSome hu
  | finish r =>
    simp only [step] at h
    split_ifs at h with hr
    obtain rfl := Option.some.inj h
    exact .finish hr
  | reload file =>
    obtain rfl := Option.some.inj h
    exact .reload

/-! ## Invariants of all runs -/

/-- A new allocator lends nothing. -/
theorem IpAllocator.ok_create {tight : Prop} (policy : PolicyEngine) (poolName : Option CString)
    (leaseTimeout : UInt32) (calloc : Option (ℕ → UInt8)) (hfits : tight → policy.active.PoolFits) :
    (ipAllocatorCreate policy poolName leaseTimeout calloc).Ok tight [] := by
  have hnone : (ipAllocatorCreate policy poolName leaseTimeout calloc).holders [] = ∅ := by
    ext r
    simp [holders, ipAllocatorCreate, SessionManager.create]
  refine ⟨SessionManager.ok_create, .nil _, fun {p} hp => ?_, fun _ => hnone⟩
  obtain ⟨start, end_, hpool, hcreate⟩ : ∃ start end_, policy.active.pool = some (start, end_) ∧
      dynamicPoolCreate start end_ calloc = some p := by
    simp only [ipAllocatorCreate, PolicyEngine.getPool] at hp
    cases hpool : policy.active.pool with
    | none => simp [hpool] at hp
    | some ends => exact ⟨ends.1, ends.2, rfl, by simpa [hpool] using hp⟩
  have hfit : tight → (hostToU32 end_).toNat - (hostToU32 start).toNat + 1 ≤ 2 ^ 32 - 8 :=
    fun ht => hfits ht (start, end_) hpool
  rw [hnone]
  exact ⟨(sized_of_create hcreate).1, .empty, fun {r} hr => absurd hr (Set.notMem_empty r),
    fun ht => ⟨.empty (create_empty hcreate (hfit ht)).1, counted_of_create hcreate (hfit ht)⟩⟩

variable {tight : Prop} {owner : UInt32 → CString}
  {guard : List CriticalSection → World → CriticalSection → Prop} {alloc : IpAllocator}
  {es : List CriticalSection} {w w' : World} {e : CriticalSection}

/-- Every critical section keeps the invariant. -/
theorem World.ok_step (hok : w.alloc.Ok tight w.pending)
    (hmem : e.OnAcquire fun call => tight → call.mem = .ok) (h : w.step parse e = some w') :
    w'.alloc.Ok tight w'.pending := by
  cases step_cases h with
  | acquire hacq => exact hok.acquireEnter hmem hacq
  | unbindNone => exact hok
  | unbindSome hu => exact hok.removeLease hu
  | finish hr => exact hok.releaseFinish hr
  | reload => exact ⟨hok.sessions, hok.detached, hok.lends.congr rfl rfl fun _ _ => rfl⟩

/-- Every critical section keeps the correspondence of the tables. -/
theorem World.bound_step (hok : w.alloc.Ok tight w.pending) (hb : w.alloc.sessions.Bound owner)
    (hown : e.OnAcquire (·.OwnedBy owner)) (h : w.step parse e = some w') :
    w'.alloc.sessions.Bound owner := by
  cases step_cases h with
  | @acquire call answer alloc hacq =>
    cases IpAllocator.acquireEnter_cases hacq with
    | skipped => exact hb
    | reused hsa hr => exact hb.moveLease (hown _ (IpAllocator.ikeSa_of_served hsa) ▸ hr)
    | refused => exact hb
    | bound hsa hn =>
      exact hb.putLease hok.sessions hn (hown _ (IpAllocator.ikeSa_of_served hsa)).symm
  | unbindNone => exact hb
  | unbindSome hu => exact hb.removeLease hu
  | finish => exact hb.leaseDestroy
  | reload => exact hb

/-- Whatever memory it finds, a section keeps the invariant. -/
theorem World.loose_step (hok : w.alloc.Ok False w.pending) (h : w.step parse e = some w') :
    w'.alloc.Ok False w'.pending :=
  ok_step hok (e.onAcquire_of fun _ => False.elim) h

/-- In all runs the allocator is in order. -/
theorem World.ok_of_run (hok : alloc.Ok tight [])
    (hmem : ∀ es w e, guard es w e → e.OnAcquire fun call => tight → call.mem = .ok)
    (h : World.Run parse guard alloc es w) : w.alloc.Ok tight w.pending :=
  h.invariant (I := fun w => w.alloc.Ok tight w.pending) hok
    fun es w e _ hi hg hs => ok_step hi (hmem es w e hg) hs

/-- From a new allocator on it is in order, whatever memory there is. -/
theorem World.loose_of_create {policy : PolicyEngine} {poolName : Option CString}
    {leaseTimeout : UInt32} {calloc : Option (ℕ → UInt8)}
    (h : World.Run parse guard (ipAllocatorCreate policy poolName leaseTimeout calloc) es w) :
    w.alloc.Ok False w.pending :=
  ok_of_run (IpAllocator.ok_create policy poolName leaseTimeout calloc False.elim)
    (fun _ _ e _ => e.onAcquire_of fun _ => False.elim) h

/-- In all runs with one user for each unique id, the table keeps to that. -/
theorem World.bound_of_run (hok : alloc.Ok False []) (hb : alloc.sessions.Bound owner)
    (hown : ∀ es w e, guard es w e → e.OnAcquire (·.OwnedBy owner))
    (h : World.Run parse guard alloc es w) : w.alloc.sessions.Bound owner := by
  refine (h.invariant (I := fun w => w.alloc.Ok False w.pending ∧ w.alloc.sessions.Bound owner)
    ⟨hok, hb⟩ fun es w e w' hi hg hs => ?_).2
  exact ⟨loose_step hi.1 hs, bound_step hi.1 hi.2 (hown es w e hg) hs⟩

/-- What the runs of a new allocator keep if each unique id goes with one session name. -/
theorem World.bound_of_create {policy : PolicyEngine} {poolName : Option CString}
    {leaseTimeout : UInt32} {calloc : Option (ℕ → UInt8)}
    (h : World.Run parse (fun _ _ e => e.OnAcquire (·.OwnedBy owner))
      (ipAllocatorCreate policy poolName leaseTimeout calloc) es w) :
    w.alloc.sessions.Bound owner :=
  bound_of_run (IpAllocator.ok_create policy poolName leaseTimeout calloc False.elim)
    (SessionManager.bound_create owner) (fun _ _ _ hg => hg) h

/-! ## A small network -/

/-- The address `10.0.0.d`. -/
def tenNet (d : UInt8) : Host :=
  .inet 10 0 0 d

/-- The user name of one letter. -/
def letter (c : Char) : CString :=
  .ofBytes (ascii [c])

/-- An IKE_SA that identifies its user with an FQDN of one letter. -/
def letterSa (uid : UInt32) (c : Char) : IkeSa :=
  ⟨uid, none, none, some ⟨.fqdn, ascii [c]⟩⟩

/-- Odd unique ids belong to `a`, even ones to `b`. -/
def oddEven (uid : UInt32) : CString :=
  if uid % 2 = 1 then letter 'a' else letter 'b'

/-- A login to the pool `cupp`. -/
def login (ikeSa : IkeSa) (now : ℤ) : AcquireCall :=
  ⟨some [some (.ofBytes (ascii ['c', 'u', 'p', 'p']))], some ikeSa, now, .ok⟩

/-- Fixed addresses for some users, and the pool `10.0.0.first` to `10.0.0.last`. -/
def smallPolicy (users : List (CString × Host)) (first last : UInt8) : Snapshot where
  fixed := users.foldl (fun fixed u => fixed.add u.1 u.2) .create
  poolStart := some (tenNet first)
  poolEnd := some (tenNet last)

/-- A new allocator for the pool `cupp`. Its leases expire after an hour. -/
def smallAlloc (policy : Snapshot) : IpAllocator :=
  ipAllocatorCreate ⟨policy⟩ none 0 (some fun _ => 0)

/-- `host_create_from_string` for the addresses `10.0.0.0` to `10.0.0.9`. -/
def tenNetFromString (s : CString) : Option Host :=
  match s.bytes.reverse with
  | d :: rest =>
    if rest.reverse = ascii ['1', '0', '.', '0', '.', '0', '.'] ∧ 48 ≤ d ∧ d ≤ 57 then
      some (tenNet (d - 48))
    else none
  | [] => none

/-- The text of `10.0.0.c`. -/
def addressText (c : Char) : List UInt8 :=
  ascii ['1', '0', '.', '0', '.', '0', '.', c]

/-- A policy file with the fixed address `10.0.0.d` for some users, and the pool `10.0.0.first`
to `10.0.0.last`. -/
def policyFile (users : List (Char × Char)) (first last : Char) : PolicyFile :=
  let tenNetText (c : Char) := ascii ['1', '0', '.', '0', '.', '0', '.', c]
  let userEvents (u : Char × Char) : List YamlEvent := [.scalar (ascii [u.1]), .mappingStart,
    .scalar (ascii ['i', 'p']), .scalar (tenNetText u.2), .mappingEnd]
  some
    ([.streamStart, .documentStart, .mappingStart,
      .scalar (ascii ['u', 's', 'e', 'r', 's']), .mappingStart] ++ users.flatMap userEvents ++
    [.mappingEnd, .scalar (ascii ['p', 'o', 'o', 'l']), .mappingStart,
      .scalar (ascii ['s', 't', 'a', 'r', 't']), .scalar (tenNetText first),
      .scalar (ascii ['e', 'n', 'd']), .scalar (tenNetText last),
      .mappingEnd, .mappingEnd, .documentEnd, .streamEnd])

example : (snapshotLoad tenNetFromString (policyFile [('b', '9')] '1' '3')).map Snapshot.pool =
    some (some (tenNet 1, tenNet 3)) := by
  decide

end Cupp
