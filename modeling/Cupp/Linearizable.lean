import Cupp.Atomic

/-!
# Linearizability

What threads do access by access, they could as well do section by section : there is an order of
the sections, of those that are complete and of those that have had their effect, in which each
thread has its own sections with its own answers, in which a call that has returned comes before
those that have not begun, and in which `World` goes through them (`sections_of_threads`). Then the
address server has answered the same calls in the same way (`server_of_threads`).
-/

set_option linter.unusedSectionVars false

open Concurrent Shuffle Transition

namespace Cupp

variable {T : Type} [DecidableEq T] {parse : CString → Option Host} {Q : AcquireCall → Prop}
  {a a' : IpAllocator} {alloc : IpAllocator} {done : Option CriticalSection}

/-! ## All accesses -/

/-- A thread makes an access in the code of the plugin, or one that leaves the allocator alone. Then
it may go to the start of a call. -/
theorem ThreadPlace.next_cases {input : SweepInput} {pl pl' : ThreadPlace}
    (h : pl.next parse input a = some (a', pl', done)) :
    (pl.pc = none ∧ a' = a ∧ done = none ∧
      ∀ pc, pl'.pc = some pc → ∃ call : ThreadCall, pc = call.start) ∨
      ∃ pc, pl.pc = some pc ∧ pc.next parse a = (a', pl'.pc, done) := by
  have hstart {this : IpAllocator} {place : ThreadPlace} (hplace : place.pc = none)
      (hnext : (this, place, (none : Option CriticalSection)) = (a', pl', done)) (ha : this = a) :
      a' = a ∧ done = none ∧ ∀ pc, pl'.pc = some pc → ∃ call : ThreadCall, pc = call.start := by
    obtain ⟨rfl, rfl, rfl⟩ := by simpa using hnext
    exact ⟨ha, rfl, fun pc hpc => by simp [hplace] at hpc⟩
  cases pl with
  | idle => simp [next] at h
  | checkout ikeSa call =>
    obtain ⟨rfl, rfl, rfl⟩ := by simpa [next] using h
    exact Or.inl ⟨rfl, rfl, rfl, fun pc hpc => ⟨call, (Option.some.inj hpc).symm⟩⟩
  | worker ikeSa pc =>
    rw [next_worker] at h
    obtain ⟨ha, hpl, hdone⟩ := by simpa using h
    refine Or.inr ⟨pc, rfl, Prod.ext ha (Prod.ext ?_ hdone)⟩
    rw [← hpl]
    cases (pc.next parse a).2.1 <;> rfl
  | sweep => exact Or.inl ⟨rfl, hstart rfl (Option.some.inj h) rfl⟩
  | foreachExpiring =>
    simp only [next] at h
    split_ifs at h
    exact Or.inl ⟨rfl, hstart rfl (Option.some.inj h) rfl⟩
  | sweepCb rest =>
    cases rest with
    | nil => exact Or.inl ⟨rfl, hstart rfl (Option.some.inj h) rfl⟩
    | cons lease rest => exact Or.inl ⟨rfl, hstart rfl (Option.some.inj h) rfl⟩
  | checkoutById lease uid rest =>
    simp only [next] at h
    split_ifs at h
    · exact Or.inl ⟨rfl, hstart rfl (Option.some.inj h) rfl⟩
    · exact Or.inl ⟨rfl, hstart rfl (Option.some.inj h) rfl⟩
  | checkin uid rest => exact Or.inl ⟨rfl, hstart rfl (Option.some.inj h) rfl⟩
  | orphan lease rest =>
    obtain ⟨rfl, rfl, rfl⟩ := by simpa [next] using h
    exact Or.inl ⟨rfl, rfl, rfl, fun pc hpc => ⟨.release _, (Option.some.inj hpc).symm⟩⟩
  | releasing rest pc =>
    rw [next_releasing] at h
    obtain ⟨ha, hpl, hdone⟩ := by simpa using h
    refine Or.inr ⟨pc, rfl, Prod.ext ha (Prod.ext ?_ hdone)⟩
    rw [← hpl]
    cases (pc.next parse a).2.1 <;> rfl

/-- The thread has the allocator's lock if its place has. -/
theorem ThreadPlace.locked_iff {pl : ThreadPlace} : Pc.locked pl.pc ↔ .lock ∈ pl.locks := by
  cases pl <;> simp [ThreadPlace.pc, ThreadPlace.locks, Pc.locked]

/-- A call that has not begun has done nothing. -/
theorem ThreadCall.start_spec {pc : Option Pc} (parse : CString → Option Host)
    (h : ∀ p, pc = some p → ∃ call : ThreadCall, p = call.start) :
    Pc.committed pc = [] ∧ (∀ a w, Pc.Known parse a w pc) ∧ Pc.unbound pc = none ∧
      Pc.destroying pc = none ∧ ¬Pc.locked pc := by
  cases pc with
  | none => exact ⟨rfl, fun _ _ => trivial, rfl, rfl, id⟩
  | some p =>
    obtain ⟨call, rfl⟩ := h p rfl
    cases call with
    | acquireAddress | release | reload =>
      exact ⟨rfl, fun _ _ => trivial, rfl, rfl, Finset.notMem_empty _⟩

/-- `P` holds of the calls to `acquire_address`. -/
def ThreadCall.OnAcquire (P : AcquireCall → Prop) : ThreadCall → Prop
  | acquireAddress call => P call
  | release _ | reload _ => True

instance (P : AcquireCall → Prop) [DecidablePred P] : DecidablePred (ThreadCall.OnAcquire P)
  | .acquireAddress call => inferInstanceAs (Decidable (P call))
  | .release _ | .reload _ => inferInstanceAs (Decidable True)

/-- `P` holds of the calls to `acquire_address` that threads are told to make. -/
def OnAcquire (P : AcquireCall → Prop) (_ : List (Event T Job SweepInput)) (_ : Threads T) :
    Event T Job SweepInput → Prop
  | .call _ (.call _ call) => call.OnAcquire P
  | .call _ .sweep | .step .. => True

instance (P : AcquireCall → Prop) [DecidablePred P] (es : List (Event T Job SweepInput))
    (s : Threads T) (e : Event T Job SweepInput) : Decidable (OnAcquire P es s e) :=
  match e with
  | .call _ (.call _ call) => inferInstanceAs (Decidable (call.OnAcquire P))
  | .call _ .sweep | .step .. => inferInstanceAs (Decidable True)

theorem onAcquire_of {P : AcquireCall → Prop} (h : ∀ call, P call)
    (es : List (Event T Job SweepInput)) (s : Threads T) (e : Event T Job SweepInput) :
    OnAcquire P es s e := by
  match e with
  | .call _ (.call _ (.acquireAddress call)) => exact h call
  | .call _ (.call _ (.release _)) | .call _ (.call _ (.reload _)) => trivial
  | .call _ .sweep | .step .. => trivial

/-- `P` holds of the call that the thread makes, or is about to make. -/
def ThreadPlace.OnAcquire (P : AcquireCall → Prop) : ThreadPlace → Prop
  | checkout _ call => call.OnAcquire P
  | worker _ pc | releasing _ pc => pc.OnCall P
  | _ => True

/-- The condition on the calls reaches the accesses of a place. -/
theorem ThreadPlace.onCall_pc {pl : ThreadPlace} {pc : Pc} (h : pl.OnAcquire Q)
    (hpc : pl.pc = some pc) : pc.OnCall Q := by
  cases pl with
  | worker | releasing => exact Option.some.inj hpc ▸ h
  | _ => simp [ThreadPlace.pc] at hpc

theorem ThreadCall.onCall_start {call : ThreadCall} (h : call.OnAcquire Q) :
    call.start.OnCall Q := by
  cases call with
  | acquireAddress => exact h
  | release | reload => trivial

theorem Pc.onCall_next {pc p' : Pc} (h : pc.OnCall Q) (hnext : (pc.next parse a).2.1 = some p') :
    p'.OnCall Q := by
  have hcase := pc.next_cases parse a
  rw [hnext] at hcase
  generalize (pc.next parse a).1 = a', (pc.next parse a).2.2 = done at hcase
  generalize hp' : some p' = next at hcase
  cases hcase with
  | releaseUnlock =>
    obtain ⟨r, -, rfl⟩ := Option.map_eq_some_iff.1 hp'.symm
    trivial
  | skip | unlock | leaseDestroy | reloadUnlock => simp at hp'
  | enter | lock | found | missing | migrate | fixed | notFixed | noPool | pool | full | bind =>
    obtain rfl := Option.some.inj hp'
    exact h
  | rollback | releaseLock | unbind | dynRelease | reloadLock | loaded | notLoaded | switch =>
    obtain rfl := Option.some.inj hp'
    trivial

theorem ThreadPlace.onAcquire_next {input : SweepInput} {pl pl' : ThreadPlace} (h : pl.OnAcquire Q)
    (hnext : pl.next parse input a = some (a', pl', done)) : pl'.OnAcquire Q := by
  have hgo {this : IpAllocator} {place : ThreadPlace}
      (hnext : (this, place, (none : Option CriticalSection)) = (a', pl', done))
      (hplace : place.OnAcquire Q) : pl'.OnAcquire Q := by
    obtain ⟨-, rfl, -⟩ := by simpa using hnext
    exact hplace
  cases pl with
  | idle => simp [next] at hnext
  | checkout ikeSa call => exact hgo (Option.some.inj hnext) (ThreadCall.onCall_start h)
  | worker ikeSa pc =>
    rw [next_worker] at hnext
    obtain ⟨-, rfl, -⟩ := by simpa using hnext
    cases hp : (pc.next parse a).2.1 with
    | none => trivial
    | some p' => exact Pc.onCall_next h hp
  | sweep => exact hgo (Option.some.inj hnext) trivial
  | foreachExpiring =>
    simp only [next] at hnext
    split_ifs at hnext
    exact hgo (Option.some.inj hnext) trivial
  | sweepCb rest =>
    cases rest with
    | nil => exact hgo (Option.some.inj hnext) trivial
    | cons lease rest => exact hgo (Option.some.inj hnext) trivial
  | checkoutById lease uid rest =>
    simp only [next] at hnext
    split_ifs at hnext
    · exact hgo (Option.some.inj hnext) trivial
    · exact hgo (Option.some.inj hnext) trivial
  | checkin uid rest => exact hgo (Option.some.inj hnext) trivial
  | orphan lease rest => exact hgo (Option.some.inj hnext) trivial
  | releasing rest pc =>
    rw [next_releasing] at hnext
    obtain ⟨-, rfl, -⟩ := by simpa using hnext
    cases hp : (pc.next parse a).2.1 with
    | none => trivial
    | some p' => exact Pc.onCall_next h hp

variable {policy : PolicyEngine} {poolName : Option CString} {leaseTimeout : UInt32}
  {calloc : Option (ℕ → UInt8)} {evs : List (Event T Job SweepInput)} {s s' : Threads T}
  {past past' : Set (Moment T CriticalSection)}

/-- What is complete now, and who is not in the code of the plugin. -/
def moment (s : Threads T) : Moment T CriticalSection where
  done t := ofThread t s.log
  outside := {t | (s.place t).pc = none}

/-- What all runs of the threads keep. -/
structure InOrder (parse : CString → Option Host) (Q : AcquireCall → Prop) (alloc : IpAllocator)
    (past : Set (Moment T CriticalSection)) (s : Threads T) : Prop where
  owned : Owned (threadCode parse) s
  calls : ∀ t, (s.place t).OnAcquire Q
  reached : Tracks.Reached parse Q alloc past (fun t => (s.place t).pc) s.data s.log

theorem InOrder.anti (h : InOrder parse Q alloc past s) (hsub : past' ⊆ past) :
    InOrder parse Q alloc past' s := by
  obtain ⟨es, late, w, hrun, htracks⟩ := h.reached
  exact ⟨h.owned, h.calls, es, late, w, hrun,
    { htracks with past := fun x hx => htracks.past x (hsub hx) }⟩

/-- The order respects what is complete now. -/
theorem InOrder.now (h : InOrder parse Q alloc past s) :
    InOrder parse Q alloc (insert (moment s) past) s := by
  obtain ⟨es, late, w, hrun, htracks⟩ := h.reached
  refine ⟨h.owned, h.calls, es, late, w, hrun, { htracks with past := fun x hx => ?_ }⟩
  rcases hx with rfl | hx
  · refine Moment.kept_now (fun t => ?_) (fun t ht => ?_) fun t ht => ?_
    · rw [htracks.order t]
      exact List.prefix_append _ _
    · rw [htracks.order t, show (s.place t).pc = none from ht]
      exact List.append_nil _
    · have hpc : (s.place t).pc = none := ht
      simp [Away, hpc, Pc.locked, Pc.unbound]
  · exact htracks.past x hx

theorem inOrder_initial (parse : CString → Option Host) (Q : AcquireCall → Prop)
    (hok : alloc.sessions.Ok) :
    InOrder parse Q alloc ∅ (Code.initial alloc .idle : Threads T) where
  owned := owned_initial rfl
  calls _ := trivial
  reached := by
    refine ⟨[], [], .start alloc, .nil, fun _ => rfl, fun _ => trivial, fun _ => .refl _, rfl, rfl,
      rfl, rfl, ⟨fun r => ?_, fun hr => ?_⟩, ⟨fun r => ?_, fun hr => ?_, fun hr => ?_⟩,
      hok, by simp, .nil⟩
    · simp [World.start, Code.initial, ThreadPlace.pc, Pc.unbound]
    · simp [Code.initial, ThreadPlace.pc, Pc.unbound] at hr
    · simp [World.start, Code.initial, ThreadPlace.pc, Pc.destroying]
    · simp [Code.initial, ThreadPlace.pc, Pc.destroying] at hr
    · simp [Code.initial, ThreadPlace.pc, Pc.destroying] at hr

theorem Threads.pcs_update (s : Threads T) (t : T) (pl : ThreadPlace) :
    (fun t' => (Function.update s.place t pl t').pc) =
      Function.update (fun t' => (s.place t').pc) t pl.pc :=
  Function.comp_update ThreadPlace.pc s.place t pl

/-- A call that begins completes no section. -/
theorem InOrder.call (h : InOrder parse Q alloc past s) {job : Job}
    (hQ : OnAcquire Q evs s (.call t job))
    (hs : (threadCode parse).step s (.call t job) = some s') : InOrder parse Q alloc past s' := by
  have hown := h.owned.step hs
  obtain ⟨hidle, rfl⟩ := Code.step_call hs
  refine ⟨hown, fun t' => ?_, ?_⟩
  · rcases eq_or_ne t' t with rfl | hne
    · dsimp only
      rw [Function.update_self]
      cases job with
      | call ikeSa call => exact hQ
      | sweep => trivial
    · dsimp only
      rw [Function.update_of_ne hne]
      exact h.calls t'
  · have hpc : (s.place t).pc = none := by
      revert hidle
      change (s.place t).isIdle = true → _
      cases s.place t <;> simp [ThreadPlace.isIdle, ThreadPlace.pc]
    have hstart : ((threadCode parse).start job).pc = none := by
      cases job <;> rfl
    dsimp only
    rw [Threads.pcs_update, hstart, ← hpc, Function.update_eq_self]
    exact h.reached

/-- An access completes at most one section, which takes its place in the order. -/
theorem InOrder.step
    (h : InOrder parse Q (ipAllocatorCreate policy poolName leaseTimeout calloc) past s)
    {input : SweepInput} (hs : (threadCode parse).step s (.step t input) = some s') :
    InOrder parse Q (ipAllocatorCreate policy poolName leaseTimeout calloc) past s' := by
  have hown := h.owned.step hs
  obtain ⟨a', pl, done, hnext, hadmits, rfl⟩ := Code.step_step hs
  refine ⟨hown, fun t' => ?_, ?_⟩
  · unfold Code.go
    dsimp only
    rcases eq_or_ne t' t with rfl | hne
    · rw [Function.update_self]
      exact ThreadPlace.onAcquire_next (h.calls t') hnext
    · rw [Function.update_of_ne hne]
      exact h.calls t'
  · obtain ⟨es, late, w, hrun, htracks⟩ := h.reached
    unfold Code.go
    dsimp only
    rw [Threads.pcs_update]
    rcases ThreadPlace.next_cases hnext with ⟨hnone, rfl, rfl, hstart⟩ | ⟨pc, hpc, hpcnext⟩
    · obtain ⟨hc, hk, hu, hd, hl⟩ := ThreadCall.start_spec parse hstart
      refine ⟨es, late, w, hrun, htracks.silent ?_ (hk _ _) ?_ ?_ (by simp [hnone])
        (fun _ hin => absurd hin hl) fun hin => ?_⟩
      · rw [hc, hnone]
        rfl
      · rw [hu, hnone]
        rfl
      · rw [hd, hnone]
        rfl
      · simp [hnone, Pc.locked] at hin
    · have hcase := pc.next_cases parse s.data
      rw [hpcnext] at hcase
      refine htracks.step hrun (World.loose_of_create hrun) hpc
        (ThreadPlace.onCall_pc (h.calls t) hpc)
        (fun hlock t' hne hlocked => hne ?_) hcase
      -- the lock is free or the thread has it
      have howner : s.owner .lock = some t' := (h.owned _ _).2 (ThreadPlace.locked_iff.1 hlocked)
      rcases hlock with hlock | hlock
      · rw [← hpc, ThreadPlace.locked_iff] at hlock
        exact h.owned.eq (ThreadPlace.locked_iff.1 hlocked) hlock
      · rcases hadmits _ (ThreadPlace.locked_iff.1 hlock) with hfree | hmine
        · simp [hfree] at howner
        · exact Option.some.inj (howner.symm.trans hmine)

/-- The moments of a run. -/
def pastOf (parse : CString → Option Host) (Q : AcquireCall → Prop) (alloc : IpAllocator)
    (evs : List (Event T Job SweepInput)) : Set (Moment T CriticalSection) :=
  {x | ∃ (evs₁ : List (Event T Job SweepInput)) (s₁ : Threads T), evs₁ <+: evs ∧
    (threadCode parse).Run (OnAcquire Q) (Code.initial alloc .idle) evs₁ s₁ ∧ moment s₁ = x}

/-- In all runs the sections are in order. -/
theorem inOrder_of_run (h : (threadCode parse).Run (OnAcquire Q)
      (Code.initial (ipAllocatorCreate policy poolName leaseTimeout calloc) .idle : Threads T) evs
      s) :
    InOrder parse Q (ipAllocatorCreate policy poolName leaseTimeout calloc)
      (pastOf parse Q (ipAllocatorCreate policy poolName leaseTimeout calloc) evs) s := by
  refine h.induction (P := fun evs s => InOrder parse Q
    (ipAllocatorCreate policy poolName leaseTimeout calloc)
    (pastOf parse Q (ipAllocatorCreate policy poolName leaseTimeout calloc) evs) s) ?_ ?_
  · refine (inOrder_initial parse Q SessionManager.ok_create).now.anti ?_
    rintro x ⟨evs₁, s₁, hprefix, hrun, rfl⟩
    obtain rfl := List.prefix_nil.1 hprefix
    exact Or.inl (congrArg _ (hrun.unique .nil))
  · intro evs s e s' hrun hi hg hs
    have hi' : InOrder parse Q (ipAllocatorCreate policy poolName leaseTimeout calloc)
        (pastOf parse Q (ipAllocatorCreate policy poolName leaseTimeout calloc) evs) s' := by
      cases e with
      | call t job => exact hi.call hg hs
      | step t input => exact hi.step hs
    refine hi'.now.anti ?_
    rintro x ⟨evs₁, s₁, hprefix, hrun₁, rfl⟩
    rcases List.prefix_concat_iff.1 hprefix with rfl | hprefix
    · exact Or.inl (congrArg _ (hrun₁.unique (hrun.snoc hg hs)))
    · exact Or.inr ⟨evs₁, s₁, hprefix, hrun₁, rfl⟩

/-! ## The order of the sections -/

/-- The thread is between two sections of the code. -/
def ThreadPlace.Between (pl : ThreadPlace) : Prop :=
  ¬Pc.locked pl.pc ∧ Pc.committed pl.pc = []

/-- Between sections, the sections lead to the allocator that the threads have. -/
theorem Tracks.alloc_eq {pcs : T → Option Pc} {log es late : List (T × CriticalSection)} {w : World}
    (h : Tracks parse Q past pcs a log es late w)
    (hbetween : ∀ t, ¬Pc.locked (pcs t) ∧ Pc.committed (pcs t) = []) :
    { w.alloc with policy := policyAfter parse w.alloc.policy late } = a := by
  obtain ⟨freed, hsessions⟩ := h.free fun t => (hbetween t).1
  have hfreed : freed = a.sessions.freed := by
    ext r
    have hdestroyed := h.destroyed.mem_iff r
    rw [hsessions] at hdestroyed
    rw [hdestroyed]
    refine or_iff_left ?_
    rintro ⟨t, ht⟩
    have hcommitted := (hbetween t).2
    revert ht hcommitted
    generalize pcs t = pc
    cases pc with
    | none => simp [Pc.destroying]
    | some pc => cases pc <;> simp [Pc.destroying, Pc.committed]
  change (⟨policyAfter parse w.alloc.policy late, w.alloc.dyn, w.alloc.sessions, w.alloc.poolName,
    w.alloc.leaseTimeout⟩ : IpAllocator) = a
  rw [hsessions, hfreed, h.dyn, h.poolName, h.leaseTimeout, ← h.policy]

/-- In the order `es` the sections lead to `w`. Each thread has in it the sections it has gone
through, and that which it is in if this has had its effect. What was complete at some time comes
before what threads do that had not begun then. When all threads are between sections, `w` is what
they have come to. -/
structure Linearizes (parse : CString → Option Host) (Q : AcquireCall → Prop) (alloc : IpAllocator)
    (evs : List (Event T Job SweepInput)) (s : Threads T) (es : List (T × CriticalSection))
    (w : World) : Prop where
  run : World.Run parse (fun _ _ e => e.OnAcquire Q) alloc (es.map Prod.snd) w
  sections : ∀ t, ofThread t es = ofThread t s.log ++ Pc.committed (s.place t).pc
  realTime : ∀ evs₁ (s₁ : Threads T), evs₁ <+: evs → (threadCode parse).Run (OnAcquire Q)
    (Code.initial alloc .idle) evs₁ s₁ → (moment s₁).Precedes es
  alloc_eq : (∀ t, (s.place t).Between) → w.alloc = s.data
  pending : ∀ r, r ∈ w.pending ↔ ∃ t, Pc.unbound (s.place t).pc = some r

/-- Sections in order linearize the run. -/
theorem InOrder.linearizes (h : InOrder parse Q alloc (pastOf parse Q alloc evs) s) :
    ∃ es w, Linearizes parse Q alloc evs s es w := by
  obtain ⟨es, late, w, hrun, htracks⟩ := h.reached
  exact ⟨es ++ late, _, run_late hrun htracks.late.quiet, htracks.order,
    fun evs₁ s₁ hprefix hrun₁ => (htracks.past _ ⟨evs₁, s₁, hprefix, hrun₁, rfl⟩).precedes,
    htracks.alloc_eq, htracks.unbound.mem_iff⟩

/-- Critical sections are atomic : whatever threads do, access by access, can be done section by
section. -/
theorem sections_of_threads (h : (threadCode parse).Run (OnAcquire Q)
      (Code.initial (ipAllocatorCreate policy poolName leaseTimeout calloc) .idle : Threads T) evs
      s) :
    ∃ es w, Linearizes parse Q (ipAllocatorCreate policy poolName leaseTimeout calloc) evs s es w :=
  (inOrder_of_run h).linearizes

/-- `n` accesses of a thread outside of sweeps. -/
def accesses (t : T) (n : ℕ) : List (Event T Job SweepInput) :=
  List.replicate n (.step t ⟨0, [], true⟩)

/-- While `b` logs in, between the policy and the pool, a reload gives `b` a fixed address, and the
release of `a` gives back the only address of the pool. -/
def crossing : List (Event (Fin 3) Job SweepInput) :=
  .call 0 (.call none (.acquireAddress (login (letterSa 1 'a') 0))) :: accesses 0 8 ++
    .call 1 (.call none (.release 1)) :: accesses 1 4 ++
    .call 0 (.call none (.acquireAddress (login (letterSa 2 'b') 0))) :: accesses 0 5 ++
    .call 2 (.call none (.reload (policyFile [('b', '9')] '1' '1'))) :: accesses 2 5 ++
    accesses 1 2 ++ accesses 0 3

/-- `b` gets the address of the pool. So the reload comes after the login of `b`, although it was
complete before, and the end of the release comes before. -/
theorem sections_of_crossing : ∃ s es w,
    (threadCode tenNetFromString).Run (OnAcquire fun _ => True)
      (Code.initial (smallAlloc (smallPolicy [] 1 1)) .idle) crossing s ∧
    s.log = [(0, .acquire (login (letterSa 1 'a') 0) (.done (some (tenNet 1)))), (1, .unbind 1),
      (2, .reload (policyFile [('b', '9')] '1' '1')), (1, .finish 0),
      (0, .acquire (login (letterSa 2 'b') 0) (.done (some (tenNet 1))))] ∧
    Linearizes tenNetFromString (fun _ => True) (smallAlloc (smallPolicy [] 1 1)) crossing s es
      w := by
  obtain ⟨s, hrun, hlog⟩ := Run.exists_of_exec (by decide : (exec
    (threadCode tenNetFromString).step (OnAcquire fun _ => True) []
    (Code.initial (smallAlloc (smallPolicy [] 1 1)) .idle : Threads (Fin 3)) crossing).map
      State.log = some [(0, .acquire (login (letterSa 1 'a') 0) (.done (some (tenNet 1)))),
      (1, .unbind 1), (2, .reload (policyFile [('b', '9')] '1' '1')), (1, .finish 0),
      (0, .acquire (login (letterSa 2 'b') 0) (.done (some (tenNet 1))))])
  obtain ⟨es, w, hlin⟩ := sections_of_threads hrun
  exact ⟨s, es, w, hrun, hlog, hlin⟩

/-- Threads that access the allocator in any order answer their calls as the address server does, in
some order that respects real time. -/
theorem server_of_threads {owner : UInt32 → CString} {mem : ℕ → UInt8}
    (hfits : policy.active.PoolFits) (h : (threadCode parse).Run (OnAcquire (·.Regular owner))
      (Code.initial (ipAllocatorCreate policy poolName leaseTimeout (some mem)) .idle : Threads T)
      evs s) :
    ∃ es w es' t, Linearizes parse (·.Regular owner)
        (ipAllocatorCreate policy poolName leaseTimeout (some mem)) evs s es w ∧
      AddressServer.Run parse
        (.start policy (poolName.getD (.ofBytes (ascii ['c', 'u', 'p', 'p'])))
          (if leaseTimeout = 0 then 3600 else leaseTimeout)) es' t ∧
      es'.filterMap ServerEvent.shown =
        (es.map Prod.snd).filterMap CriticalSection.shown ∧ w.Shows t := by
  obtain ⟨es, w, hlin⟩ := (inOrder_of_run h).linearizes
  obtain ⟨es', t, hrun, hshown, hshows⟩ := server_of_run hfits hlin.run
  exact ⟨es, w, es', t, hlin, hrun, hshown, hshows⟩

/-- Odd unique ids are those of `a`. -/
theorem server_of_crossing : ∃ s es w es' t,
    (threadCode tenNetFromString).Run (OnAcquire (·.Regular oddEven))
      (Code.initial (smallAlloc (smallPolicy [] 1 1)) .idle) crossing s ∧
    s.log.length = 5 ∧
    Linearizes tenNetFromString (·.Regular oddEven) (smallAlloc (smallPolicy [] 1 1)) crossing s es
      w ∧
    AddressServer.Run tenNetFromString
      (.start ⟨smallPolicy [] 1 1⟩ (.ofBytes (ascii ['c', 'u', 'p', 'p'])) 3600) es' t ∧
    es'.filterMap ServerEvent.shown = (es.map Prod.snd).filterMap CriticalSection.shown ∧
    w.Shows t := by
  obtain ⟨s, hrun, hlog⟩ := Run.exists_of_exec (by decide : (exec
    (threadCode tenNetFromString).step (OnAcquire (·.Regular oddEven)) []
    (Code.initial (smallAlloc (smallPolicy [] 1 1)) .idle : Threads (Fin 3)) crossing).map
      (fun s => s.log.length) = some 5)
  obtain ⟨es, w, es', t, hlin, hrun', hshown, hshows⟩ := server_of_threads (by decide) hrun
  exact ⟨s, es, w, es', t, hrun, hlog, hlin, hrun', hshown, hshows⟩

end Cupp
