import Cupp.Bindings
import Cupp.Sections

/-!
# Reloads event by event

`reload` reads the file event by event into a snapshot that nobody else sees, under a lock that
only reloads take. So other calls come in between any two events, and the parser can fail at any
event. `Reloading` is the allocator with the reload under way, and its steps are the events of
the file and the critical sections of the other calls.

A run of these steps is one in which each reload is a single critical section, at the step in
which it returns (`Reloading.run_refines`). `Streams` follows what has been read, and
the policy in force is always that of the last stream that was read to its end
(`reload_all_or_nothing`).
-/

set_option linter.unusedSectionVars false

open Transition

namespace Cupp

/-- The allocator with what the reload under way has filled in. -/
structure Reloading where
  world : World
  loading : Option Loader

/-- What happens while files are reloaded. -/
inductive ReloadStep
  /-- A critical section of another call. -/
  | other (e : CriticalSection)
  /-- A reload takes the lock. `ok` : the file can be opened, and there is memory to load it. -/
  | begin (ok : Bool)
  /-- The parser delivers an event. With the end of the stream the reload returns TRUE. -/
  | read (e : YamlEvent)
  /-- The parser fails, and the reload returns FALSE. -/
  | parseError
  deriving DecidableEq

namespace Reloading

/-- `active` points to another snapshot. -/
def swap (w : World) (fresh : Snapshot) : World :=
  { w with alloc := { w.alloc with policy := { w.alloc.policy with active := fresh } } }

/-- One step. Reloads are not among the other calls, as they wait for the lock. -/
def step (parse : CString → Option Host) (w : Reloading) : ReloadStep → Option Reloading
  | .other (.reload _) => none
  | .other e => (w.world.step parse e).map fun world => { w with world := world }
  | .begin ok =>
    if w.loading.isSome then none
    else some { w with loading := if ok then some .init else none }
  | .read e =>
    w.loading.map fun loader =>
      if e = .streamEnd then
        ⟨swap w.world ⟨loader.fixed, loader.poolStart, loader.poolEnd⟩, none⟩
      else { w with loading := some (loader.onEvent parse e) }
  | .parseError => w.loading.map fun _ => { w with loading := none }

/-- Runs from a new allocator. -/
abbrev Run (parse : CString → Option Host) (alloc : IpAllocator) :
    List ReloadStep → Reloading → Prop :=
  Transition.Run (fun w e w' => w.step parse e = some w') (fun _ _ _ => True) ⟨.start alloc, none⟩

/-- The ways a step can go. -/
inductive StepCase (parse : CString → Option Host) (w : Reloading) :
    ReloadStep → Reloading → Prop
  | other {e : CriticalSection} {world : World} : (∀ file, e ≠ .reload file) →
      w.world.step parse e = some world → StepCase parse w (.other e) { w with world := world }
  | refused : w.loading = none → StepCase parse w (.begin false) { w with loading := none }
  | opened : w.loading = none →
      StepCase parse w (.begin true) { w with loading := some .init }
  | read {loader : Loader} {e : YamlEvent} : w.loading = some loader → e ≠ .streamEnd →
      StepCase parse w (.read e) { w with loading := some (loader.onEvent parse e) }
  | swapped {loader : Loader} : w.loading = some loader →
      StepCase parse w (.read .streamEnd) ⟨swap w.world loader.snapshot, none⟩
  | broken {loader : Loader} : w.loading = some loader →
      StepCase parse w .parseError { w with loading := none }

variable {parse : CString → Option Host} {w w' : Reloading} {e : ReloadStep}

/-- What a step does. -/
theorem step_cases (h : w.step parse e = some w') : StepCase parse w e w' := by
  cases e with
  | other e =>
    have hother : (∀ file, e ≠ .reload file) ∧
        (w.world.step parse e).map (fun world => { w with world := world }) = some w' := by
      cases e with
      | reload file => simp [step] at h
      | _ => exact ⟨by simp, h⟩
    obtain ⟨world, hworld, rfl⟩ := Option.map_eq_some_iff.1 hother.2
    exact .other hother.1 hworld
  | begin ok =>
    have hnone : w.loading = none := by
      by_contra hsome
      simp [step, Option.isSome_iff_ne_none.2 hsome] at h
    rw [step, if_neg (by simp [hnone])] at h
    obtain rfl := Option.some.inj h
    cases ok with
    | true => exact .opened hnone
    | false => exact .refused hnone
  | read e =>
    obtain ⟨loader, hloader, hw'⟩ := Option.map_eq_some_iff.1 h
    by_cases hend : e = .streamEnd
    · subst hend
      rw [if_pos rfl] at hw'
      exact hw' ▸ .swapped hloader
    · rw [if_neg hend] at hw'
      exact hw' ▸ .read hloader hend
  | parseError =>
    obtain ⟨loader, hloader, rfl⟩ := Option.map_eq_some_iff.1 h
    exact .broken hloader

end Reloading

/-! ## What has been read -/

/-- The last stream that was read to its end, and what has been read of the one under way. -/
structure Streams where
  last : List YamlEvent
  current : List YamlEvent

namespace Streams

/-- What a step adds to the stream. -/
def next (s : Streams) : ReloadStep → Streams
  | .begin _ => { s with current := [] }
  | .read e => if e = .streamEnd then ⟨s.current, []⟩ else { s with current := s.current ++ [e] }
  | .other _ | .parseError => s

/-- After some steps, the policy having been loaded from `initial` before. -/
def after (initial : List YamlEvent) (es : List ReloadStep) : Streams :=
  es.foldl next ⟨initial, []⟩

@[simp] theorem after_nil (initial : List YamlEvent) : after initial [] = ⟨initial, []⟩ :=
  rfl

@[simp] theorem after_snoc (initial : List YamlEvent) (es : List ReloadStep) (e : ReloadStep) :
    after initial (es ++ [e]) = (after initial es).next e := by
  rw [after, List.foldl_append]
  rfl

/-- The file that a reload has got to read when it returns. -/
def file (s : Streams) : ReloadStep → Option PolicyFile
  | .begin false => some none
  | .read .streamEnd => some (some (s.current ++ [.streamEnd]))
  | .parseError => some (some s.current)
  | _ => none

end Streams

/-- The policy that is loaded from a stream. -/
structure PolicyEngine.LoadedFrom (parse : CString → Option Host) (stream : List YamlEvent)
    (policy : PolicyEngine) : Prop where
  created : policyEngineCreate parse (some (stream ++ [.streamEnd])) = some policy
  /-- Of the addresses the stream has for a user, the last one counts. -/
  lookupFixed : ∀ user, policy.lookupFixed user =
    (((reader parse).emitted .root stream).filterMap (Binding.addressOf user)).getLast?
  getPool : policy.getPool =
    ((((reader parse).emitted .root stream).filterMap Binding.start).getLast?.join.bind
      fun start => (((reader parse).emitted .root stream).filterMap Binding.stop).getLast?.join.map
        fun end_ => (start, end_))

variable {parse : CString → Option Host} {stream events : List YamlEvent} {policy : PolicyEngine}

theorem policyEngineCreate_some (events : List YamlEvent) : policyEngineCreate parse (some events) =
    if YamlEvent.streamEnd ∈ events then
      some ⟨Snapshot.empty.putAll ((reader parse).emitted .root (beforeEnd events))⟩
    else none := by
  rw [policyEngineCreate, snapshotLoad_some]
  by_cases h : YamlEvent.streamEnd ∈ events <;> simp [h]

/-- A policy is loaded from a stream before its end iff it has the bindings read there. -/
theorem loadedFrom_iff (hstream : YamlEvent.streamEnd ∉ stream) : policy.LoadedFrom parse stream ↔
    policy.active = Snapshot.empty.putAll ((reader parse).emitted .root stream) := by
  have hcreate : policyEngineCreate parse (some (stream ++ [.streamEnd])) =
      some ⟨Snapshot.empty.putAll ((reader parse).emitted .root stream)⟩ := by
    rw [policyEngineCreate_some, if_pos (by simp), beforeEnd_append_streamEnd hstream]
  constructor
  · intro h
    rw [← Option.some.inj (hcreate.symm.trans h.created)]
  · intro hactive
    obtain rfl : policy = ⟨Snapshot.empty.putAll ((reader parse).emitted .root stream)⟩ := by
      cases policy
      exact congrArg PolicyEngine.mk hactive
    refine ⟨hcreate, fun user => ?_, ?_⟩
    · exact (Snapshot.lookup_putAll _ _ user).trans (by simp [Snapshot.empty, FixedPool.lookup,
        FixedPool.create])
    · simp only [PolicyEngine.getPool, Snapshot.pool, Snapshot.poolStart_putAll,
        Snapshot.poolEnd_putAll, Snapshot.empty]
      generalize (List.filterMap Binding.start _).getLast? = start,
        (List.filterMap Binding.stop _).getLast? = stop
      obtain _ | _ | start := start <;> obtain _ | _ | stop := stop <;> rfl

/-! ## Runs -/

namespace Reloading

variable {w w' : Reloading} {e : ReloadStep} {es : List ReloadStep} {alloc : IpAllocator}
  {s : Streams} {file : PolicyFile}

/-- The policy in force is from the last stream, and a reload under way has filled in what it has
read. -/
structure Follows (parse : CString → Option Host) (s : Streams) (w : Reloading) : Prop where
  last : YamlEvent.streamEnd ∉ s.last
  current : YamlEvent.streamEnd ∉ s.current
  policy : w.world.alloc.policy.LoadedFrom parse s.last
  loading : ∀ loader ∈ w.loading, loader = s.current.foldl (Loader.onEvent parse) .init

/-- At the start the policy is that of the first file. -/
theorem follows_start (hcreate : policyEngineCreate parse (some events) = some policy)
    (poolName : Option CString) (leaseTimeout : UInt32) (calloc : Option (ℕ → UInt8)) :
    Follows parse (.after (beforeEnd events) [])
      ⟨.start (ipAllocatorCreate policy poolName leaseTimeout calloc), none⟩ := by
  have hnot := streamEnd_notMem_beforeEnd events
  refine ⟨hnot, by simp, (loadedFrom_iff hnot).2 ?_, by simp⟩
  rw [policyEngineCreate_some] at hcreate
  split_ifs at hcreate
  obtain rfl := Option.some.inj hcreate
  rfl

/-- Sections of other calls leave the policy alone. -/
theorem policy_step {v v' : World} {c : CriticalSection} (hc : ∀ file, c ≠ .reload file)
    (h : v.step parse c = some v') : v'.alloc.policy = v.alloc.policy := by
  cases World.step_cases h with
  | acquire hacq =>
    cases IpAllocator.acquireEnter_cases hacq with
    | skipped | reused | refused | bound => rfl
  | unbindNone | unbindSome | finish => rfl
  | @reload file => exact absurd rfl (hc file)

/-- Each step keeps the policy that of the last stream with an end. -/
theorem Follows.step (hf : Follows parse s w) (h : w.step parse e = some w') :
    Follows parse (s.next e) w' := by
  cases step_cases h with
  | other hc hstep => exact ⟨hf.last, hf.current, policy_step hc hstep ▸ hf.policy, hf.loading⟩
  | refused hnone => exact ⟨hf.last, by simp [Streams.next], hf.policy, by simp⟩
  | opened hnone => exact ⟨hf.last, by simp [Streams.next], hf.policy, by simp [Streams.next]⟩
  | @read loader e hloader hne =>
    simp only [Streams.next, if_neg hne]
    refine ⟨hf.last, ?_, hf.policy, ?_⟩
    · simpa [hne.symm] using hf.current
    · rw [List.foldl_append, ← hf.loading loader hloader]
      simp
  | @swapped loader hloader =>
    simp only [Streams.next, if_pos]
    refine ⟨hf.current, by simp, (loadedFrom_iff hf.current).2 ?_, by simp⟩
    rw [← Loader.snapshot_foldl, ← hf.loading loader hloader]
    rfl
  | broken hloader => exact ⟨hf.last, hf.current, hf.policy, by simp⟩

/-- A reload that returns in a step has the effect, and the answer, of reading its file there. -/
theorem Follows.returns (hf : Follows parse s w) (h : w.step parse e = some w')
    (hfile : s.file e = some file) :
    w.world.alloc.reloadPolicy parse file =
      (decide (e = .read .streamEnd), w'.world.alloc) ∧ w'.world.pending = w.world.pending := by
  have hcurrent := hf.current
  cases step_cases h with
  | refused =>
    obtain rfl := Option.some.inj hfile
    exact ⟨rfl, rfl⟩
  | opened | other => simp [Streams.file] at hfile
  | read _ hne =>
    refine absurd hfile ?_
    rw [Streams.file] <;> simp [hne]
  | @swapped loader hloader =>
    obtain rfl := Option.some.inj hfile
    refine ⟨?_, rfl⟩
    rw [IpAllocator.reloadPolicy, PolicyEngine.reload, snapshotLoad_some, if_pos (by simp),
      beforeEnd_append_streamEnd hcurrent, ← Loader.snapshot_foldl, ← hf.loading loader hloader]
    rfl
  | broken =>
    obtain rfl := Option.some.inj hfile
    refine ⟨?_, rfl⟩
    rw [IpAllocator.reloadPolicy, PolicyEngine.reload, snapshotLoad_some, if_neg hcurrent]
    rfl

/-- Only the end of a stream changes anything, and it changes the policy only. -/
theorem reload_step (h : w.step parse e = some w') (hother : ∀ c, e ≠ .other c) :
    (e ≠ .read .streamEnd → w'.world = w.world) ∧
      w'.world.alloc.sessions = w.world.alloc.sessions ∧
      w'.world.alloc.dyn = w.world.alloc.dyn ∧ w'.world.pending = w.world.pending := by
  cases step_cases h with
  | @other c => exact absurd rfl (hother c)
  | refused | opened | read | broken => exact ⟨fun _ => rfl, rfl, rfl, rfl⟩
  | swapped => exact ⟨fun hne => absurd rfl hne, rfl, rfl, rfl⟩

/-- A reload that does not return in its step does not get to the end of the stream there. -/
theorem ne_of_file_eq_none (h : s.file e = none) : e ≠ .read .streamEnd := by
  rintro rfl
  simp [Streams.file] at h

/-- Every step is one of the system with atomic reloads, or none. -/
theorem Follows.refines (hf : Follows parse s w) (h : w.step parse e = some w') :
    w'.world = w.world ∨ ∃ c, w.world.step parse c = some w'.world := by
  by_cases hother : ∃ c, e = .other c
  · obtain ⟨c, rfl⟩ := hother
    cases step_cases h with
    | other _ hstep => exact Or.inr ⟨c, hstep⟩
  · have hreload : ∀ c, e ≠ .other c := fun c heq => hother ⟨c, heq⟩
    cases hfile : s.file e with
    | none => exact Or.inl ((reload_step h hreload).1 (ne_of_file_eq_none hfile))
    | some file =>
      obtain ⟨heffect, hpending⟩ := hf.returns h hfile
      refine Or.inr ⟨.reload file, ?_⟩
      rw [World.step, heffect, ← hpending]

/-- A run is one of the system with atomic reloads, and follows what has been read. -/
theorem run_refines (hstart : Follows parse (.after stream []) ⟨.start alloc, none⟩)
    (h : Run parse alloc es w) : Follows parse (.after stream es) w ∧
      ∃ cs, World.Run parse (fun _ _ _ => True) alloc cs w.world := by
  refine h.induction (P := fun es w => Follows parse (.after stream es) w ∧
    ∃ cs, World.Run parse (fun _ _ _ => True) alloc cs w.world) ⟨hstart, [], .nil⟩ ?_
  rintro es w e w' - ⟨hf, cs, hcs⟩ - hstep
  refine ⟨Streams.after_snoc stream es e ▸ hf.step hstep, ?_⟩
  rcases hf.refines hstep with heq | ⟨c, hc⟩
  · exact ⟨cs, heq ▸ hcs⟩
  · exact ⟨cs ++ [c], hcs.snoc trivial hc⟩

end Reloading

/-- Whatever reloads are tried and wherever they fail, and whatever calls come in between, the
policy in force is the one that is loaded from the last stream that was read to its end. A
reload answers FALSE just if it does not get there, and it changes no lease and no address. -/
theorem reload_all_or_nothing {parse : CString → Option Host} {events : List YamlEvent}
    {policy : PolicyEngine} (hcreate : policyEngineCreate parse (some events) = some policy)
    {poolName : Option CString} {leaseTimeout : UInt32} {calloc : Option (ℕ → UInt8)}
    {es : List ReloadStep} {w : Reloading}
    (h : Reloading.Run parse (ipAllocatorCreate policy poolName leaseTimeout calloc) es w) :
    w.world.alloc.policy.LoadedFrom parse (Streams.after (beforeEnd events) es).last ∧
      ∀ e w', w.step parse e = some w' → (∀ c, e ≠ .other c) →
        (e ≠ .read .streamEnd → w'.world = w.world) ∧
        w'.world.alloc.sessions = w.world.alloc.sessions ∧
        w'.world.alloc.dyn = w.world.alloc.dyn ∧ w'.world.pending = w.world.pending ∧
        ∀ file, (Streams.after (beforeEnd events) es).file e = some file →
          w.world.alloc.reloadPolicy parse file =
            (decide (e = .read .streamEnd), w'.world.alloc) := by
  have hstart := Reloading.follows_start hcreate poolName leaseTimeout calloc
  obtain ⟨hf, -⟩ := Reloading.run_refines hstart h
  refine ⟨hf.policy, fun e w' hstep hother => ?_⟩
  obtain ⟨hworld, hsessions, hdyn, hpending⟩ := Reloading.reload_step hstep hother
  exact ⟨hworld, hsessions, hdyn, hpending, fun _ hfile => (hf.returns hstep hfile).1⟩

/-- The parser fails after the first event, and the old policy stays. -/
theorem reload_all_or_nothing_of_broken : ∃ events policy,
    policyFile [('b', '9')] '5' '7' = some events ∧
      policyEngineCreate tenNetFromString (some events) = some policy ∧
      ∃ w, Reloading.Run tenNetFromString (ipAllocatorCreate policy none 0 none)
          [.begin true, .read .streamStart, .parseError] w ∧
        w.world.alloc.policy.LoadedFrom tenNetFromString (beforeEnd events) := by
  obtain ⟨policy, hcreate⟩ := Option.isSome_iff_exists.1 (by decide :
    (policyEngineCreate tenNetFromString (policyFile [('b', '9')] '5' '7')).isSome = true)
  have hrun : Reloading.Run tenNetFromString (ipAllocatorCreate policy none 0 none)
      [.begin true, .read .streamStart, .parseError]
      ⟨.start (ipAllocatorCreate policy none 0 none), none⟩ :=
    .snoc (.snoc (.snoc .nil trivial rfl) trivial rfl) trivial rfl
  exact ⟨_, policy, rfl, hcreate, _, hrun, (reload_all_or_nothing hcreate hrun).1⟩

end Cupp
