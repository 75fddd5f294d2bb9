import Cupp.Sections

/-!
# The life cycle of the plugin

The plugin counts its references : one of its own, and one for each sweep job. A register call
takes a reference and queues a job, whose callback the processor runs as often as it asks for
it, and whose cleanup drops the reference. An unregister call sets `terminating` under
`sweep_lock`, and `destroy` drops the plugin's own reference. Whoever drops the last reference
runs `plugin_destroy_internal`.

Here all of these interleave step by step (`PluginEvent`). Of strongSwan it is assumed that a
job runs in one thread at a time and is cleaned up once, after its last run or without one,
and that `destroy` is called once, when no register or unregister call is under way, and none
is made later. Then the count is exact, the plugin is destroyed once, after `destroy` and
the last cleanup, and no sweep begins after an unregister call has returned
(`plugin_life_cycle`).
-/

set_option linter.unusedSectionVars false

open Transition

namespace Cupp

/-- Where a sweep job is, from the `plugin_ref` of its register call to its cleanup. -/
inductive SweepJob (T : Type)
  | creating (t : T)
  | queued
  | entered
  | waiting
  | locked
  | sweeping
  | swept
  | unlocked
  | finished
  deriving DecidableEq

/-- Where a call of `plugin_cb` or `destroy` is. -/
inductive PluginCall (J : Type)
  | registering
  | referenced (j : J)
  | refused (j : J)
  | created (j : J)
  | registered
  | unregistering
  | holding
  | terminated
  | unregistered
  | destroying
  | returning
  deriving DecidableEq

/-- `private_user_policy_plugin_t`, with the jobs that hold a reference and the calls under
way, by thread. `freeing` threads have dropped the last reference and are about to run
`plugin_destroy_internal`, which has run `freed` times. -/
structure PluginWorld (T J : Type) where
  refcnt : ℤ
  terminating : Bool
  sweepLock : Option (T ⊕ J)
  jobs : Hashtable J (SweepJob T)
  calls : Hashtable T (PluginCall J)
  destroyedBy : Option T
  destroyed : Bool
  unregistered : Bool
  freeing : ℕ
  freed : ℕ

/-- A step of a call. -/
inductive CallEvent (J : Type)
  | register
  | ref (j : J)
  | create (ok : Bool)
  | queue
  | log
  | unregister
  | lock
  | terminate
  | unlock
  | destroy
  | unref
  | ret

/-- A step of the processor or of the callback on a job. -/
inductive JobEvent
  | run
  | check
  | lock
  | recheck
  | sweepEnd
  | unlock
  | requeue
  | cancel
  | cleanup

/-- A step of a thread's call, of a job, or the end of a plugin whose count has reached 0. -/
inductive PluginEvent (T J : Type)
  | call (t : T) (e : CallEvent J)
  | job (j : J) (e : JobEvent)
  | free

namespace PluginWorld

variable {T J : Type} [DecidableEq T] [DecidableEq J]

/-- What `user_policy_plugin_create` returns. -/
def start : PluginWorld T J where
  refcnt := 1
  terminating := false
  sweepLock := none
  jobs := ∅
  calls := ∅
  destroyedBy := none
  destroyed := false
  unregistered := false
  freeing := 0
  freed := 0

/-- `plugin_ref`. -/
def pluginRef (w : PluginWorld T J) : PluginWorld T J :=
  { w with refcnt := w.refcnt + 1 }

/-- `plugin_unref`, up to the call of `plugin_destroy_internal`. -/
def pluginUnref (w : PluginWorld T J) : PluginWorld T J :=
  { w with
    refcnt := w.refcnt - 1
    freeing := if w.refcnt - 1 ≤ 0 then w.freeing + 1 else w.freeing }

/-- A call comes to its next point. -/
def setCall (w : PluginWorld T J) (t : T) (c : PluginCall J) : PluginWorld T J :=
  { w with calls := w.calls.insert t c }

/-- A call returns. -/
def endCall (w : PluginWorld T J) (t : T) : PluginWorld T J :=
  { w with calls := w.calls.erase t }

/-- A job comes to its next point. -/
def setJob (w : PluginWorld T J) (j : J) (s : SweepJob T) : PluginWorld T J :=
  { w with jobs := w.jobs.insert j s }

/-- A job is gone. -/
def endJob (w : PluginWorld T J) (j : J) : PluginWorld T J :=
  { w with jobs := w.jobs.erase j }

/-- `plugin_cb` and `destroy`. -/
def stepCall (w : PluginWorld T J) (t : T) : CallEvent J → Option (PluginWorld T J)
  | .register =>
    if w.calls.get t = none ∧ w.destroyedBy = none then some (w.setCall t .registering) else none
  | .ref j =>
    if w.calls.get t = some .registering ∧ j ∉ w.jobs then
      some ((w.pluginRef.setJob j (.creating t)).setCall t (.referenced j))
    else none
  | .create ok =>
    match w.calls.get t with
    | some (.referenced j) => some (w.setCall t (if ok then .created j else .refused j))
    | _ => none
  | .queue =>
    match w.calls.get t with
    | some (.created j) => some ((w.setJob j .queued).setCall t .registered)
    | _ => none
  | .log =>
    match w.calls.get t with
    | some .registered => some (w.setCall t .returning)
    | _ => none
  | .unregister =>
    if w.calls.get t = none ∧ w.destroyedBy = none then some (w.setCall t .unregistering) else none
  | .lock =>
    match w.calls.get t, w.sweepLock with
    | some .unregistering, none => some { w.setCall t .holding with sweepLock := some (.inl t) }
    | _, _ => none
  | .terminate =>
    match w.calls.get t with
    | some .holding => some { w.setCall t .terminated with terminating := true }
    | _ => none
  | .unlock =>
    match w.calls.get t with
    | some .terminated => some { w.setCall t .unregistered with sweepLock := none }
    | _ => none
  | .destroy =>
    if w.calls = ∅ ∧ w.destroyedBy = none then
      some { w.setCall t .destroying with destroyedBy := some t }
    else none
  | .unref =>
    match w.calls.get t with
    | some (.refused j) => some ((w.pluginUnref.endJob j).setCall t .registered)
    | some .destroying => some { w.pluginUnref.setCall t .returning with destroyed := true }
    | _ => none
  | .ret =>
    match w.calls.get t with
    | some .unregistered => some { w.endCall t with unregistered := true }
    | some .returning => some (w.endCall t)
    | _ => none

/-- The processor, `sweep_cb`, `sweep_cancel` and `sweep_cleanup`. -/
def stepJob (w : PluginWorld T J) (j : J) : JobEvent → Option (PluginWorld T J)
  | .run =>
    match w.jobs.get j with
    | some .queued => some (w.setJob j .entered)
    | _ => none
  | .check =>
    match w.jobs.get j with
    | some .entered => some (w.setJob j (if w.terminating then .finished else .waiting))
    | _ => none
  | .lock =>
    match w.jobs.get j, w.sweepLock with
    | some .waiting, none => some { w.setJob j .locked with sweepLock := some (.inr j) }
    | _, _ => none
  | .recheck =>
    match w.jobs.get j with
    | some .locked => some (w.setJob j (if w.terminating then .swept else .sweeping))
    | _ => none
  | .sweepEnd =>
    match w.jobs.get j with
    | some .sweeping => some (w.setJob j .swept)
    | _ => none
  | .unlock =>
    match w.jobs.get j with
    | some .swept => some { w.setJob j .unlocked with sweepLock := none }
    | _ => none
  | .requeue =>
    match w.jobs.get j with
    | some .unlocked => some (w.setJob j (if w.terminating then .finished else .queued))
    | _ => none
  | .cancel =>
    -- `sweep_cancel` reads `terminating` while the callback runs
    match w.jobs.get j with
    | none | some (.creating _) | some .queued => none
    | _ => some w
  | .cleanup =>
    match w.jobs.get j with
    | some .queued | some .finished => some (w.pluginUnref.endJob j)
    | _ => none

/-- One step. -/
def step (w : PluginWorld T J) : PluginEvent T J → Option (PluginWorld T J)
  | .call t e => w.stepCall t e
  | .job j e => w.stepJob j e
  | .free =>
    if 0 < w.freeing then some { w with freeing := w.freeing - 1, freed := w.freed + 1 } else none

/-- All runs from a plugin that has just been created. -/
abbrev Run : List (PluginEvent T J) → PluginWorld T J → Prop :=
  Transition.Run (fun w e w' => w.step e = some w') (fun _ _ _ => True) start

/-! ## What a step does -/

/-- The ways a step can go. -/
inductive StepCase (w : PluginWorld T J) : PluginEvent T J → PluginWorld T J → Prop
  | register {t : T} : w.calls.get t = none → w.destroyedBy = none →
      StepCase w (.call t .register) (w.setCall t .registering)
  | ref {t : T} {j : J} : w.calls.get t = some .registering → j ∉ w.jobs →
      StepCase w (.call t (.ref j))
        ((w.pluginRef.setJob j (.creating t)).setCall t (.referenced j))
  | create {t : T} {j : J} {ok : Bool} : w.calls.get t = some (.referenced j) →
      StepCase w (.call t (.create ok)) (w.setCall t (if ok then .created j else .refused j))
  | queue {t : T} {j : J} : w.calls.get t = some (.created j) →
      StepCase w (.call t .queue) ((w.setJob j .queued).setCall t .registered)
  | log {t : T} : w.calls.get t = some .registered →
      StepCase w (.call t .log) (w.setCall t .returning)
  | unregister {t : T} : w.calls.get t = none → w.destroyedBy = none →
      StepCase w (.call t .unregister) (w.setCall t .unregistering)
  | lock {t : T} : w.calls.get t = some .unregistering → w.sweepLock = none →
      StepCase w (.call t .lock) { w.setCall t .holding with sweepLock := some (.inl t) }
  | terminate {t : T} : w.calls.get t = some .holding →
      StepCase w (.call t .terminate) { w.setCall t .terminated with terminating := true }
  | unlock {t : T} : w.calls.get t = some .terminated →
      StepCase w (.call t .unlock) { w.setCall t .unregistered with sweepLock := none }
  | destroy {t : T} : w.calls = ∅ → w.destroyedBy = none →
      StepCase w (.call t .destroy) { w.setCall t .destroying with destroyedBy := some t }
  | refuse {t : T} {j : J} : w.calls.get t = some (.refused j) →
      StepCase w (.call t .unref) ((w.pluginUnref.endJob j).setCall t .registered)
  | drop {t : T} : w.calls.get t = some .destroying →
      StepCase w (.call t .unref) { w.pluginUnref.setCall t .returning with destroyed := true }
  | leave {t : T} : w.calls.get t = some .unregistered →
      StepCase w (.call t .ret) { w.endCall t with unregistered := true }
  | ret {t : T} : w.calls.get t = some .returning → StepCase w (.call t .ret) (w.endCall t)
  | run {j : J} : w.jobs.get j = some .queued → StepCase w (.job j .run) (w.setJob j .entered)
  | check {j : J} : w.jobs.get j = some .entered → StepCase w (.job j .check)
      (w.setJob j (if w.terminating then .finished else .waiting))
  | lockSweep {j : J} : w.jobs.get j = some .waiting → w.sweepLock = none →
      StepCase w (.job j .lock) { w.setJob j .locked with sweepLock := some (.inr j) }
  | recheck {j : J} : w.jobs.get j = some .locked → StepCase w (.job j .recheck)
      (w.setJob j (if w.terminating then .swept else .sweeping))
  | sweepEnd {j : J} : w.jobs.get j = some .sweeping →
      StepCase w (.job j .sweepEnd) (w.setJob j .swept)
  | unlockSweep {j : J} : w.jobs.get j = some .swept →
      StepCase w (.job j .unlock) { w.setJob j .unlocked with sweepLock := none }
  | requeue {j : J} : w.jobs.get j = some .unlocked → StepCase w (.job j .requeue)
      (w.setJob j (if w.terminating then .finished else .queued))
  | cancel {j : J} {s : SweepJob T} : w.jobs.get j = some s → StepCase w (.job j .cancel) w
  | cleanup {j : J} {s : SweepJob T} : w.jobs.get j = some s → s = .queued ∨ s = .finished →
      StepCase w (.job j .cleanup) (w.pluginUnref.endJob j)
  | free : 0 < w.freeing →
      StepCase w .free { w with freeing := w.freeing - 1, freed := w.freed + 1 }

variable {w w' : PluginWorld T J} {e : PluginEvent T J} {t : T} {j : J} {c : PluginCall J}
  {s : SweepJob T}

theorem stepCall_cases {e : CallEvent J} (h : w.stepCall t e = some w') :
    StepCase w (.call t e) w' := by
  cases e with
  | register =>
    simp only [stepCall] at h
    split_ifs at h with hnew
    cases h
    exact .register hnew.1 hnew.2
  | ref j =>
    simp only [stepCall] at h
    split_ifs at h with hnew
    cases h
    exact .ref hnew.1 hnew.2
  | create ok =>
    simp only [stepCall] at h
    split at h <;> cases h
    exact .create ‹_›
  | queue =>
    simp only [stepCall] at h
    split at h <;> cases h
    exact .queue ‹_›
  | log =>
    simp only [stepCall] at h
    split at h <;> cases h
    exact .log ‹_›
  | unregister =>
    simp only [stepCall] at h
    split_ifs at h with hnew
    cases h
    exact .unregister hnew.1 hnew.2
  | lock =>
    simp only [stepCall] at h
    split at h <;> cases h
    exact .lock ‹_› ‹_›
  | terminate =>
    simp only [stepCall] at h
    split at h <;> cases h
    exact .terminate ‹_›
  | unlock =>
    simp only [stepCall] at h
    split at h <;> cases h
    exact .unlock ‹_›
  | destroy =>
    simp only [stepCall] at h
    split_ifs at h with hnew
    cases h
    exact .destroy hnew.1 hnew.2
  | unref =>
    simp only [stepCall] at h
    split at h <;> cases h
    · exact .refuse ‹_›
    · exact .drop ‹_›
  | ret =>
    simp only [stepCall] at h
    split at h <;> cases h
    · exact .leave ‹_›
    · exact .ret ‹_›

theorem stepJob_cases {e : JobEvent} (h : w.stepJob j e = some w') :
    StepCase w (.job j e) w' := by
  cases e with
  | run =>
    simp only [stepJob] at h
    split at h <;> cases h
    exact .run ‹_›
  | check =>
    simp only [stepJob] at h
    split at h <;> cases h
    exact .check ‹_›
  | lock =>
    simp only [stepJob] at h
    split at h <;> cases h
    exact .lockSweep ‹_› ‹_›
  | recheck =>
    simp only [stepJob] at h
    split at h <;> cases h
    exact .recheck ‹_›
  | sweepEnd =>
    simp only [stepJob] at h
    split at h <;> cases h
    exact .sweepEnd ‹_›
  | unlock =>
    simp only [stepJob] at h
    split at h <;> cases h
    exact .unlockSweep ‹_›
  | requeue =>
    simp only [stepJob] at h
    split at h <;> cases h
    exact .requeue ‹_›
  | cancel =>
    cases hs : w.jobs.get j with
    | none => simp [stepJob, hs] at h
    | some s =>
      obtain rfl : w = w' := by
        simp only [stepJob, hs] at h
        split at h <;> simp_all
      exact .cancel hs
  | cleanup =>
    simp only [stepJob] at h
    split at h <;> cases h
    · exact .cleanup ‹_› (.inl rfl)
    · exact .cleanup ‹_› (.inr rfl)

/-- What a step does. -/
theorem step_cases (h : w.step e = some w') : StepCase w e w' := by
  cases e with
  | call t e => exact stepCall_cases h
  | job j e => exact stepJob_cases h
  | free =>
    simp only [step] at h
    split_ifs at h with hpos
    cases h
    exact .free hpos

/-! ## The references -/

/-- The jobs whose reference has not been dropped. -/
def outstanding (w : PluginWorld T J) : Finset J :=
  w.jobs.keys

/-- The references that are held : one for each job, and the plugin's own. -/
def held (w : PluginWorld T J) : ℕ :=
  w.outstanding.card + (!w.destroyed).toNat

/-- The count is exact, and the plugin is destroyed once, when no reference is left. -/
structure Counted (w : PluginWorld T J) : Prop where
  refcnt : w.refcnt = w.held
  freed : w.freeing + w.freed = if w.held = 0 then 1 else 0

/-- Nothing is held iff the plugin has been destroyed and no job is left. -/
theorem held_eq_zero_iff : w.held = 0 ↔ w.destroyed = true ∧ w.outstanding = ∅ := by
  cases hd : w.destroyed <;> simp [held, hd]

theorem held_setJob_of_mem (h : j ∈ w.jobs) : (w.setJob j s).held = w.held := by
  simp [held, outstanding, setJob, Finset.insert_eq_of_mem (Finmap.mem_keys.2 h)]

theorem held_setJob_of_notMem (h : j ∉ w.jobs) : (w.setJob j s).held = w.held + 1 := by
  simp only [held, outstanding, setJob, Hashtable.keys_insert,
    Finset.card_insert_of_notMem (mt Finmap.mem_keys.1 h)]
  omega

theorem held_endJob (h : j ∈ w.jobs) : (w.endJob j).held + 1 = w.held := by
  have hcard := Finset.card_erase_add_one (Finmap.mem_keys.2 h)
  simp only [held, outstanding, endJob, Finmap.keys_erase]
  omega

/-- Nothing happens to the references. -/
theorem Counted.congr {w₁ : PluginWorld T J} (h : w.Counted) (hrefcnt : w₁.refcnt = w.refcnt)
    (hheld : w₁.held = w.held) (hfreeing : w₁.freeing = w.freeing) (hfreed : w₁.freed = w.freed) :
    w₁.Counted := by
  refine ⟨?_, ?_⟩
  · rw [hrefcnt, hheld, h.refcnt]
  · rw [hfreeing, hfreed, hheld, h.freed]

/-- A reference that is held is dropped. -/
theorem Counted.unref {w₁ : PluginWorld T J} (h : w.Counted)
    (hrefcnt : w₁.refcnt = w.pluginUnref.refcnt) (hfreeing : w₁.freeing = w.pluginUnref.freeing)
    (hfreed : w₁.freed = w.freed) (hheld : w₁.held + 1 = w.held) : w₁.Counted := by
  have hw := h.freed
  rw [if_neg (by omega)] at hw
  have hcount := h.refcnt
  refine ⟨?_, ?_⟩
  · simp only [hrefcnt, pluginUnref]
    omega
  · simp only [hfreeing, pluginUnref, hfreed]
    split_ifs <;> omega

/-! ## What a run keeps -/

/-- What a call relies on. -/
def CallFits (w : PluginWorld T J) (t : T) : PluginCall J → Prop
  | .registering | .registered | .unregistering => w.destroyedBy = none
  | .referenced j | .refused j | .created j =>
    w.destroyedBy = none ∧ w.jobs.get j = some (.creating t)
  | .holding => w.destroyedBy = none ∧ w.sweepLock = some (.inl t)
  | .terminated => w.destroyedBy = none ∧ w.sweepLock = some (.inl t) ∧ w.terminating = true
  | .unregistered => w.destroyedBy = none ∧ w.terminating = true
  | .destroying => w.destroyedBy = some t ∧ w.destroyed = false
  | .returning => True

/-- What a job relies on. -/
def JobFits (w : PluginWorld T J) (j : J) : SweepJob T → Prop
  | .locked | .swept => w.sweepLock = some (.inr j)
  | .sweeping => w.sweepLock = some (.inr j) ∧ w.terminating = false
  | _ => True

/-- What a step of another thread may do to a call. -/
theorem CallFits.mono {w₁ : PluginWorld T J} (h : w.CallFits t c)
    (hby : w₁.destroyedBy = w.destroyedBy)
    (hdestroyed : w.destroyedBy = some t → w₁.destroyed = w.destroyed)
    (hjobs : ∀ j, w.jobs.get j = some (.creating t) → w₁.jobs.get j = some (.creating t))
    (hlock : w.sweepLock = some (.inl t) → w₁.sweepLock = some (.inl t))
    (hterm : w.terminating = true → w₁.terminating = true) : w₁.CallFits t c := by
  cases c with
  | registering | registered | unregistering => exact hby.trans h
  | referenced j | refused j | created j => exact ⟨hby.trans h.1, hjobs j h.2⟩
  | holding => exact ⟨hby.trans h.1, hlock h.2⟩
  | terminated => exact ⟨hby.trans h.1, hlock h.2.1, hterm h.2.2⟩
  | unregistered => exact ⟨hby.trans h.1, hterm h.2⟩
  | destroying => exact ⟨hby.trans h.1, (hdestroyed h.1).trans h.2⟩
  | returning => trivial

/-- What a step of another thread may do to a job. -/
theorem JobFits.mono {w₁ : PluginWorld T J} (h : w.JobFits j s)
    (hlock : w.sweepLock = some (.inr j) →
      w₁.sweepLock = some (.inr j) ∧ w₁.terminating = w.terminating) : w₁.JobFits j s := by
  cases s with
  | locked | swept => exact (hlock h).1
  | sweeping => exact ⟨(hlock h.1).1, (hlock h.1).2.trans h.2⟩
  | creating | queued | entered | waiting | unlocked | finished => trivial

/-- The count is exact, `destroyed` and `unregistered` have their causes, and every call and
every job finds what it relies on. -/
structure Ok (w : PluginWorld T J) : Prop extends w.Counted where
  destroyed : w.destroyed = true → w.destroyedBy ≠ none
  unregistered : w.unregistered = true → w.terminating = true
  calls : ∀ {t c}, w.calls.get t = some c → w.CallFits t c
  jobs : ∀ {j s}, w.jobs.get j = some s → w.JobFits j s

/-- A call goes on, and nothing else changes. -/
theorem Ok.setCall (h : w.Ok) (hc : w.CallFits t c) : (w.setCall t c).Ok where
  toCounted := h.toCounted.congr rfl rfl rfl rfl
  destroyed := h.destroyed
  unregistered := h.unregistered
  calls := Hashtable.forall_insert (hc.mono rfl (fun _ => rfl) (fun _ hj => hj) id id)
    fun _ _ _ hc' => (h.calls hc').mono rfl (fun _ => rfl) (fun _ hj => hj) id id
  jobs hs := (h.jobs hs).mono fun hl => ⟨hl, rfl⟩

theorem Ok.endCall (h : w.Ok) : (w.endCall t).Ok where
  toCounted := h.toCounted.congr rfl rfl rfl rfl
  destroyed := h.destroyed
  unregistered := h.unregistered
  calls := Hashtable.forall_erase
    fun _ _ _ hc' => (h.calls hc').mono rfl (fun _ => rfl) (fun _ hj => hj) id id
  jobs hs := (h.jobs hs).mono fun hl => ⟨hl, rfl⟩

/-- A job of the processor goes on, and nothing else changes. -/
theorem Ok.setJob {s' : SweepJob T} (h : w.Ok) (hj : w.jobs.get j = some s')
    (hs' : ∀ t, s' ≠ .creating t) (hs : w.JobFits j s) : (w.setJob j s).Ok where
  toCounted := h.toCounted.congr rfl (held_setJob_of_mem (Hashtable.mem_of_get hj)) rfl rfl
  destroyed := h.destroyed
  unregistered := h.unregistered
  calls hc := by
    refine (h.calls hc).mono rfl (fun _ => rfl) (fun j' hj' => ?_) id id
    have hne : j' ≠ j := by
      rintro rfl
      exact hs' _ (Option.some.inj (hj.symm.trans hj'))
    simpa [PluginWorld.setJob, hne] using hj'
  jobs := Hashtable.forall_insert (hs.mono fun hl => ⟨hl, rfl⟩)
    fun _ _ _ hs'' => (h.jobs hs'').mono fun hl => ⟨hl, rfl⟩

/-- While `destroy` has not been called, the plugin holds its own reference. -/
theorem Ok.held_pos (h : w.Ok) (hby : w.destroyedBy = none) : 0 < w.held := by
  have hd : w.destroyed = false := Bool.eq_false_iff.2 fun hd => h.destroyed hd hby
  simp [held, hd]

/-- Jobs that different calls create are different. -/
theorem ne_of_creating {t' : T} {j' : J} (hj' : w.jobs.get j' = some (.creating t'))
    (hj : w.jobs.get j = some (.creating t)) (hne : t' ≠ t) : j' ≠ j := by
  rintro rfl
  have heq := hj'.symm.trans hj
  simp [hne] at heq

/-- Taking the reference for a new job keeps the invariant. -/
theorem Ok.ref (h : w.Ok) (hby : w.destroyedBy = none) (hj : j ∉ w.jobs) :
    ((w.pluginRef.setJob j (.creating t)).setCall t (.referenced j)).Ok where
  refcnt := by
    have hheld := held_setJob_of_notMem (s := .creating t) hj
    have hcount := h.refcnt
    change w.refcnt + 1 = (w.setJob j (.creating t)).held
    omega
  freed := by
    have hheld := held_setJob_of_notMem (s := .creating t) hj
    have hfreed := h.freed
    rw [if_neg (h.held_pos hby).ne'] at hfreed
    change w.freeing + w.freed = if (w.setJob j (.creating t)).held = 0 then 1 else 0
    rw [if_neg (by omega), hfreed]
  destroyed := h.destroyed
  unregistered := h.unregistered
  calls := by
    refine Hashtable.forall_insert ?_ fun t' c' _ hc => ?_
    · exact ⟨hby, by simp [PluginWorld.setCall, PluginWorld.setJob]⟩
    · refine (h.calls hc).mono rfl (fun _ => rfl) (fun j' hj' => ?_) id id
      have hne : j' ≠ j := fun heq => hj (heq ▸ Hashtable.mem_of_get hj')
      simpa [PluginWorld.setCall, PluginWorld.setJob, pluginRef, hne] using hj'
  jobs := Hashtable.forall_insert trivial fun _ _ _ hs => (h.jobs hs).mono fun hl => ⟨hl, rfl⟩

theorem Ok.queue (h : w.Ok) (hc : w.calls.get t = some (.created j)) :
    ((w.setJob j .queued).setCall t .registered).Ok where
  toCounted := h.toCounted.congr rfl
    (held_setJob_of_mem (Hashtable.mem_of_get (h.calls hc).2)) rfl rfl
  destroyed := h.destroyed
  unregistered := h.unregistered
  calls := by
    refine Hashtable.forall_insert ?_ fun t' c' hne hc' => ?_
    · exact (h.calls hc).1
    refine (h.calls hc').mono rfl (fun _ => rfl) (fun j' hj' => ?_) id id
    simpa [PluginWorld.setCall, PluginWorld.setJob, ne_of_creating hj' (h.calls hc).2 hne] using hj'
  jobs := Hashtable.forall_insert trivial fun _ _ _ hs => (h.jobs hs).mono fun hl => ⟨hl, rfl⟩

theorem Ok.refuse (h : w.Ok) (hc : w.calls.get t = some (.refused j)) :
    ((w.pluginUnref.endJob j).setCall t .registered).Ok where
  toCounted := h.toCounted.unref rfl rfl rfl
    (held_endJob (Hashtable.mem_of_get (h.calls hc).2))
  destroyed := h.destroyed
  unregistered := h.unregistered
  calls := by
    refine Hashtable.forall_insert ?_ fun t' c' hne hc' => ?_
    · exact (h.calls hc).1
    refine (h.calls hc').mono rfl (fun _ => rfl) (fun j' hj' => ?_) id id
    simpa [PluginWorld.setCall, endJob, pluginUnref, ne_of_creating hj' (h.calls hc).2 hne]
      using hj'
  jobs := Hashtable.forall_erase fun _ _ _ hs => (h.jobs hs).mono fun hl => ⟨hl, rfl⟩

/-- So does a job that ends, and gives its reference back. -/
theorem Ok.cleanup (h : w.Ok) (hj : w.jobs.get j = some s) (hs : ∀ t, s ≠ .creating t) :
    (w.pluginUnref.endJob j).Ok where
  toCounted := h.toCounted.unref rfl rfl rfl (held_endJob (Hashtable.mem_of_get hj))
  destroyed := h.destroyed
  unregistered := h.unregistered
  calls hc := by
    refine (h.calls hc).mono rfl (fun _ => rfl) (fun j' hj' => ?_) id id
    have hne : j' ≠ j := by
      rintro rfl
      exact hs _ (Option.some.inj (hj.symm.trans hj'))
    simpa [endJob, pluginUnref, hne] using hj'
  jobs := Hashtable.forall_erase fun _ _ _ hs => (h.jobs hs).mono fun hl => ⟨hl, rfl⟩

/-- `destroy` drops the plugin's own reference. -/
theorem Ok.drop (h : w.Ok) (hc : w.calls.get t = some .destroying) :
    Ok { w.pluginUnref.setCall t .returning with destroyed := true } := by
  obtain ⟨hby, hdestroyed⟩ := h.calls hc
  refine ⟨h.toCounted.unref rfl rfl rfl ?_, fun _ => ?_, h.unregistered, ?_, fun hs => ?_⟩
  · simp [held, outstanding, hdestroyed, PluginWorld.setCall, pluginUnref]
  · exact fun hnone => Option.some_ne_none t (hby.symm.trans hnone)
  · refine Hashtable.forall_insert trivial fun t' c' hne hc' => ?_
    refine (h.calls hc').mono rfl (fun hby' => ?_) (fun _ hj => hj) id id
    exact absurd (Option.some.inj (hby'.symm.trans hby)) hne
  · exact (h.jobs hs).mono fun hl => ⟨hl, rfl⟩

/-- A call takes `sweep_lock`, or goes on with it or releases it. -/
theorem Ok.lockCall {l : Option (T ⊕ J)} {b : Bool} (h : w.Ok)
    (hlock : ∀ x, w.sweepLock = some x → x = .inl t) (hterm : w.terminating = true → b = true)
    (hself : CallFits { w.setCall t c with sweepLock := l, terminating := b } t c) :
    Ok { w.setCall t c with sweepLock := l, terminating := b } := by
  refine ⟨h.toCounted.congr rfl rfl rfl rfl, h.destroyed, fun hu => hterm (h.unregistered hu), ?_,
    fun {j s} hs => ?_⟩
  · refine Hashtable.forall_insert hself fun t' c' hne hc' => ?_
    refine (h.calls hc').mono rfl (fun _ => rfl) (fun _ hj => hj) (fun hl => ?_) hterm
    exact absurd (Sum.inl.inj (hlock _ hl)) hne
  · refine (h.jobs hs).mono fun hl => ?_
    exact absurd (hlock _ hl) (by simp)

/-- A job takes `sweep_lock` or releases it. -/
theorem Ok.lockJob {l : Option (T ⊕ J)} {s' : SweepJob T} (h : w.Ok)
    (hlock : ∀ x, w.sweepLock = some x → x = .inr j) (hj : w.jobs.get j = some s')
    (hs' : ∀ t, s' ≠ .creating t) (hself : JobFits { w.setJob j s with sweepLock := l } j s) :
    Ok { w.setJob j s with sweepLock := l } := by
  refine ⟨h.toCounted.congr rfl (held_setJob_of_mem (Hashtable.mem_of_get hj)) rfl rfl,
    h.destroyed, h.unregistered, fun {t c} hc => ?_, ?_⟩
  · refine (h.calls hc).mono rfl (fun _ => rfl) (fun j' hj' => ?_) (fun hl => ?_) id
    · have hne : j' ≠ j := by
        rintro rfl
        exact hs' _ (Option.some.inj (hj.symm.trans hj'))
      simpa [PluginWorld.setJob, hne] using hj'
    · exact absurd (hlock _ hl) (by simp)
  · refine Hashtable.forall_insert hself fun j' s'' hne hs'' => ?_
    refine (h.jobs hs'').mono fun hl => ?_
    exact absurd (Sum.inr.inj (hlock _ hl)) hne

/-- The call of `destroy` begins when no other call is left. -/
theorem Ok.destroy (h : w.Ok) (hcalls : w.calls = ∅) (hby : w.destroyedBy = none) :
    Ok { w.setCall t .destroying with destroyedBy := some t } := by
  refine ⟨h.toCounted.congr rfl rfl rfl rfl, fun _ => Option.some_ne_none t, h.unregistered, ?_,
    fun hs => (h.jobs hs).mono fun hl => ⟨hl, rfl⟩⟩
  refine Hashtable.forall_insert ?_ fun t' c' _ hc' => ?_
  · exact ⟨rfl, Bool.eq_false_iff.2 fun hd => h.destroyed hd hby⟩
  · simp [hcalls] at hc'

/-- A step keeps the invariant. -/
theorem Ok.step (h : w.Ok) (hs : w.step e = some w') : w'.Ok := by
  cases step_cases hs with
  | register _ hby | unregister _ hby => exact h.setCall hby
  | ref hc hj => exact h.ref (h.calls hc) hj
  | @create t j ok hc =>
    have hfits : w.CallFits t (.referenced j) := h.calls hc
    cases ok <;> exact h.setCall hfits
  | queue hc => exact h.queue hc
  | log => exact h.setCall trivial
  | lock hc hfree => exact h.lockCall (by simp [hfree]) id ⟨h.calls hc, rfl⟩
  | terminate hc =>
    obtain ⟨hby, hl⟩ := h.calls hc
    exact h.lockCall (by simp [hl]) (fun _ => rfl) ⟨hby, hl, rfl⟩
  | unlock hc =>
    obtain ⟨hby, hl, hterm⟩ := h.calls hc
    exact h.lockCall (by simp [hl]) id ⟨hby, hterm⟩
  | destroy hcalls hby => exact h.destroy hcalls hby
  | refuse hc => exact h.refuse hc
  | drop hc => exact h.drop hc
  | @leave t hc =>
    have hend : (w.endCall t).Ok := h.endCall
    exact ⟨⟨hend.refcnt, hend.freed⟩, hend.destroyed, fun _ => (h.calls hc).2, hend.calls,
      hend.jobs⟩
  | ret => exact h.endCall
  | run hj => exact h.setJob hj (by simp) trivial
  | check hj =>
    refine h.setJob hj (by simp) ?_
    split_ifs <;> trivial
  | lockSweep hj hfree => exact h.lockJob (by simp [hfree]) hj (by simp) rfl
  | recheck hj =>
    have hfits : w.sweepLock = _ := h.jobs hj
    refine h.setJob hj (by simp) ?_
    split_ifs with hterm
    · exact hfits
    · exact ⟨hfits, Bool.eq_false_iff.2 hterm⟩
  | sweepEnd hj => exact h.setJob hj (by simp) (h.jobs hj).1
  | unlockSweep hj =>
    have hl : w.sweepLock = _ := h.jobs hj
    exact h.lockJob (by simp [hl]) hj (by simp) trivial
  | requeue hj =>
    refine h.setJob hj (by simp) ?_
    split_ifs <;> trivial
  | cancel => exact h
  | cleanup hj hends =>
    refine h.cleanup hj fun t heq => ?_
    rw [heq] at hends
    simp at hends
  | free hpos =>
    have hfreed := h.freed
    refine ⟨⟨h.refcnt, ?_⟩, h.destroyed, h.unregistered, h.calls, h.jobs⟩
    change w.freeing - 1 + (w.freed + 1) = if w.held = 0 then 1 else 0
    omega

theorem unregistered_step (hs : w.step e = some w') (hu : w.unregistered = true) :
    w'.unregistered = true := by
  cases step_cases hs with
  | leave => rfl
  | register | ref | create | queue | log | unregister | lock | terminate | unlock | destroy
  | refuse | drop | ret | run | check | lockSweep | recheck | sweepEnd | unlockSweep | requeue
  | cancel | cleanup | free => exact hu

/-- A step adds at most one reference. -/
theorem refcnt_step (hs : w.step e = some w') : w'.refcnt ≤ w.refcnt + 1 := by
  cases step_cases hs with
  | ref => exact le_rfl
  | refuse | drop | cleanup =>
    change w.refcnt - 1 ≤ w.refcnt + 1
    omega
  | register | create | queue | log | unregister | lock | terminate | unlock | destroy | leave
  | ret | run | check | lockSweep | recheck | sweepEnd | unlockSweep | requeue | cancel | free =>
    exact (lt_add_one w.refcnt).le

theorem ok_start : (start : PluginWorld T J).Ok where
  refcnt := by simp [start, held, outstanding]
  freed := by simp [start, held]
  destroyed hd := by simp [start] at hd
  unregistered hu := by simp [start] at hu
  calls hc := by simp [start] at hc
  jobs hs := by simp [start] at hs

/-- In all runs the invariant is kept. -/
theorem ok_of_run {es : List (PluginEvent T J)} (h : Run es w) : w.Ok := by
  refine h.invariant (I := Ok) ok_start ?_
  intro es w e w' hi _ hs
  exact hi.step hs

/-- So an `int` holds the count as long as fewer than `2^31 - 1` steps have been taken. -/
theorem refcnt_le_of_run {es : List (PluginEvent T J)} (h : Run es w) :
    w.refcnt ≤ es.length + 1 := by
  refine h.induction (P := fun es w => w.refcnt ≤ (es.length : ℤ) + 1) le_rfl ?_
  intro es w e w' _ hle _ hs
  have hstep := refcnt_step hs
  rw [List.length_append, List.length_singleton]
  push_cast
  omega

/-! ## The life cycle -/

/-- There is a reference for each outstanding job, and one of the plugin's own until `destroy`
has run. `plugin_destroy_internal` has run once or is about to if and only if `destroy` has run
and no job is outstanding. After an unregister call has returned no sweep is running. -/
structure LifeCycle (w : PluginWorld T J) : Prop where
  refcnt : w.destroyed = false → w.refcnt = w.outstanding.card + 1
  once : w.freeing + w.freed ≤ 1
  freed_iff : w.freeing + w.freed = 1 ↔ w.destroyed = true ∧ w.outstanding = ∅
  stopped : w.unregistered = true → ∀ j, w.jobs.get j ≠ some .sweeping

/-- The event runs code of the plugin on its data. A call that returns and
`plugin_destroy_internal` are the exceptions. -/
def Touches : PluginEvent T J → Prop
  | .call _ .ret | .free => False
  | _ => True

/-- The invariant gives the life cycle. -/
theorem Ok.lifeCycle (h : w.Ok) : w.LifeCycle where
  refcnt hd := by simp [h.refcnt, held, hd]
  once := by
    rw [h.freed]
    split_ifs <;> omega
  freed_iff := by
    rw [h.freed, ← held_eq_zero_iff]
    split_ifs with hheld <;> simp [hheld]
  stopped hu j hj := by
    have hterm := (h.jobs hj).2
    rw [h.unregistered hu] at hterm
    exact absurd hterm (by simp)

/-- While a reference is held, the plugin exists. -/
theorem Ok.alive (h : w.Ok) (hheld : 0 < w.held) : w.freeing = 0 ∧ w.freed = 0 := by
  have hfreed := h.freed
  rw [if_neg hheld.ne'] at hfreed
  omega

theorem held_pos_of_job (hj : w.jobs.get j = some s) : 0 < w.held := by
  have hcard := Finset.card_pos.2 ⟨j, Finmap.mem_keys.2 (Hashtable.mem_of_get hj)⟩
  unfold held outstanding
  omega

/-- Who runs code of the plugin holds a reference, or is a call before `destroy`. -/
theorem Ok.held_of_touches (h : w.Ok) (hs : w.step e = some w') (ht : Touches e) :
    0 < w.held := by
  cases step_cases hs with
  | register _ hby | unregister _ hby | destroy _ hby => exact h.held_pos hby
  | ref hc | log hc | lock hc => exact h.held_pos (h.calls hc)
  | create hc | queue hc | refuse hc | terminate hc | unlock hc => exact h.held_pos (h.calls hc).1
  | drop hc => simp [held, (h.calls hc).2]
  | leave | ret | free => exact ht.elim
  | run hj | check hj | lockSweep hj | recheck hj | sweepEnd hj | unlockSweep hj | requeue hj
  | cancel hj | cleanup hj => exact held_pos_of_job hj

end PluginWorld

/-- Whatever register and unregister calls, jobs and `destroy` do, and in any order, the count of
references is exact and fits an `int` for long, the plugin is destroyed once, when `destroy` has run
and the last job is cleaned up, nothing runs on it then, and no sweep begins once an unregister call
has returned. -/
theorem plugin_life_cycle {T J : Type} [DecidableEq T] [DecidableEq J]
    {es : List (PluginEvent T J)} {w : PluginWorld T J} (h : PluginWorld.Run es w) :
    w.LifeCycle ∧ w.refcnt ≤ es.length + 1 ∧ ∀ e w', w.step e = some w' →
      (PluginWorld.Touches e → w.freeing = 0 ∧ w.freed = 0) ∧
      (e = .free → w.freed = 0 ∧ w.destroyed = true ∧ w.outstanding = ∅) ∧
      (w.unregistered = true → ∀ j, w'.jobs.get j ≠ some .sweeping) := by
  have hw := PluginWorld.ok_of_run h
  refine ⟨hw.lifeCycle, PluginWorld.refcnt_le_of_run h,
    fun e w' hs => ⟨fun ht => hw.alive (hw.held_of_touches hs ht), ?_, ?_⟩⟩
  · rintro rfl
    cases PluginWorld.step_cases hs with
    | free hpos =>
      have honce := hw.lifeCycle.once
      have hone : w.freeing + w.freed = 1 := by omega
      exact ⟨by omega, hw.lifeCycle.freed_iff.1 hone⟩
  · intro hu
    exact (hw.step hs).lifeCycle.stopped (PluginWorld.unregistered_step hs hu)

/-- A job is queued and runs once, the plugin is unregistered while the job waits to be run
again, `destroy` is called, and the job is cleaned up. -/
def loadAndUnload : List (PluginEvent Unit Unit) :=
  [.call () .register, .call () (.ref ()), .call () (.create true), .call () .queue,
    .job () .run, .job () .check, .job () .lock, .job () .recheck, .call () .log, .call () .ret,
    .job () .sweepEnd, .job () .unlock, .job () .requeue, .call () .unregister, .call () .lock,
    .call () .terminate, .call () .unlock, .call () .ret, .call () .destroy, .call () .unref,
    .job () .run, .job () .check, .job () .cleanup]

theorem plugin_life_cycle_of_load : ∃ w : PluginWorld Unit Unit, w.LifeCycle ∧
    w.unregistered = true ∧ w.freeing = 1 := by
  obtain ⟨w, hrun, hfacts⟩ := Run.exists_of_exec (by decide :
    (exec PluginWorld.step (fun _ _ _ => True) [] PluginWorld.start loadAndUnload).map
      (fun w => (w.unregistered, w.freeing)) = some (true, 1))
  obtain ⟨hunregistered, hfreeing⟩ := Prod.mk.inj hfacts
  exact ⟨w, (plugin_life_cycle hrun).1, hunregistered, hfreeing⟩

end Cupp
