import Cupp.Plugin

/-!
# Unloading ends

Once `destroy` is called there are no new calls, so all that is left are the jobs, and the thread
in `destroy` itself. If `terminating` is set, each step brings a job nearer to its cleanup
(`left`), and no job waits for `sweep_lock` forever, since whoever has it can go on. So the last
reference is dropped, and the plugin is freed. If nothing has set `terminating`, a job that is
left is queued again and again (`unload_ends`).
-/

set_option linter.unusedSectionVars false

open Transition

namespace Cupp

namespace Hashtable

variable {K V : Type*} [DecidableEq K] {t : Hashtable K V} {k : K} {v : V} {f : V → ℕ}

/-- The sum of `f` over the values of the table. -/
def weight (f : V → ℕ) (t : Hashtable K V) : ℕ :=
  (t.entries.map fun e => f e.2).sum

theorem weight_erase (h : t.get k = some v) : weight f (t.erase k) + f v = weight f t := by
  unfold weight
  rw [entries_of_get h, Multiset.map_cons, Multiset.sum_cons, add_comm]

theorem weight_insert (h : t.get k = some v) (v' : V) :
    weight f (t.insert k v') + f v = weight f t + f v' := by
  have herase : weight f (t.erase k) + f v = weight f t := weight_erase h
  unfold weight at herase ⊢
  rw [entries_insert, Multiset.map_cons, Multiset.sum_cons]
  dsimp only
  omega

end Hashtable

variable {T J : Type}

/-- The steps from here to the cleanup, if `terminating` is set. -/
def SweepJob.left : SweepJob T → ℕ
  | creating _ => 0
  | queued => 8
  | entered => 7
  | waiting => 6
  | locked => 5
  | sweeping => 4
  | swept => 3
  | unlocked => 2
  | finished => 1

/-- The job holds the lock of the sweeps. -/
def SweepJob.hasLock : SweepJob T → Bool
  | locked | sweeping | swept => true
  | creating _ | queued | entered | waiting | unlocked | finished => false

/-- The steps from here to the return of `destroy`. -/
def PluginCall.left : PluginCall J → ℕ
  | destroying => 2
  | returning => 1
  | registering | referenced _ | refused _ | created _ | registered | unregistering | holding
  | terminated | unregistered => 0

/-- The call holds the lock of the sweeps. -/
def PluginCall.hasLock : PluginCall J → Bool
  | holding | terminated => true
  | registering | referenced _ | refused _ | created _ | registered | unregistering | unregistered
  | destroying | returning => false

/-- The job that the call is about to queue. -/
def PluginCall.job : PluginCall J → Option J
  | referenced j | refused j | created j => some j
  | registering | registered | unregistering | holding | terminated | unregistered | destroying
  | returning => none

namespace PluginWorld

variable [DecidableEq T] [DecidableEq J] {w w' : PluginWorld T J} {e : PluginEvent T J} {t : T}
  {j : J} {c : PluginCall J} {s s' : SweepJob T}

/-- A step that does something. `sweep_cancel` only reads `terminating`. -/
def Moves : PluginEvent T J → Prop
  | .job _ .cancel => False
  | _ => True

/-- Some thread or job can take a step that does something. -/
def GoesOn (w w' : PluginWorld T J) : Prop :=
  ∃ e, Moves e ∧ w.step e = some w'

/-! ## Who has what -/

/-- Who has the lock is at a place with it, a job that is being created has a call that creates it,
a job is finished only if `terminating` is set, and until `destroy` has dropped its reference it is
about to do so. -/
structure Placed (w : PluginWorld T J) : Prop where
  lockCall : ∀ t, w.sweepLock = some (.inl t) → (w.calls.get t).any PluginCall.hasLock = true
  lockJob : ∀ j, w.sweepLock = some (.inr j) → (w.jobs.get j).any SweepJob.hasLock = true
  creating : ∀ j t, w.jobs.get j = some (.creating t) →
    (w.calls.get t).bind PluginCall.job = some j
  finished : ∀ j, w.jobs.get j = some .finished → w.terminating = true
  destroying : ∀ t, w.destroyedBy = some t → w.destroyed = false →
    w.calls.get t = some .destroying

theorem placed_start : (start : PluginWorld T J).Placed :=
  ⟨by simp [start], by simp [start], by simp [start], by simp [start], by simp [start]⟩

/-- A call goes on. -/
theorem Placed.setCall (h : w.Placed) (hlock : w.sweepLock = some (.inl t) → c.hasLock = true)
    (hjob : ∀ j, w.jobs.get j = some (.creating t) → c.job = some j)
    (hdestroy : w.destroyedBy = some t → w.destroyed = false → c = .destroying) :
    (w.setCall t c).Placed := by
  have hget (t' : T) :
      (w.setCall t c).calls.get t' = if t' = t then some c else w.calls.get t' := by
    simp [PluginWorld.setCall, Function.update_apply]
  refine ⟨fun t' ht' => ?_, h.lockJob, fun j t' hj => ?_, h.finished, fun t' ht' hd => ?_⟩
  · rw [hget]
    split_ifs with heq
    · exact hlock (heq ▸ ht')
    · exact h.lockCall t' ht'
  · rw [hget]
    split_ifs with heq
    · exact hjob j (heq ▸ hj)
    · exact h.creating j t' hj
  · rw [hget]
    split_ifs with heq
    · exact congrArg some (hdestroy (heq ▸ ht') hd)
    · exact h.destroying t' ht' hd

/-- A job of the processor goes on. -/
theorem Placed.setJob (h : w.Placed) (hlock : w.sweepLock = some (.inr j) → s.hasLock = true)
    (hcreating : ∀ t, s ≠ .creating t) (hfinished : s = .finished → w.terminating = true) :
    (w.setJob j s).Placed := by
  have hget (j' : J) : (w.setJob j s).jobs.get j' = if j' = j then some s else w.jobs.get j' := by
    simp [PluginWorld.setJob, Function.update_apply]
  refine ⟨h.lockCall, fun j' hj' => ?_, fun j' t hj => ?_, fun j' hj' => ?_, h.destroying⟩
  · rw [hget]
    split_ifs with heq
    · exact hlock (heq ▸ hj')
    · exact h.lockJob j' hj'
  · rw [hget] at hj
    split_ifs at hj with heq
    · exact absurd (Option.some.inj hj) (hcreating t)
    · exact h.creating j' t hj
  · rw [hget] at hj'
    split_ifs at hj' with heq
    · exact hfinished (Option.some.inj hj')
    · exact h.finished j' hj'

theorem Placed.endCall (h : w.Placed) (hc : w.calls.get t = some c) (hlock : c.hasLock = false)
    (hjob : c.job = none) (hne : c ≠ .destroying) : (w.endCall t).Placed := by
  have hget (t' : T) : (w.endCall t).calls.get t' = if t' = t then none else w.calls.get t' := by
    simp [PluginWorld.endCall, Function.update_apply]
  refine ⟨fun t' ht' => ?_, h.lockJob, fun j t' hj => ?_, h.finished, fun t' ht' hd => ?_⟩
  · have hold := h.lockCall t' ht'
    rw [hget]
    split_ifs with heq
    · simp [heq, hc, hlock] at hold
    · exact hold
  · have hold := h.creating j t' hj
    rw [hget]
    split_ifs with heq
    · simp [heq, hc, hjob] at hold
    · exact hold
  · have hold := h.destroying t' ht' hd
    rw [hget]
    split_ifs with heq
    · simp [heq, hc, hne] at hold
    · exact hold

theorem Placed.endJob (h : w.Placed) (hj : w.jobs.get j = some s) (hlock : s.hasLock = false) :
    (w.endJob j).Placed := by
  have hget (j' : J) : (w.endJob j).jobs.get j' = if j' = j then none else w.jobs.get j' := by
    simp [PluginWorld.endJob, Function.update_apply]
  refine ⟨h.lockCall, fun j' hj' => ?_, fun j' t ht => ?_, fun j' hj' => ?_, h.destroying⟩
  · have hold := h.lockJob j' hj'
    rw [hget]
    split_ifs with heq
    · simp [heq, hj, hlock] at hold
    · exact hold
  · rw [hget] at ht
    split_ifs at ht
    exact h.creating j' t ht
  · rw [hget] at hj'
    split_ifs at hj'
    exact h.finished j' hj'

theorem Placed.unref (h : w.Placed) : w.pluginUnref.Placed :=
  ⟨h.lockCall, h.lockJob, h.creating, h.finished, h.destroying⟩

theorem Placed.unlock (h : w.Placed) : Placed { w with sweepLock := none } :=
  ⟨by simp, by simp, h.creating, h.finished, h.destroying⟩

/-- A call that keeps the lock and its job, if it has them. -/
theorem Placed.next {c' : Option (PluginCall J)} (h : w.Placed) (hc : w.calls.get t = c')
    (hlock : c'.any PluginCall.hasLock = true → c.hasLock = true)
    (hjob : ∀ j, c'.bind PluginCall.job = some j → c.job = some j)
    (hne : c' ≠ some .destroying) : (w.setCall t c).Placed := by
  subst hc
  exact h.setCall (fun hl => hlock (h.lockCall t hl)) (fun j hj => hjob j (h.creating j t hj))
    fun hby hd => absurd (h.destroying t hby hd) hne

/-- A job that keeps the lock, if it has it. -/
theorem Placed.nextJob (h : w.Placed) (hj : w.jobs.get j = some s')
    (hlock : s'.hasLock = true → s.hasLock = true) (hcreating : ∀ t, s ≠ .creating t)
    (hfinished : s = .finished → w.terminating = true) : (w.setJob j s).Placed :=
  h.setJob (fun hl => hlock (by simpa [hj] using h.lockJob j hl)) hcreating hfinished

theorem Placed.ref (h : w.Placed) (hc : w.calls.get t = some .registering) (hj : j ∉ w.jobs) :
    ((w.pluginRef.setJob j (.creating t)).setCall t (.referenced j)).Placed := by
  have hnone : w.jobs.get j = none := Finmap.lookup_eq_none.2 hj
  have hcall (t' : T) : ((w.pluginRef.setJob j (.creating t)).setCall t (.referenced j)).calls.get
      t' = if t' = t then some (.referenced j) else w.calls.get t' := by
    simp [PluginWorld.setCall, PluginWorld.setJob, pluginRef, Function.update_apply]
  have hjob (j' : J) : ((w.pluginRef.setJob j (.creating t)).setCall t (.referenced j)).jobs.get
      j' = if j' = j then some (.creating t) else w.jobs.get j' := by
    simp [PluginWorld.setCall, PluginWorld.setJob, pluginRef, Function.update_apply]
  refine ⟨fun t' ht' => ?_, fun j' hj' => ?_, fun j' t' ht' => ?_, fun j' hj' => ?_,
    fun t' ht' hd => ?_⟩
  · have hold := h.lockCall t' ht'
    rw [hcall]
    split_ifs with heq
    · simp [heq, hc, PluginCall.hasLock] at hold
    · exact hold
  · have hold := h.lockJob j' hj'
    rw [hjob]
    split_ifs with heq
    · simp [heq, hnone] at hold
    · exact hold
  · rw [hjob] at ht'
    rw [hcall]
    split_ifs at ht' with heq
    · obtain rfl : t = t' := by simpa using ht'
      simp [heq, PluginCall.job]
    · have hold := h.creating j' t' ht'
      split_ifs with heq'
      · simp [heq', hc, PluginCall.job] at hold
      · exact hold
  · rw [hjob] at hj'
    split_ifs at hj'
    · simp at hj'
    · exact h.finished j' hj'
  · have hold := h.destroying t' ht' hd
    rw [hcall]
    split_ifs with heq
    · simp [heq, hc] at hold
    · exact hold

/-- The call has created its job, or has given up, and the job is the processor's or gone. -/
theorem Placed.created {w₁ : PluginWorld T J} (h : w₁.Placed) (hc : w₁.calls.get t = some c)
    (hlock : c.hasLock = false) (hjob : c.job = some j) (hj : w₁.jobs.get j ≠ some (.creating t)) :
    (w₁.setCall t .registered).Placed := by
  refine h.setCall (fun hl => ?_) (fun j' hj' => ?_) fun hby hd => ?_
  · have hold := h.lockCall t hl
    simp [hc, hlock] at hold
  · have hold := h.creating j' t hj'
    obtain rfl : j = j' := by simpa [hc, hjob] using hold
    exact absurd hj' hj
  · have hold := h.destroying t hby hd
    obtain rfl : c = .destroying := by simpa [hc] using hold
    simp [PluginCall.job] at hjob

/-- A step keeps everyone placed. -/
theorem Placed.step (h : w.Placed) (hok : w.Ok) (hs : w.step e = some w') : w'.Placed := by
  cases step_cases hs with
  | register hnone | unregister hnone => exact h.next hnone (by simp) (by simp) (by simp)
  | ref hc hj => exact h.ref hc hj
  | @create t j ok hc =>
    refine h.next hc (by simp [PluginCall.hasLock]) (fun j' hj' => ?_) (by simp)
    cases ok <;> simpa [PluginCall.job] using hj'
  | @queue t j hc =>
    have hj := (hok.calls hc).2
    have hjob := h.nextJob (s := .queued) hj (by simp [SweepJob.hasLock]) (by simp) (by simp)
    refine hjob.created (c := .created j) (j := j) hc rfl rfl ?_
    simp [PluginWorld.setJob]
  | @refuse t j hc =>
    have hj := (hok.calls hc).2
    refine (h.unref.endJob hj rfl).created (c := .refused j) (j := j) hc rfl rfl ?_
    simp [PluginWorld.endJob]
  | log hc => exact h.next hc (by simp [PluginCall.hasLock]) (by simp [PluginCall.job]) (by simp)
  | @lock t hc =>
    have hnext : (w.setCall t .holding).Placed :=
      h.next hc (fun _ => rfl) (by simp [PluginCall.job]) (by simp)
    refine ⟨fun t' ht' => ?_, by simp, hnext.creating, hnext.finished, hnext.destroying⟩
    obtain rfl : t = t' := by simpa using ht'
    simp [PluginWorld.setCall, PluginCall.hasLock]
  | @terminate t hc =>
    have hnext : (w.setCall t .terminated).Placed :=
      h.next hc (fun _ => rfl) (by simp [PluginCall.job]) (by simp)
    exact ⟨hnext.lockCall, hnext.lockJob, hnext.creating, fun _ _ => rfl, hnext.destroying⟩
  | @unlock t hc =>
    refine h.unlock.setCall (by simp) (fun j hj => ?_) fun hby hd => ?_
    · have hold := h.creating j t hj
      simp [hc, PluginCall.job] at hold
    · have hold := h.destroying t hby hd
      simp [hc] at hold
  | @destroy t hcalls hby =>
    refine ⟨fun t' ht' => ?_, h.lockJob, fun j t' hj => ?_, h.finished, fun t' ht' _ => ?_⟩
    · have hold := h.lockCall t' ht'
      simp [hcalls] at hold
    · have hold := h.creating j t' hj
      simp [hcalls] at hold
    · obtain rfl : t = t' := by simpa using ht'
      simp [PluginWorld.setCall]
  | @drop t hc =>
    have hgone : Placed { w.pluginUnref with destroyed := true } :=
      ⟨h.lockCall, h.lockJob, h.creating, h.finished, by simp⟩
    refine hgone.setCall (fun hl => ?_) (fun j hj => ?_) (by simp)
    · have hold := h.lockCall t hl
      simp [hc, PluginCall.hasLock] at hold
    · have hold := h.creating j t hj
      simp [hc, PluginCall.job] at hold
  | leave hc =>
    have hend := h.endCall hc rfl rfl (by simp)
    exact ⟨hend.lockCall, hend.lockJob, hend.creating, hend.finished, hend.destroying⟩
  | ret hc => exact h.endCall hc rfl rfl (by simp)
  | run hj => exact h.nextJob hj (by simp [SweepJob.hasLock]) (by simp) (by simp)
  | check hj =>
    refine h.nextJob hj (by simp [SweepJob.hasLock]) (fun t => ?_) fun heq => ?_
    · split_ifs <;> simp
    · by_contra hterm
      simp [hterm] at heq
  | @lockSweep j hj =>
    have hnext : (w.setJob j .locked).Placed :=
      h.nextJob hj (by simp [SweepJob.hasLock]) (by simp) (by simp)
    refine ⟨by simp, fun j' hj' => ?_, hnext.creating, hnext.finished, hnext.destroying⟩
    obtain rfl : j = j' := by simpa using hj'
    simp [PluginWorld.setJob, SweepJob.hasLock]
  | recheck hj =>
    refine h.nextJob hj (fun _ => ?_) (fun t => ?_) fun heq => ?_
    · split_ifs <;> rfl
    · split_ifs <;> simp
    · split_ifs at heq
  | sweepEnd hj => exact h.nextJob hj (fun _ => rfl) (by simp) (by simp)
  | unlockSweep hj => exact h.unlock.setJob (by simp) (by simp) (by simp)
  | requeue hj =>
    refine h.nextJob hj (by simp [SweepJob.hasLock]) (fun t => ?_) fun heq => ?_
    · split_ifs <;> simp
    · by_contra hterm
      simp [hterm] at heq
  | cancel => exact h
  | cleanup hj hends => exact h.unref.endJob hj (by rcases hends with rfl | rfl <;> rfl)
  | free => exact ⟨h.lockCall, h.lockJob, h.creating, h.finished, h.destroying⟩

theorem placed_of_run {es : List (PluginEvent T J)} (h : Run es w) : w.Placed :=
  h.induction (P := fun _ w => w.Placed) placed_start
    fun _ _ _ _ hrun hi _ hs => hi.step (ok_of_run hrun) hs

/-! ## Nearer to the end -/

theorem destroyedBy_step (hs : w.step e = some w') (hby : w.destroyedBy ≠ none) :
    w'.destroyedBy ≠ none := by
  cases step_cases hs with
  | destroy => exact Option.some_ne_none _
  | register | ref | create | queue | log | unregister | lock | terminate | unlock | refuse | drop
  | leave | ret | run | check | lockSweep | recheck | sweepEnd | unlockSweep | requeue | cancel
  | cleanup | free => exact hby

theorem terminating_step (hs : w.step e = some w') (hterm : w.terminating = true) :
    w'.terminating = true := by
  cases step_cases hs with
  | terminate => rfl
  | register | ref | create | queue | log | unregister | lock | unlock | destroy | refuse | drop
  | leave | ret | run | check | lockSweep | recheck | sweepEnd | unlockSweep | requeue | cancel
  | cleanup | free => exact hterm

/-- Jobs are cleaned up, or there are none. -/
def Closing (w : PluginWorld T J) : Prop :=
  w.terminating = true ∨ w.outstanding = ∅

theorem outstanding_ne (hj : w.jobs.get j = some s) : w.outstanding ≠ ∅ :=
  Finset.ne_empty_of_mem (Finmap.mem_keys.2 (Hashtable.mem_of_get hj))

theorem Closing.terminating (h : w.Closing) (hj : w.jobs.get j = some s) : w.terminating = true :=
  h.resolve_right (outstanding_ne hj)

/-- Once `destroy` is called, jobs that are cleaned up or gone stay so. -/
theorem Closing.step (h : w.Closing) (hok : w.Ok) (hby : w.destroyedBy ≠ none)
    (hs : w.step e = some w') : w'.Closing := by
  rcases h with hterm | hjobs
  · exact Or.inl (terminating_step hs hterm)
  · refine Or.inr ?_
    cases step_cases hs with
    | ref hc => exact absurd (hok.calls hc) hby
    | queue hc | refuse hc => exact absurd (hok.calls hc).1 hby
    | run hj | check hj | lockSweep hj | recheck hj | sweepEnd hj | unlockSweep hj | requeue hj
    | cleanup hj => exact absurd hjobs (outstanding_ne hj)
    | register | create | log | unregister | lock | terminate | unlock | destroy | drop | leave
    | ret | cancel | free => exact hjobs

/-- The last reference may make a thread free the plugin, which is one step more. -/
def left (w : PluginWorld T J) : ℕ :=
  2 * w.jobs.weight SweepJob.left + 2 * w.calls.weight PluginCall.left + w.freeing

/-- Dropping a reference frees the plugin at most once. -/
theorem freeing_pluginUnref : w.pluginUnref.freeing ≤ w.freeing + 1 := by
  unfold pluginUnref
  dsimp only
  split_ifs <;> omega

/-- A job that moves on leaves less to do. -/
theorem left_setJob {l : Option (T ⊕ J)} (hj : w.jobs.get j = some s) (hlt : s'.left < s.left) :
    left { w.setJob j s' with sweepLock := l } < w.left := by
  have hweight := Hashtable.weight_insert (f := SweepJob.left) hj s'
  unfold left PluginWorld.setJob
  dsimp only
  omega

/-- After `destroy`, every step that does something leaves less to do. -/
theorem left_step (hok : w.Ok) (hby : w.destroyedBy ≠ none) (hclosing : w.Closing)
    (hs : w.step e = some w') (he : Moves e) : w'.left < w.left := by
  cases step_cases hs with
  | register _ hnone | unregister _ hnone | destroy _ hnone => exact absurd hnone hby
  | ref hc | log hc | lock hc => exact absurd (hok.calls hc) hby
  | create hc | queue hc | refuse hc | terminate hc | unlock hc | leave hc =>
    exact absurd (hok.calls hc).1 hby
  | drop hc =>
    have hweight := Hashtable.weight_insert (f := PluginCall.left) hc .returning
    have hfreeing := w.freeing_pluginUnref
    unfold left PluginWorld.setCall
    simp only [PluginCall.left] at hweight
    change 2 * w.jobs.weight SweepJob.left +
      2 * Hashtable.weight PluginCall.left (w.calls.insert _ .returning) +
      w.pluginUnref.freeing < _
    omega
  | ret hc =>
    have hweight := Hashtable.weight_erase (f := PluginCall.left) hc
    unfold left PluginWorld.endCall
    simp only [PluginCall.left] at hweight
    dsimp only
    omega
  | run hj => exact left_setJob hj (by simp [SweepJob.left])
  | check hj => exact left_setJob hj (by simp [SweepJob.left, hclosing.terminating hj])
  | lockSweep hj => exact left_setJob hj (by simp [SweepJob.left])
  | recheck hj => exact left_setJob hj (by simp [SweepJob.left, hclosing.terminating hj])
  | sweepEnd hj => exact left_setJob hj (by simp [SweepJob.left])
  | unlockSweep hj => exact left_setJob hj (by simp [SweepJob.left])
  | requeue hj => exact left_setJob hj (by simp [SweepJob.left, hclosing.terminating hj])
  | cancel => exact he.elim
  | @cleanup j s hj hends =>
    have hweight := Hashtable.weight_erase (f := SweepJob.left) hj
    have hpos : 1 ≤ s.left := by
      rcases hends with rfl | rfl <;> simp [SweepJob.left]
    have hfreeing := w.freeing_pluginUnref
    change 2 * Hashtable.weight SweepJob.left (w.jobs.erase _) +
      2 * w.calls.weight PluginCall.left + w.pluginUnref.freeing < w.left
    unfold left
    omega
  | free hpos =>
    unfold left
    dsimp only
    omega

/-! ## Some job can go on -/

/-- A job that is not cleaned up is still there after a step. -/
theorem outstanding_step {e : JobEvent} (hs : w.step (.job j e) = some w') :
    w'.terminating = w.terminating ∧ (e ≠ .cleanup → w'.outstanding ≠ ∅) := by
  cases step_cases hs with
  | run | check | lockSweep | recheck | sweepEnd | unlockSweep | requeue =>
    exact ⟨rfl, fun _ => by simp [outstanding, PluginWorld.setJob]⟩
  | cancel hj => exact ⟨rfl, fun _ => outstanding_ne hj⟩
  | cleanup => exact ⟨rfl, fun hne => absurd rfl hne⟩

/-- A job can go on, and not to its cleanup unless `terminating` is set. -/
def JobGoesOn (w : PluginWorld T J) : Prop :=
  ∃ j e, Moves (.job j e : PluginEvent T J) ∧ (w.step (.job j e)).isSome = true ∧
    (e = .cleanup → w.terminating = true)

/-- Who has the lock goes on. -/
theorem jobGoesOn_of_lock (hj : w.jobs.get j = some s) (hlock : s.hasLock = true) :
    w.JobGoesOn := by
  cases s with
  | locked => exact ⟨j, .recheck, trivial, by simp [step, stepJob, hj], by simp⟩
  | sweeping => exact ⟨j, .sweepEnd, trivial, by simp [step, stepJob, hj], by simp⟩
  | swept => exact ⟨j, .unlock, trivial, by simp [step, stepJob, hj], by simp⟩
  | creating | queued | entered | waiting | unlocked | finished => simp [SweepJob.hasLock] at hlock

/-- Once `destroy` is called, some job can go on if there is one. -/
theorem jobGoesOn (hok : w.Ok) (hplaced : w.Placed) (hby : w.destroyedBy ≠ none)
    (hjobs : w.outstanding ≠ ∅) : w.JobGoesOn := by
  obtain ⟨j, hj⟩ := Finset.nonempty_iff_ne_empty.2 hjobs
  obtain ⟨s, hj⟩ : ∃ s, w.jobs.get j = some s :=
    Option.isSome_iff_exists.1 (Finmap.lookup_isSome.2 (Finmap.mem_keys.1 hj))
  -- the calls that are left have neither the lock nor a job
  have hcalls {t : T} {c : PluginCall J} (hc : w.calls.get t = some c) :
      c.hasLock = false ∧ c.job = none := by
    have hfits := hok.calls hc
    cases c with
    | registering | registered | unregistering => exact absurd hfits hby
    | referenced | refused | created | holding | terminated | unregistered =>
      exact absurd hfits.1 hby
    | destroying | returning => exact ⟨rfl, rfl⟩
  cases s with
  | creating t =>
    obtain ⟨c, hc, hjob⟩ := Option.bind_eq_some_iff.1 (hplaced.creating j t hj)
    simp [(hcalls hc).2] at hjob
  | queued => exact ⟨j, .run, trivial, by simp [step, stepJob, hj], by simp⟩
  | entered => exact ⟨j, .check, trivial, by simp [step, stepJob, hj], by simp⟩
  | unlocked => exact ⟨j, .requeue, trivial, by simp [step, stepJob, hj], by simp⟩
  | locked | sweeping | swept => exact jobGoesOn_of_lock hj rfl
  | finished =>
    exact ⟨j, .cleanup, trivial, by simp [step, stepJob, hj], fun _ => hplaced.finished j hj⟩
  | waiting =>
    cases hl : w.sweepLock with
    | none => exact ⟨j, .lock, trivial, by simp [step, stepJob, hj, hl], by simp⟩
    | some x =>
      cases x with
      | inl t =>
        obtain ⟨c, hc, hlock⟩ := (Option.any_eq_true ..).1 (hplaced.lockCall t hl)
        simp [(hcalls hc).1] at hlock
      | inr j' =>
        obtain ⟨s', hj', hlock⟩ := (Option.any_eq_true ..).1 (hplaced.lockJob j' hl)
        exact jobGoesOn_of_lock hj' hlock

theorem goesOn_of_isSome (he : Moves e) (h : (w.step e).isSome = true) : ∃ w', w.GoesOn w' := by
  obtain ⟨w', hs⟩ := Option.isSome_iff_exists.1 h
  exact ⟨w', e, he, hs⟩

/-- If nothing can go on, the plugin has been freed. -/
theorem freed_of_stuck (hok : w.Ok) (hplaced : w.Placed) (hby : w.destroyedBy ≠ none)
    (hstuck : ∀ w', ¬w.GoesOn w') : w.freed = 1 := by
  have hnot (e : PluginEvent T J) (he : Moves e) : (w.step e).isSome ≠ true := fun h => by
    obtain ⟨w', hs⟩ := goesOn_of_isSome he h
    exact hstuck w' hs
  have hjobs : w.outstanding = ∅ := by
    by_contra hne
    obtain ⟨j, e, he, hs, -⟩ := jobGoesOn hok hplaced hby hne
    exact hnot _ he hs
  have hdestroyed : w.destroyed = true := by
    by_contra hne
    obtain ⟨t, ht⟩ := Option.ne_none_iff_exists'.1 hby
    have hc := hplaced.destroying t ht (by simpa using hne)
    exact hnot (.call t .unref) trivial (by simp [step, stepCall, hc])
  have hfreeing : w.freeing = 0 := by
    by_contra hne
    exact hnot .free trivial (by simp [step, Nat.pos_of_ne_zero hne])
  have hone := hok.lifeCycle.freed_iff.2 ⟨hdestroyed, hjobs⟩
  omega

end PluginWorld

/-- Once `destroy` is called, the plugin is freed in the end, if `terminating` is set or no job is
left. Otherwise its jobs may run forever. -/
theorem unload_ends {T J : Type} [DecidableEq T] [DecidableEq J] {es : List (PluginEvent T J)}
    {w : PluginWorld T J} (h : PluginWorld.Run es w) (hby : w.destroyedBy ≠ none) :
    (Forever PluginWorld.GoesOn w ↔ w.terminating = false ∧ w.outstanding ≠ ∅) ∧
    ((∀ w', ¬w.GoesOn w') → w.freed = 1) := by
  have hok := PluginWorld.ok_of_run h
  have hplaced := PluginWorld.placed_of_run h
  refine ⟨⟨fun hforever => ?_, fun ⟨hterm, hjobs⟩ => ?_⟩,
    PluginWorld.freed_of_stuck hok hplaced hby⟩
  · rw [← Bool.not_eq_true, ← not_or]
    intro hclosing
    refine not_forever (I := fun w => w.Ok ∧ w.destroyedBy ≠ none ∧ w.Closing)
      (measure PluginWorld.left).wf ?_ ⟨hok, hby, hclosing⟩ hforever
    rintro w w' ⟨hok, hby, hclosing⟩ ⟨e, he, hs⟩
    exact ⟨⟨hok.step hs, PluginWorld.destroyedBy_step hs hby, hclosing.step hok hby hs⟩,
      PluginWorld.left_step hok hby hclosing hs he⟩
  · refine forever_of_keeps (I := fun w => w.Ok ∧ w.Placed ∧ w.destroyedBy ≠ none ∧
      w.terminating = false ∧ w.outstanding ≠ ∅) ?_ ⟨hok, hplaced, hby, hterm, hjobs⟩
    rintro w ⟨hok, hplaced, hby, hterm, hjobs⟩
    obtain ⟨j, e, he, hsome, hcleanup⟩ := PluginWorld.jobGoesOn hok hplaced hby hjobs
    obtain ⟨w', hs⟩ := Option.isSome_iff_exists.1 hsome
    obtain ⟨hterm', hjobs'⟩ := PluginWorld.outstanding_step hs
    refine ⟨w', ⟨_, he, hs⟩, hok.step hs, hplaced.step hok hs, PluginWorld.destroyedBy_step hs hby,
      hterm'.trans hterm, hjobs' fun heq => ?_⟩
    simp [hcleanup heq] at hterm

/-- Two plugins are destroyed while their job is queued. The first one has been unregistered. -/
theorem unload_ends_of_load : ∃ w w' : PluginWorld Unit Unit,
    PluginWorld.Run (loadAndUnload.take 20) w ∧ w.outstanding = {()} ∧
    ¬Forever PluginWorld.GoesOn w ∧
    PluginWorld.Run (loadAndUnload.take 13 ++ [.call () .destroy, .call () .unref]) w' ∧
    Forever PluginWorld.GoesOn w' := by
  obtain ⟨w, hrun, hfacts⟩ := Run.exists_of_exec (by decide :
    (exec PluginWorld.step (fun _ _ _ => True) [] PluginWorld.start (loadAndUnload.take 20)).map
      (fun w => (w.terminating, w.outstanding, w.destroyedBy)) = some (true, {()}, some ()))
  obtain ⟨w', hrun', hfacts'⟩ := Run.exists_of_exec (by decide :
    (exec PluginWorld.step (fun _ _ _ => True) [] PluginWorld.start (loadAndUnload.take 13 ++
      [.call () .destroy, .call () .unref])).map
      (fun w => (w.terminating, w.outstanding, w.destroyedBy)) = some (false, {()}, some ()))
  simp only [Prod.mk.injEq] at hfacts hfacts'
  obtain ⟨hterm, hjobs, hby⟩ := hfacts
  obtain ⟨hterm', hjobs', hby'⟩ := hfacts'
  refine ⟨w, w', hrun, hjobs, fun hforever => ?_, hrun', ?_⟩
  · have hnot := ((unload_ends hrun (by simp [hby])).1.1 hforever).1
    simp [hterm] at hnot
  · exact (unload_ends hrun' (by simp [hby'])).1.2 ⟨hterm', by simp [hjobs']⟩

end Cupp
