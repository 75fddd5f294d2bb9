import Cupp.Sections

/-!
# Readers of the policy

A login reads the policy without the lock that reloads take. It loads the active snapshot,
looks its user up in it, and gets an address that still belongs to the snapshot, which it
then clones. A reload builds a snapshot and makes it the active one under `reload_lock`,
releases the lock, and destroys the snapshot it has retired. The steps of any number of
threads interleave here (`EngineEvent`), with the snapshots numbered in the order in which
they are built. The allocator's mutex would exclude some of these orders and is left out.

Nothing keeps a reload from destroying a snapshot that a reader has loaded
(`not_readers_sound`). In runs where no snapshot is destroyed under a reader, every lookup
and every clone is on a snapshot that still exists, and a step keeps it so if and only if
it destroys none either (`readers_sound`).
-/

set_option linter.unusedSectionVars false

open Transition

namespace Cupp

/-- Where a thread is, in `acquire_address` from the load of `active` to the clone, or in
`reload`. -/
inductive EngineThread
  | idle
  | loaded (k : ℕ) (user : CString)
  | borrowed (k : ℕ) (ip : Host)
  | locked
  | failed
  | built (k : ℕ)
  | swapped (old : ℕ)
  | unlocked (old : ℕ)
  deriving DecidableEq

namespace EngineThread

/-- The snapshot a reader is about to use. -/
def reading : EngineThread → Option ℕ
  | loaded k _ | borrowed k _ => some k
  | _ => none

/-- The snapshot a reload is about to destroy. -/
def retired : EngineThread → Option ℕ
  | unlocked old => some old
  | _ => none

end EngineThread

/-- `private_policy_engine_t` among threads : the snapshots built so far, the active one, those
that are destroyed, and who holds `reload_lock`. -/
structure EngineWorld (T : Type) where
  active : ℕ
  obj : ℕ → Snapshot
  next : ℕ
  destroyed : Finset ℕ
  lock : Option T
  threads : T → EngineThread

/-- One step of a thread. -/
inductive EngineEvent (T : Type)
  | load (t : T) (user : CString)
  | lookup (t : T)
  | clone (t : T)
  | lock (t : T)
  | build (t : T) (file : PolicyFile)
  | swap (t : T)
  | unlock (t : T)
  | destroy (t : T)

namespace EngineWorld

variable {T : Type} [DecidableEq T] (parse : CString → Option Host)

/-- A new engine. -/
def start (policy : PolicyEngine) : EngineWorld T where
  active := 0
  obj _ := policy.active
  next := 1
  destroyed := ∅
  lock := none
  threads _ := .idle

/-- The engine other threads see. -/
def engine (w : EngineWorld T) : PolicyEngine :=
  ⟨w.obj w.active⟩

/-- A thread comes to its next point. -/
def setThread (w : EngineWorld T) (t : T) (th : EngineThread) : EngineWorld T :=
  { w with threads := Function.update w.threads t th }

/-- One access of a reader, or a reload. -/
def step (w : EngineWorld T) : EngineEvent T → Option (EngineWorld T)
  | .load t user =>
    match w.threads t with
    | .idle => some (w.setThread t (.loaded w.active user))
    | _ => none
  | .lookup t =>
    match w.threads t with
    | .loaded k user =>
      match (w.obj k).fixed.lookup user with
      | some ip => some (w.setThread t (.borrowed k ip))
      | none => some (w.setThread t .idle)
    | _ => none
  | .clone t =>
    match w.threads t with
    | .borrowed _ _ => some (w.setThread t .idle)
    | _ => none
  | .lock t =>
    match w.threads t, w.lock with
    | .idle, none => some { w.setThread t .locked with lock := some t }
    | _, _ => none
  | .build t file =>
    match w.threads t with
    | .locked =>
      match snapshotLoad parse file with
      | none => some (w.setThread t .failed)
      | some fresh => some { w.setThread t (.built w.next) with
          obj := Function.update w.obj w.next fresh
          next := w.next + 1 }
    | _ => none
  | .swap t =>
    match w.threads t with
    | .built k => some { w.setThread t (.swapped w.active) with active := k }
    | _ => none
  | .unlock t =>
    match w.threads t with
    | .failed => some { w.setThread t .idle with lock := none }
    | .swapped old => some { w.setThread t (.unlocked old) with lock := none }
    | _ => none
  | .destroy t =>
    match w.threads t with
    | .unlocked old => some { w.setThread t .idle with destroyed := insert old w.destroyed }
    | _ => none

/-- The runs whose events meet a guard. -/
abbrev Run (guard : List (EngineEvent T) → EngineWorld T → EngineEvent T → Prop)
    (policy : PolicyEngine) : List (EngineEvent T) → EngineWorld T → Prop :=
  Transition.Run (fun w e w' => w.step parse e = some w') guard (.start policy)

variable {parse}

/-! ## What readers use -/

/-- The snapshot a lookup or a clone reads. -/
def touched (w : EngineWorld T) : EngineEvent T → Option ℕ
  | .lookup t | .clone t => (w.threads t).reading
  | _ => none

/-- A lookup or a clone is on a snapshot that is not destroyed. -/
def ReadsLive (w : EngineWorld T) (e : EngineEvent T) : Prop :=
  ∀ k ∈ w.touched e, k ∉ w.destroyed

/-- No snapshot is destroyed that a reader has loaded and is not done with. -/
def Unread (w : EngineWorld T) : EngineEvent T → Prop
  | .destroy t => ∀ old ∈ (w.threads t).retired, ∀ t', (w.threads t').reading ≠ some old
  | _ => True

instance [Fintype T] (w : EngineWorld T) : DecidablePred w.Unread
  | .destroy t => inferInstanceAs (Decidable
      (∀ old ∈ (w.threads t).retired, ∀ t', (w.threads t').reading ≠ some old))
  | .load .. | .lookup _ | .clone _ | .lock _ | .build .. | .swap _ | .unlock _ =>
    inferInstanceAs (Decidable True)

variable {w w' : EngineWorld T} {e : EngineEvent T} {t : T} {th : EngineThread}

@[simp] theorem threads_setThread (t' : T) :
    (w.setThread t th).threads t' = if t' = t then th else w.threads t' :=
  Function.update_apply _ _ _ _

/-- The ways a step can go. -/
inductive StepCase (parse : CString → Option Host) (w : EngineWorld T) :
    EngineEvent T → EngineWorld T → Prop
  | load {t : T} {user : CString} : w.threads t = .idle →
      StepCase parse w (.load t user) (w.setThread t (.loaded w.active user))
  | found {t : T} {k : ℕ} {user : CString} {ip : Host} : w.threads t = .loaded k user →
      (w.obj k).fixed.lookup user = some ip →
      StepCase parse w (.lookup t) (w.setThread t (.borrowed k ip))
  | missing {t : T} {k : ℕ} {user : CString} : w.threads t = .loaded k user →
      (w.obj k).fixed.lookup user = none → StepCase parse w (.lookup t) (w.setThread t .idle)
  | clone {t : T} {k : ℕ} {ip : Host} : w.threads t = .borrowed k ip →
      StepCase parse w (.clone t) (w.setThread t .idle)
  | lock {t : T} : w.threads t = .idle → w.lock = none →
      StepCase parse w (.lock t) { w.setThread t .locked with lock := some t }
  | failed {t : T} {file : PolicyFile} : w.threads t = .locked → snapshotLoad parse file = none →
      StepCase parse w (.build t file) (w.setThread t .failed)
  | built {t : T} {file : PolicyFile} {fresh : Snapshot} : w.threads t = .locked →
      snapshotLoad parse file = some fresh → StepCase parse w (.build t file)
        { w.setThread t (.built w.next) with
          obj := Function.update w.obj w.next fresh
          next := w.next + 1 }
  | swap {t : T} {k : ℕ} : w.threads t = .built k →
      StepCase parse w (.swap t) { w.setThread t (.swapped w.active) with active := k }
  | giveUp {t : T} : w.threads t = .failed →
      StepCase parse w (.unlock t) { w.setThread t .idle with lock := none }
  | unlock {t : T} {old : ℕ} : w.threads t = .swapped old →
      StepCase parse w (.unlock t) { w.setThread t (.unlocked old) with lock := none }
  | destroy {t : T} {old : ℕ} : w.threads t = .unlocked old → StepCase parse w (.destroy t)
      { w.setThread t .idle with destroyed := insert old w.destroyed }

/-- What an event does. -/
theorem step_cases (h : w.step parse e = some w') : StepCase parse w e w' := by
  cases e with
  | load t user =>
    simp only [step] at h
    split at h <;> cases h
    exact .load ‹_›
  | lookup t =>
    simp only [step] at h
    split at h
    · split at h <;> cases h
      · exact .found ‹_› ‹_›
      · exact .missing ‹_› ‹_›
    · cases h
  | clone t =>
    simp only [step] at h
    split at h <;> cases h
    exact .clone ‹_›
  | lock t =>
    simp only [step] at h
    split at h <;> cases h
    exact .lock ‹_› ‹_›
  | build t file =>
    simp only [step] at h
    split at h
    · split at h <;> cases h
      · exact .failed ‹_› ‹_›
      · exact .built ‹_› ‹_›
    · cases h
  | swap t =>
    simp only [step] at h
    split at h <;> cases h
    exact .swap ‹_›
  | unlock t =>
    simp only [step] at h
    split at h <;> cases h
    · exact .giveUp ‹_›
    · exact .unlock ‹_›
  | destroy t =>
    simp only [step] at h
    split at h <;> cases h
    exact .destroy ‹_›

/-! ## What runs keep -/

/-- What a thread relies on : a reader's snapshot exists, a reload has the lock until it
releases it, a fresh snapshot is newer than the active one and a retired one older. -/
def Fits (w : EngineWorld T) (t : T) : EngineThread → Prop
  | .idle => True
  | .loaded k _ | .borrowed k _ => k ∉ w.destroyed
  | .locked | .failed => w.lock = some t
  | .built k => w.lock = some t ∧ w.active < k ∧ k < w.next
  | .swapped old => w.lock = some t ∧ old < w.active
  | .unlocked old => old < w.active

/-- A thread keeps what it relies on if nobody else uses the lock it has, the active snapshot
gets no older, and its own is not destroyed. -/
theorem Fits.mono {w₁ : EngineWorld T} (h : w.Fits t th)
    (hlock : w.lock = some t → w₁.lock = some t ∧ w₁.active = w.active ∧ w.next ≤ w₁.next)
    (hactive : w.active ≤ w₁.active)
    (hread : ∀ k, th.reading = some k → k ∈ w₁.destroyed → k ∈ w.destroyed) :
    w₁.Fits t th := by
  cases th with
  | idle => trivial
  | loaded k | borrowed k => exact fun hk => h (hread k rfl hk)
  | locked | failed => exact (hlock h).1
  | built k =>
    obtain ⟨hl, ha, hn⟩ := hlock h.1
    exact ⟨hl, ha ▸ h.2.1, h.2.2.trans_le hn⟩
  | swapped old => exact ⟨(hlock h.1).1, h.2.trans_le hactive⟩
  | unlocked old => exact lt_of_lt_of_le h hactive

/-- Destroyed snapshots are older than the active one, and every thread finds what it relies
on. -/
structure Ordered (w : EngineWorld T) : Prop where
  active : w.active < w.next
  destroyed : ∀ {k}, k ∈ w.destroyed → k < w.active
  fits : ∀ t, w.Fits t (w.threads t)

/-- One thread takes a step. -/
theorem Ordered.of_update {w₁ : EngineWorld T}
    (hthreads : w₁.threads = Function.update w.threads t th) (hactive : w₁.active < w₁.next)
    (hdestroyed : ∀ {k}, k ∈ w₁.destroyed → k < w₁.active) (hself : w₁.Fits t th)
    (hother : ∀ t' ≠ t, w₁.Fits t' (w.threads t')) : w₁.Ordered := by
  refine ⟨hactive, hdestroyed, fun t' => ?_⟩
  rw [hthreads]
  rcases eq_or_ne t' t with rfl | hne
  · rwa [Function.update_self]
  · rw [Function.update_of_ne hne]
    exact hother t' hne

/-- A step that changes nothing but where the thread is. -/
theorem Ordered.setThread (h : w.Ordered) (hself : w.Fits t th) : (w.setThread t th).Ordered :=
  .of_update rfl h.active h.destroyed
    (Fits.mono hself (fun hl => ⟨hl, rfl, le_rfl⟩) le_rfl fun _ _ hk => hk)
    fun t' _ => (h.fits t').mono (fun hl => ⟨hl, rfl, le_rfl⟩) le_rfl fun _ _ hk => hk

/-- A step of the holder of the lock, or one that takes it. -/
theorem Ordered.of_locked {w₁ : EngineWorld T} (h : w.Ordered)
    (hlock : w.lock = none ∨ w.lock = some t)
    (hthreads : w₁.threads = Function.update w.threads t th)
    (hdestroyed : w₁.destroyed = w.destroyed)
    (hactive : w.active ≤ w₁.active) (hnext : w₁.active < w₁.next) (hself : w₁.Fits t th) :
    w₁.Ordered := by
  refine .of_update hthreads hnext
    (fun hk => (h.destroyed (hdestroyed ▸ hk)).trans_le hactive) hself fun t' hne => ?_
  refine (h.fits t').mono (fun hl => ?_) hactive fun k _ hk => hdestroyed ▸ hk
  rcases hlock with hnone | hsome
  · exact absurd (hl.symm.trans hnone) (by simp)
  · exact absurd (Option.some.inj (hl.symm.trans hsome)) hne

/-- An event that destroys no snapshot in use keeps them ordered. -/
theorem Ordered.step (h : w.Ordered) (hunread : w.Unread e) (hs : w.step parse e = some w') :
    w'.Ordered := by
  cases step_cases hs with
  | load => exact h.setThread fun hd => (h.destroyed hd).false
  | @found t k user ip hth =>
    have hfits := h.fits t
    rw [hth] at hfits
    exact h.setThread hfits
  | missing | clone => exact h.setThread trivial
  | @failed t file hth =>
    have hfits := h.fits t
    rw [hth] at hfits
    exact h.setThread hfits
  | lock hth hfree => exact h.of_locked (.inl hfree) rfl rfl le_rfl h.active rfl
  | @built t file fresh hth =>
    have hfits := h.fits t
    rw [hth] at hfits
    exact h.of_locked (.inr hfits) rfl rfl le_rfl (h.active.trans (Nat.lt_succ_self _))
      ⟨hfits, h.active, Nat.lt_succ_self _⟩
  | @swap t k hth =>
    have hfits := h.fits t
    rw [hth] at hfits
    obtain ⟨hlock, hactive, hnext⟩ := hfits
    exact h.of_locked (.inr hlock) rfl rfl hactive.le hnext ⟨hlock, hactive⟩
  | @giveUp t hth =>
    have hfits := h.fits t
    rw [hth] at hfits
    exact h.of_locked (.inr hfits) rfl rfl le_rfl h.active trivial
  | @unlock t old hth =>
    have hfits := h.fits t
    rw [hth] at hfits
    exact h.of_locked (.inr hfits.1) rfl rfl le_rfl h.active hfits.2
  | @destroy t old hth =>
    have hold := h.fits t
    rw [hth] at hold
    refine .of_update rfl h.active (fun hk => ?_) trivial fun t' _ => ?_
    · rcases Finset.mem_insert.1 hk with rfl | hk
      · exact hold
      · exact h.destroyed hk
    · refine (h.fits t').mono (fun hl => ⟨hl, rfl, le_rfl⟩) le_rfl fun k hread hk => ?_
      rcases Finset.mem_insert.1 hk with rfl | hk
      · exact absurd hread (hunread k (by simp [hth, EngineThread.retired]) t')
      · exact hk

/-- A snapshot a thread is about to read exists. -/
theorem Ordered.notDestroyed (h : w.Ordered) {k : ℕ} (hk : (w.threads t).reading = some k) :
    k ∉ w.destroyed := by
  have hfits := h.fits t
  cases hth : w.threads t with
  | loaded | borrowed =>
    simp only [hth, EngineThread.reading, Option.some.injEq] at hk
    simpa only [hth, Fits, hk] using hfits
  | idle | locked | failed | built | swapped | unlocked => simp [hth, EngineThread.reading] at hk

/-- As long as the threads find what they rely on, all that is read is alive. -/
theorem Ordered.readsLive (h : w.Ordered) (e : EngineEvent T) : w.ReadsLive e := by
  intro k hk
  cases e with
  | lookup t | clone t => exact h.notDestroyed hk
  | load | lock | build | swap | unlock | destroy => simp [touched] at hk

variable (parse) in
/-- A reader that has loaded a snapshot has a step to take that reads it. -/
theorem exists_touched {k : ℕ} (hk : (w.threads t).reading = some k) :
    ∃ e w', w.step parse e = some w' ∧ w.touched e = some k := by
  cases hth : w.threads t with
  | loaded k' user =>
    have hstep : ∃ w', w.step parse (.lookup t) = some w' := by
      cases hip : (w.obj k').fixed.lookup user <;> simp [EngineWorld.step, hth, hip]
    obtain ⟨w', hw'⟩ := hstep
    exact ⟨.lookup t, w', hw', hk⟩
  | borrowed k' ip => exact ⟨.clone t, w.setThread t .idle, by simp [EngineWorld.step, hth], hk⟩
  | idle | locked | failed | built | swapped | unlocked => simp [hth, EngineThread.reading] at hk

/-- A snapshot that is destroyed under a reader is one it is about to read. -/
theorem not_readsLive (hread : ¬w.Unread e) (hs : w.step parse e = some w') :
    ∃ e' w'', w'.step parse e' = some w'' ∧ ¬w'.ReadsLive e' := by
  cases step_cases hs with
  | @destroy t old hth =>
    simp only [Unread, not_forall, not_not] at hread
    obtain ⟨old', hold, t', ht'⟩ := hread
    obtain rfl : old = old' := by simpa [hth, EngineThread.retired] using hold
    have hne : t' ≠ t := by
      rintro rfl
      simp [hth, EngineThread.reading] at ht'
    have hreading : (EngineWorld.threads { w.setThread t .idle with
        destroyed := insert old w.destroyed } t').reading = some old := by
      simpa [hne] using ht'
    obtain ⟨e', w'', hs', htouched⟩ := exists_touched parse hreading
    exact ⟨e', w'', hs', fun hlive => hlive old htouched (Finset.mem_insert_self _ _)⟩
  | load | found | missing | clone | lock | failed | built | swap | giveUp | unlock =>
    exact absurd trivial hread

theorem ordered_start (policy : PolicyEngine) : (start policy : EngineWorld T).Ordered :=
  ⟨Nat.zero_lt_one, fun hk => absurd hk (Finset.notMem_empty _), fun _ => trivial⟩

/-- In all runs that destroy no snapshot in use they find it. -/
theorem ordered_of_run {policy : PolicyEngine} {es : List (EngineEvent T)}
    (h : Run parse (fun _ w e => w.Unread e) policy es w) : w.Ordered := by
  refine h.invariant (I := Ordered) (ordered_start policy) ?_
  intro es w e w' hi hg hs
  exact hi.step hg hs

/-! ## What other threads see -/

/-- A fresh snapshot has been loaded from some file. -/
def Loaded (parse : CString → Option Host) (w : EngineWorld T) : Prop :=
  ∀ t k, w.threads t = .built k → ∃ file, snapshotLoad parse file = some (w.obj k)

/-- A thread takes a step after which it has built no snapshot. -/
theorem Loaded.of_update {w₁ : EngineWorld T} (h : w.Loaded parse)
    (hthreads : w₁.threads = Function.update w.threads t th) (hobj : w₁.obj = w.obj)
    (hth : ∀ k, th ≠ .built k) : w₁.Loaded parse := by
  intro t' k hk
  rw [hthreads] at hk
  rw [hobj]
  rcases eq_or_ne t' t with rfl | hne
  · rw [Function.update_self] at hk
    exact absurd hk (hth k)
  · rw [Function.update_of_ne hne] at hk
    exact h t' k hk

/-- An event keeps it so, since no snapshot that is built is overwritten. -/
theorem Loaded.step (h : w.Loaded parse) (hord : w.Ordered) (hs : w.step parse e = some w') :
    w'.Loaded parse := by
  cases step_cases hs with
  | @built t file fresh hth hload =>
    intro t' k hk
    rcases eq_or_ne t' t with rfl | hne
    · obtain rfl : w.next = k := by simpa using hk
      exact ⟨file, by simpa using hload⟩
    · have hk' : w.threads t' = .built k := by simpa [hne] using hk
      have hfits := hord.fits t'
      rw [hk'] at hfits
      -- the snapshots built before keep their numbers
      simpa [Function.update_of_ne hfits.2.2.ne] using h t' k hk'
  | load | found | missing | clone | lock | failed | swap | giveUp | unlock | destroy =>
    exact h.of_update rfl rfl (by simp)

/-- The engine other threads see stays as it is in a step, or is reloaded. -/
theorem engine_step (h : w.Loaded parse) (hord : w.Ordered) (hs : w.step parse e = some w') :
    w'.engine = w.engine ∨ ∃ file, w'.engine = (w.engine.reload parse file).2 := by
  cases step_cases hs with
  | @swap t k hth =>
    obtain ⟨file, hload⟩ := h t k hth
    exact Or.inr ⟨file, by simp [engine, setThread, PolicyEngine.reload, hload]⟩
  | built => exact Or.inl (by simp [engine, setThread, Function.update_of_ne hord.active.ne])
  | load | found | missing | clone | lock | failed | giveUp | unlock | destroy =>
    exact Or.inl rfl

/-- Other threads see an engine whose reloads are atomic. -/
theorem exists_run_reload {policy : PolicyEngine} {es : List (EngineEvent T)}
    (h : Run parse (fun _ w e => w.Unread e) policy es w) : ∃ files,
    Transition.Run (fun engine file engine' => (engine.reload parse file).2 = engine')
      (fun _ _ _ => True) policy files w.engine := by
  have hsim : ∃ files engine, Transition.Run
      (fun engine file engine' => (PolicyEngine.reload parse engine file).2 = engine')
      (fun _ _ _ => True) policy files engine ∧
      (w.Ordered ∧ w.Loaded parse ∧ w.engine = engine) := by
    refine h.simulate (fun w engine => w.Ordered ∧ w.Loaded parse ∧ w.engine = engine)
      ⟨ordered_start policy, fun t k hk => by simp [start] at hk, rfl⟩ ?_
    rintro _ w e w' _ ⟨hord, hloaded, rfl⟩ hunread hs
    have hord' := hord.step hunread hs
    have hloaded' := hloaded.step hord hs
    rcases engine_step hloaded hord hs with heq | ⟨file, heq⟩
    · exact ⟨[], w.engine, .nil, hord', hloaded', heq⟩
    · exact ⟨[file], _, .single trivial rfl, hord', hloaded', heq⟩
  obtain ⟨files, engine, hrun, -, -, rfl⟩ := hsim
  exact ⟨files, hrun⟩

end EngineWorld

/-- In runs in which no snapshot is destroyed under a reader, every lookup and every clone is on
a snapshot that exists, and after a further step that stays so if and only if the step destroys
none under a reader either. -/
theorem readers_sound {T : Type} [DecidableEq T] {parse : CString → Option Host}
    {policy : PolicyEngine} {es : List (EngineEvent T)} {w : EngineWorld T}
    (h : EngineWorld.Run parse (fun _ w e => w.Unread e) policy es w) :
    (∀ e, w.ReadsLive e) ∧ ∀ e w', w.step parse e = some w' →
      ((∀ e' w'', w'.step parse e' = some w'' → w'.ReadsLive e') ↔ w.Unread e) := by
  have hw := EngineWorld.ordered_of_run h
  refine ⟨hw.readsLive, fun e w' hs => ⟨fun hlive => ?_, fun hunread e' _ _ => ?_⟩⟩
  · by_contra hread
    obtain ⟨e', w'', hs', hdead⟩ := EngineWorld.not_readsLive hread hs
    exact hdead (hlive e' w'' hs')
  · exact (hw.step hunread hs).readsLive e'

/-- A policy with a fixed address for `a`. -/
def policyOfA : PolicyEngine :=
  ⟨smallPolicy [(letter 'a', tenNet 9)] 1 3⟩

/-- Thread `true` reloads the policy. -/
def reloadByTrue : List (EngineEvent Bool) :=
  [.lock true, .build true (policyFile [] '1' '3'), .swap true, .unlock true]

/-- The reload has yet to destroy the snapshot that thread `false` has loaded. -/
theorem readers_sound_of_retired : ∃ w w' : EngineWorld Bool,
    w.touched (.lookup false) = some 0 ∧ w.active = 1 ∧ w.ReadsLive (.lookup false) ∧
    w.step tenNetFromString (.destroy true) = some w' ∧
    ¬∀ e' w'', w'.step tenNetFromString e' = some w'' → w'.ReadsLive e' := by
  obtain ⟨w, hrun, hfacts⟩ := Run.exists_of_exec (by decide :
    (exec (EngineWorld.step tenNetFromString) (fun _ w e => w.Unread e) [] (.start policyOfA)
      (.load false (letter 'a') :: reloadByTrue)).map (fun w => (w.touched (.lookup false),
        w.active, (w.Unread (.destroy true) : Bool),
        (w.step tenNetFromString (.destroy true)).isSome)) = some (some 0, 1, false, true))
  simp only [Prod.mk.injEq, decide_eq_false_iff_not] at hfacts
  obtain ⟨htouched, hactive, hread, hstep⟩ := hfacts
  obtain ⟨w', hw'⟩ := Option.isSome_iff_exists.1 hstep
  obtain ⟨hlive, hiff⟩ := readers_sound hrun
  exact ⟨w, w', htouched, hactive, hlive _, hw', mt (hiff _ w' hw').1 hread⟩

/-- The snapshot is destroyed before the lookup. And it is destroyed between the lookup and the
clone. -/
theorem not_readers_sound :
    (¬∀ (es : List (EngineEvent Bool)) (w w' : EngineWorld Bool) (t : Bool),
      EngineWorld.Run tenNetFromString (fun _ _ _ => True) policyOfA es w →
        w.step tenNetFromString (.lookup t) = some w' → w.ReadsLive (.lookup t)) ∧
    ¬∀ (es : List (EngineEvent Bool)) (w w' : EngineWorld Bool) (t : Bool),
      EngineWorld.Run tenNetFromString (fun _ _ _ => True) policyOfA es w →
        w.step tenNetFromString (.clone t) = some w' → w.ReadsLive (.clone t) := by
  constructor <;> intro hall
  · obtain ⟨w, hrun, hfacts⟩ := Run.exists_of_exec (by decide :
      (exec (EngineWorld.step tenNetFromString) (fun _ _ _ => True) [] (.start policyOfA)
        (.load false (letter 'a') :: reloadByTrue ++ [.destroy true])).map (fun w =>
          (w.touched (.lookup false), (0 ∈ w.destroyed : Bool),
            (w.step tenNetFromString (.lookup false)).isSome)) = some (some 0, true, true))
    simp only [Prod.mk.injEq, decide_eq_true_eq] at hfacts
    obtain ⟨htouched, hdestroyed, hstep⟩ := hfacts
    obtain ⟨w', hw'⟩ := Option.isSome_iff_exists.1 hstep
    exact hall _ w w' false hrun hw' 0 htouched hdestroyed
  · obtain ⟨w, hrun, hfacts⟩ := Run.exists_of_exec (by decide :
      (exec (EngineWorld.step tenNetFromString) (fun _ _ _ => True) [] (.start policyOfA)
        (.load false (letter 'a') :: .lookup false :: reloadByTrue ++ [.destroy true])).map
          (fun w => (w.touched (.clone false), (0 ∈ w.destroyed : Bool),
            (w.step tenNetFromString (.clone false)).isSome)) = some (some 0, true, true))
    simp only [Prod.mk.injEq, decide_eq_true_eq] at hfacts
    obtain ⟨htouched, hdestroyed, hstep⟩ := hfacts
    obtain ⟨w', hw'⟩ := Option.isSome_iff_exists.1 hstep
    exact hall _ w w' false hrun hw' 0 htouched hdestroyed

end Cupp
