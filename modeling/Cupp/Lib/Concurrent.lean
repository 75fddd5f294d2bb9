import Cupp.Lib.Runs
import Mathlib.Algebra.BigOperators.Group.Finset.Basic
import Mathlib.Data.Fintype.Basic
import Mathlib.Data.Prod.Lex
import Mathlib.Order.WellFounded

/-!
# Threads that share data and locks

Threads run the same code (`Code`). A thread is at a place, which has its local variables, and
`next` is what it does there with the shared data : one access. A place tells which locks the
thread has there, so a thread that goes to a place with a lock takes it, or waits until the lock
is free. Any number of threads run, one access at a time, in any order.

No two threads have one lock (`Owned`). If a thread takes only locks of a higher rank than those it
has, there is no deadlock : as long as some thread is not idle, some thread can go on
(`Owned.progress`). And if each access brings a thread nearer to the end of its call, all calls
return, unless there are new ones all the time (`wellFounded_step`).
-/

set_option linter.unusedSectionVars false

open Transition

namespace Concurrent

/-- What threads do. `X` is what an access reads from the environment, and `A` names the pieces of
work that an access may complete. -/
structure Code (D P Q X A L : Type*) where
  idle : P → Bool
  start : Q → P
  next : X → D → P → Option (D × P × Option A)
  locks : P → Finset L
  locks_idle : ∀ p, idle p = true → locks p = ∅
  locks_start : ∀ q, locks (start q) = ∅

/-- The data, where the threads are, which thread has which lock, and what has been completed, in
order. -/
structure State (T D P A L : Type*) where
  data : D
  place : T → P
  owner : L → Option T
  log : List (T × A)

/-- A thread begins a call, or makes its next access with an outcome from outside. -/
inductive Event (T Q X : Type*)
  | call (t : T) (q : Q)
  | step (t : T) (x : X)

variable {T D P Q X A L : Type*} [DecidableEq T] [DecidableEq L] (c : Code D P Q X A L)
  {s s' : State T D P A L} {t t' : T} {l : L} {p : P}

namespace Code

/-- The locks of the place are free, or the thread has them already. -/
def Admits (s : State T D P A L) (t : T) (p : P) : Prop :=
  ∀ l ∈ c.locks p, s.owner l = none ∨ s.owner l = some t

instance (s : State T D P A L) (t : T) (p : P) : Decidable (c.Admits s t p) :=
  inferInstanceAs (Decidable (∀ l ∈ c.locks p, _))

/-- The thread goes to the place `p`. -/
def go (s : State T D P A L) (t : T) (data : D) (p : P) (done : Option A) : State T D P A L where
  data := data
  place := Function.update s.place t p
  owner l := if l ∈ c.locks p then some t else if s.owner l = some t then none else s.owner l
  log := s.log ++ done.toList.map fun a => (t, a)

/-- One event. A call begins at an idle place only, an access waits for the locks it would take. -/
def step (s : State T D P A L) : Event T Q X → Option (State T D P A L)
  | .call t q =>
    if c.idle (s.place t) then some { s with place := Function.update s.place t (c.start q) }
    else none
  | .step t x =>
    match c.next x s.data (s.place t) with
    | some (data, p, done) => if c.Admits s t p then some (c.go s t data p done) else none
    | none => none

/-- Nothing has been called. -/
def initial (data : D) (p : P) : State T D P A L :=
  ⟨data, fun _ => p, fun _ => none, []⟩

/-- The runs of the code whose events meet a guard. -/
abbrev Run (guard : List (Event T Q X) → State T D P A L → Event T Q X → Prop)
    (s : State T D P A L) : List (Event T Q X) → State T D P A L → Prop :=
  Transition.Run (fun s e s' => c.step s e = some s') guard s

variable {c}

theorem step_call {q : Q} (h : c.step s (.call t q) = some s') : c.idle (s.place t) = true ∧
    s' = { s with place := Function.update s.place t (c.start q) } := by
  simp only [step] at h
  split_ifs at h with hidle
  exact ⟨hidle, (Option.some.inj h).symm⟩

theorem step_step {x : X} (h : c.step s (.step t x) = some s') :
    ∃ data p done, c.next x s.data (s.place t) = some (data, p, done) ∧ c.Admits s t p ∧
      s' = c.go s t data p done := by
  simp only [step] at h
  cases hnext : c.next x s.data (s.place t) with
  | none => simp [hnext] at h
  | some next =>
    obtain ⟨data, p, done⟩ := next
    simp only [hnext] at h
    split_ifs at h with hadmits
    exact ⟨data, p, done, rfl, hadmits, (Option.some.inj h).symm⟩

end Code

/-! ## Locks -/

/-- The owner of a lock is the thread that is at a place with it. -/
def Owned (c : Code D P Q X A L) (s : State T D P A L) : Prop :=
  ∀ l t, s.owner l = some t ↔ l ∈ c.locks (s.place t)

variable {c}

/-- No two threads have one lock. -/
theorem Owned.eq (h : Owned c s) (ht : l ∈ c.locks (s.place t)) (ht' : l ∈ c.locks (s.place t')) :
    t = t' :=
  Option.some.inj (((h l t).2 ht).symm.trans ((h l t').2 ht'))

theorem Owned.free (h : Owned c s) (hl : s.owner l = none) (t : T) : l ∉ c.locks (s.place t) :=
  fun ht => by simp [(h l t).2 ht] at hl

theorem owned_initial {data : D} (h : c.idle p = true) :
    Owned c (Code.initial data p : State T D P A L) := by
  intro l t
  simp [Code.initial, c.locks_idle p h]

/-- A call that begins holds no lock yet. -/
theorem Owned.call (h : Owned c s) (hidle : c.idle (s.place t) = true) (q : Q) :
    Owned c { s with place := Function.update s.place t (c.start q) } := by
  intro l t'
  dsimp only
  rw [h l t']
  rcases eq_or_ne t' t with rfl | hne
  · rw [Function.update_self, c.locks_idle _ hidle, c.locks_start]
  · rw [Function.update_of_ne hne]

/-- An access that is admitted keeps the owners of the locks right. -/
theorem Owned.go (h : Owned c s) (hadmits : c.Admits s t p) (data : D) (done : Option A) :
    Owned c (c.go s t data p done) := by
  intro l t'
  unfold Code.go
  dsimp only
  rcases eq_or_ne t' t with rfl | hne
  · rw [Function.update_self]
    split_ifs with hl hold
    · simp [hl]
    · simp [hl]
    · simp [hl, hold]
  · rw [Function.update_of_ne hne, ← h l t']
    split_ifs with hl hold
    · rcases hadmits l hl with hfree | hown
      · simp [hfree, hne.symm]
      · simp [hown]
    · simp [hold, hne.symm]
    · rfl

theorem Owned.step {e : Event T Q X} (h : Owned c s) (hs : c.step s e = some s') : Owned c s' := by
  cases e with
  | call t q =>
    obtain ⟨hidle, rfl⟩ := Code.step_call hs
    exact h.call hidle q
  | step t x =>
    obtain ⟨data, p, done, -, hadmits, rfl⟩ := Code.step_step hs
    exact h.go hadmits data done

/-- In all runs the owners of the locks are the threads that stand inside. -/
theorem owned_of_run {guard : List (Event T Q X) → State T D P A L → Event T Q X → Prop}
    {es : List (Event T Q X)} (h0 : Owned c s) (h : c.Run guard s es s') : Owned c s' :=
  h.invariant h0 fun _ _ _ _ hi _ hs => hi.step hs

/-! ## No deadlock -/

/-- The thread can go on, with an input that satisfies `ok`, but for locks that others have. These
rank higher than the locks it has. -/
def Ready (c : Code D P Q X A L) (ok : X → Prop) (rank : L → ℕ) (s : State T D P A L) (t : T) :
    Prop :=
  ∃ x data p done, ok x ∧ c.next x s.data (s.place t) = some (data, p, done) ∧
    ∀ l ∈ c.locks p, l ∉ c.locks (s.place t) → ∀ l' ∈ c.locks (s.place t), rank l' < rank l

variable {ok : X → Prop} {rank : L → ℕ} {n : ℕ}

/-- A thread that cannot go on waits for one that has a lock of a higher rank. -/
theorem Ready.step_or_wait (h : Ready c ok rank s t) (hown : Owned c s) :
    (∃ x s', ok x ∧ c.step s (.step t x) = some s') ∨
      ∃ t' l, l ∈ c.locks (s.place t') ∧ ∀ l' ∈ c.locks (s.place t), rank l' < rank l := by
  obtain ⟨x, data, p, done, hx, hnext, hrank⟩ := h
  by_cases hadmits : c.Admits s t p
  · exact Or.inl ⟨x, c.go s t data p done, hx, by simp [Code.step, hnext, hadmits]⟩
  · obtain ⟨l, hl, hnot⟩ : ∃ l ∈ c.locks p, ¬(s.owner l = none ∨ s.owner l = some t) := by
      unfold Code.Admits at hadmits
      push Not at hadmits
      simpa using hadmits
    obtain ⟨hsome, hne⟩ := not_or.1 hnot
    obtain ⟨t', ht'⟩ := Option.ne_none_iff_exists'.1 hsome
    refine Or.inr ⟨t', l, (hown l t').1 ht', hrank l hl fun hmine => hne ((hown l t).2 hmine)⟩

/-- If threads take locks in the order of their ranks, some thread can go on, unless all are
idle. -/
theorem Owned.progress (hown : Owned c s) (hbound : ∀ l, rank l < n)
    (hready : ∀ t, c.idle (s.place t) = false → Ready c ok rank s t)
    (hbusy : c.idle (s.place t) = false) :
    ∃ t x s', ok x ∧ c.step s (.step t x) = some s' := by
  -- a thread with a lock of rank at least `n - k`, by induction on `k`
  have hlocked (k : ℕ) : ∀ t l, l ∈ c.locks (s.place t) → n ≤ rank l + k →
      ∃ t x s', ok x ∧ c.step s (.step t x) = some s' := by
    induction k with
    | zero =>
      intro t l hl hle
      have := hbound l
      omega
    | succ k ih =>
      intro t l hl hle
      have hnot : c.idle (s.place t) = false := by
        rw [← Bool.not_eq_true]
        intro hidle
        simp [c.locks_idle _ hidle] at hl
      rcases (hready t hnot).step_or_wait hown with ⟨x, s', hx, hs'⟩ | ⟨t', l', hl', hlt⟩
      · exact ⟨t, x, s', hx, hs'⟩
      · have := hlt l hl
        exact ih t' l' hl' (by omega)
  rcases (hready t hbusy).step_or_wait hown with ⟨x, s', hx, hs'⟩ | ⟨t', l', hl', -⟩
  · exact ⟨t, x, s', hx, hs'⟩
  · exact hlocked n t' l' hl' (by omega)

/-! ## All calls return -/

section Terminates

variable [Fintype T]

/-- A sum over all threads, when one of them moves. -/
theorem sum_update (f : P → ℕ) (place : T → P) (t : T) (p : P) :
    ∑ t', f (Function.update place t p t') + f (place t) = ∑ t', f (place t') + f p := by
  have hsplit (g : T → P) : ∑ t', f (g t') = f (g t) + ∑ t' ∈ Finset.univ.erase t, f (g t') :=
    (Finset.add_sum_erase _ _ (Finset.mem_univ t)).symm
  have hrest : ∑ t' ∈ Finset.univ.erase t, f (Function.update place t p t') =
      ∑ t' ∈ Finset.univ.erase t, f (place t') :=
    Finset.sum_congr rfl fun t' ht' => by rw [Function.update_of_ne (Finset.ne_of_mem_erase ht')]
  rw [hsplit (Function.update place t p), hsplit place, hrest, Function.update_self]
  omega

/-- Threads cannot take steps forever if each step makes `big` smaller, or else keeps it and makes
`small` smaller. -/
theorem wellFounded_step {big small : P → ℕ}
    (hnext : ∀ x d p d' p' done, c.next x d p = some (d', p', done) →
      big p' < big p ∨ big p' = big p ∧ small p' < small p) :
    WellFounded fun s' s : State T D P A L => ∃ t x, c.step s (.step t x) = some s' := by
  refine Subrelation.wf (r := InvImage (Prod.Lex (· < ·) (· < ·)) fun s : State T D P A L =>
    (∑ t, big (s.place t), ∑ t, small (s.place t))) ?_ (InvImage.wf _ (WellFounded.prod_lex
      Nat.lt_wfRel.wf Nat.lt_wfRel.wf))
  rintro s' s ⟨t, x, hs⟩
  obtain ⟨data, p, done, hp, -, rfl⟩ := Code.step_step hs
  have hbig := sum_update big s.place t p
  have hsmall := sum_update small s.place t p
  unfold InvImage Code.go
  rw [Prod.lex_def]
  dsimp only
  rcases hnext _ _ _ _ _ _ hp with hlt | ⟨heq, hlt⟩
  · exact Or.inl (by omega)
  · exact Or.inr ⟨by omega, by omega⟩

end Terminates

end Concurrent
