import Cupp.Sweep

/-!
# Orphans are reclaimed

A sweep that shares the allocator with other threads may take the lease of a connected client, but
it does not miss an orphan. If the SA of a lease is gone and the lease has expired when a sweep
begins, then at the end of the sweep the lease is destroyed, or some thread is about to do so,
unless its user has logged in again (`sweep_reclaims`). Each unique id has to go with one session
name. Otherwise the sweep may find the lease of another user under the unique id.
-/

set_option linter.unusedSectionVars false

open Transition

namespace Cupp

/-- `P` holds of the call if the event is a section of `acquire_address`. -/
def SweepEvent.OnAcquire {T : Type} (P : AcquireCall → Prop) : SweepEvent T → Prop
  | other e => e.OnAcquire P
  | _ => True

instance {T : Type} (P : AcquireCall → Prop) [DecidablePred P] :
    DecidablePred (SweepEvent.OnAcquire P : SweepEvent T → Prop)
  | .other e => inferInstanceAs (Decidable (e.OnAcquire P))
  | .up _ | .down _ | .snapshot .. | .probe _ | .unbind _ => inferInstanceAs (Decidable True)

/-- The call is not a login of the user `n`. -/
def AcquireCall.NotBy (n : CString) (call : AcquireCall) : Prop :=
  ∀ ikeSa ∈ call.ikeSa, sessionName ikeSa ≠ n

instance (n : CString) (call : AcquireCall) : Decidable (call.NotBy n) :=
  inferInstanceAs (Decidable (∀ ikeSa ∈ call.ikeSa, sessionName ikeSa ≠ n))

/-! ## A lease through a section -/

namespace World

variable {parse : CString → Option Host} {w w' : World} {e : CriticalSection} {r : LeaseRef}
  {n : CString}

/-- The release of the lease has begun. -/
def Released (w : World) (r : LeaseRef) : Prop :=
  r ∈ w.alloc.sessions.freed ∨ r ∈ w.pending

theorem Released.step (h : w.Released r) (hs : w.step parse e = some w') : w'.Released r := by
  cases step_cases hs with
  | acquire hacq =>
    cases IpAllocator.acquireEnter_cases hacq with
    | skipped | refused | reused | bound => exact h
  | unbindNone | reload => exact h
  | unbindSome => exact h.imp_right (List.mem_cons_of_mem _)
  | @finish r' =>
    rcases eq_or_ne r r' with rfl | hne
    · exact Or.inl (Finset.mem_insert_self ..)
    · exact h.imp (Finset.mem_insert_of_mem ·) (List.mem_erase_of_ne hne).2

/-- A section leaves the lease of a user where it is, or begins its release, but for a login of the
user. -/
theorem filed_step (hok : w.alloc.Ok False w.pending) (hr : w.alloc.sessions.byUser.get n = some r)
    (hlogin : e.OnAcquire (·.NotBy n)) (hs : w.step parse e = some w') :
    (w'.alloc.sessions.byUser.get n = some r ∧
      w'.alloc.sessions.uid r = w.alloc.sessions.uid r) ∨ w'.Released r := by
  have hlt := hok.sessions.lt hr
  cases step_cases hs with
  | acquire hacq =>
    cases IpAllocator.acquireEnter_cases hacq with
    | skipped | refused => exact Or.inl ⟨hr, rfl⟩
    | @reused ikeSa r' hserved hr' =>
      have hne : r ≠ r' := by
        rintro rfl
        have hname := hok.sessions.user_eq hr'
        rw [hok.sessions.user_eq hr] at hname
        exact hlogin ikeSa (IpAllocator.ikeSa_of_served hserved) hname.symm
      exact Or.inl ⟨hr, by rw [SessionManager.uid_moveLease, Function.update_of_ne hne]⟩
    | @bound ikeSa _ _ _ hserved =>
      have hne : n ≠ sessionName ikeSa :=
        (hlogin ikeSa (IpAllocator.ikeSa_of_served hserved)).symm
      refine Or.inl ⟨by simpa [hne] using hr, ?_⟩
      rw [SessionManager.uid_putLease, Function.update_of_ne hlt.ne]
  | unbindNone | reload => exact Or.inl ⟨hr, rfl⟩
  | @unbindSome uid r' hu =>
    rcases eq_or_ne r r' with rfl | hne
    · exact Or.inr (Or.inr List.mem_cons_self)
    · refine Or.inl ⟨?_, rfl⟩
      have hname : n ≠ w.alloc.sessions.user r' := by
        rintro rfl
        exact hne (Option.some.inj (hr.symm.trans (hok.sessions.filed.toB hu)))
      simpa [hname] using hr
  | finish => exact Or.inl ⟨hr, rfl⟩

/-- The tables do not have a lease whose release has begun. -/
theorem Released.not_filed (h : w.Released r) (hok : w.alloc.Ok False w.pending) (n : CString) :
    w.alloc.sessions.byUser.get n ≠ some r := by
  intro hr
  rcases h with hfreed | hpending
  · exact hok.sessions.notFreed hr hfreed
  · exact hok.detached.unfiled hpending n hr

end World

/-! ## A lease through a sweep -/

namespace SweepWorld

variable {T : Type} [DecidableEq T] {parse : CString → Option Host} {w w' : SweepWorld T}
  {e : SweepEvent T} {t : T} {r : LeaseRef} {n : CString} {owner : UInt32 → CString}

/-- The tables correspond, and unique ids of SAs and of leases have been given. -/
structure Tracked (owner : UInt32 → CString) (w : SweepWorld T) : Prop where
  ok : w.world.alloc.Ok False w.world.pending
  bound : w.sessions.Bound owner
  present : w.present ⊆ w.known
  known : ∀ {r}, r < w.sessions.next → w.sessions.uid r ∈ w.known

/-- A section keeps track of the SAs of its calls. -/
theorem Tracked.section_ {e : CriticalSection} {world : World} (h : w.Tracked owner)
    (hown : e.OnAcquire (·.OwnedBy owner))
    (hpresent : e.OnAcquire fun call => ∀ ikeSa ∈ call.ikeSa, ikeSa.uniqueId ∈ w.present)
    (hs : w.world.step parse e = some world) : Tracked owner { w with world := world } := by
  refine ⟨World.loose_step h.ok hs, World.bound_step h.ok h.bound hown hs, h.present,
    fun {r} hr => ?_⟩
  rcases World.uid_step hs r with ⟨huid, hlt⟩ | ⟨call, answer, ikeSa, rfl, hserved, huid, -⟩
  · exact huid ▸ h.known (hlt hr)
  · exact huid ▸ h.present (hpresent ikeSa (IpAllocator.ikeSa_of_served hserved))

theorem Tracked.step (h : w.Tracked owner) (hown : e.OnAcquire (·.OwnedBy owner))
    (hs : w.step parse e = some w') : w'.Tracked owner := by
  cases step_cases hs with
  | other hpresent hworld => exact h.section_ hown hpresent hworld
  | up =>
    exact ⟨h.ok, h.bound, Finset.insert_subset_insert _ h.present,
      fun hr => Finset.mem_insert_of_mem (h.known hr)⟩
  | down => exact ⟨h.ok, h.bound, (Finset.erase_subset _ _).trans h.present, h.known⟩
  | snapshot | alive | orphan => exact ⟨h.ok, h.bound, h.present, h.known⟩
  | unbind _ hworld =>
    have hsection := h.section_ (e := .unbind _) trivial trivial hworld
    exact ⟨hsection.ok, hsection.bound, hsection.present, hsection.known⟩

/-- The lease of the user `n` has no SA, and the sweep of `t` has still to look at it. -/
structure Listed (t : T) (r : LeaseRef) (n : CString) (w : SweepWorld T) : Prop where
  filed : w.sessions.byUser.get n = some r
  gone : w.sessions.uid r ∉ w.present
  rest : r ∈ (w.sweeps t).rest

/-- A section of some thread keeps the lease listed, or begins its release. -/
theorem Listed.section_ {e : CriticalSection} {world : World} (h : w.Listed t r n)
    (hok : w.world.alloc.Ok False w.world.pending) (hlogin : e.OnAcquire (·.NotBy n))
    (hs : w.world.step parse e = some world) :
    Listed t r n { w with world := world } ∨ world.Released r := by
  refine (World.filed_step hok h.filed hlogin hs).imp_left fun ⟨hfiled, huid⟩ => ?_
  exact ⟨hfiled, huid ▸ h.gone, h.rest⟩

/-- Another sweep does not take the lease off the list. -/
theorem Listed.setSweep (h : w.Listed t r n) {t' : T} {sw : Sweeping}
    (hrest : t = t' → r ∈ sw.rest) : (w.setSweep t' sw).Listed t r n := by
  refine ⟨h.filed, h.gone, ?_⟩
  rcases eq_or_ne t t' with rfl | hne
  · rw [sweeps_setSweep_self]
    exact hrest rfl
  · rw [sweeps_setSweep_of_ne hne]
    exact h.rest

/-- A thread begins a sweep when it has none under way. -/
theorem snapshot_eq {now : ℤ} {entries : List (Σ _ : UInt32, LeaseRef)}
    (hs : w.step parse (.snapshot t now entries) = some w') : (w.sweeps t).rest = [] ∧
      Hashtable.Enumerates entries w.sessions.byUid ∧ w' = w.setSweep t
        ⟨w.sessions.expiring now w.world.alloc.leaseTimeout entries, false, none⟩ := by
  simp only [SweepWorld.step] at hs
  split_ifs at hs with hidle
  exact ⟨hidle.1, hidle.2.2, (Option.some.inj hs).symm⟩

/-- The release of a lease that is filed under its unique id begins. -/
theorem released_of_unbind {world : World} (hu : w.sessions.byUid.get (w.sessions.uid r) = some r)
    (hs : w.world.step parse (.unbind (w.sessions.uid r)) = some world) : world.Released r := by
  cases World.step_cases hs with
  | unbindNone hnone => simp [hnone] at hu
  | unbindSome hu' =>
    obtain rfl := Option.some.inj (hu'.symm.trans hu)
    exact Or.inr List.mem_cons_self

/-- As long as its user does not log in, the lease stays listed until its release begins. -/
theorem Listed.step (h : w.Listed t r n) (htracked : w.Tracked owner)
    (hlogin : e.OnAcquire (·.NotBy n)) (hs : w.step parse e = some w') :
    w'.Listed t r n ∨ w'.world.Released r := by
  have hlt := htracked.ok.sessions.lt h.filed
  cases step_cases hs with
  | other _ hworld => exact h.section_ htracked.ok hlogin hworld
  | up hnew =>
    -- unique ids are not given again
    refine Or.inl ⟨h.filed, fun hp => ?_, h.rest⟩
    rcases Finset.mem_insert.1 hp with heq | hp
    · exact hnew (heq ▸ htracked.known hlt)
    · exact h.gone hp
  | down => exact Or.inl ⟨h.filed, fun hp => h.gone (Finset.mem_of_mem_erase hp), h.rest⟩
  | @snapshot t' now entries =>
    refine Or.inl (h.setSweep fun heq => ?_)
    have hmem := heq ▸ h.rest
    simp [(snapshot_eq hs).1] at hmem
  | @alive t' r' rest hrest hp =>
    refine Or.inl (h.setSweep fun heq => ?_)
    have hmem := heq ▸ h.rest
    rw [hrest] at hmem
    refine (List.mem_cons.1 hmem).resolve_left ?_
    rintro rfl
    exact h.gone hp
  | @orphan t' r' rest hrest =>
    refine Or.inl (h.setSweep fun heq => ?_)
    exact hrest ▸ heq ▸ h.rest
  | @unbind t' r' rest taken world hrest hworld =>
    rcases eq_or_ne r r' with rfl | hne
    · obtain rfl := htracked.ok.sessions.user_eq h.filed
      exact Or.inr (released_of_unbind (htracked.bound.paired.toA h.filed) hworld)
    · refine (h.section_ (e := .unbind _) htracked.ok trivial hworld).imp_left fun hlisted => ?_
      refine hlisted.setSweep fun heq => ?_
      have hmem := heq ▸ h.rest
      rw [hrest] at hmem
      exact (List.mem_cons.1 hmem).resolve_left hne

theorem released_step (h : w.world.Released r) (hs : w.step parse e = some w') :
    w'.world.Released r := by
  cases step_cases hs with
  | other _ hworld | unbind _ hworld => exact h.step hworld
  | up | down | snapshot | alive | orphan => exact h

variable {policy : PolicyEngine} {poolName : Option CString} {leaseTimeout : UInt32}
  {calloc : Option (ℕ → UInt8)} {es : List (SweepEvent T)}

theorem tracked_start (owner : UInt32 → CString) :
    (start (ipAllocatorCreate policy poolName leaseTimeout calloc) : SweepWorld T).Tracked
      owner where
  ok := IpAllocator.ok_create policy poolName leaseTimeout calloc False.elim
  bound := SessionManager.bound_create owner
  present := Finset.empty_subset _
  known hr := absurd hr (Nat.not_lt_zero _)

end SweepWorld

/-- When a sweep ends, a lease that had expired and had no SA when the sweep began is destroyed, or
its release is under way, unless its user has logged in since. -/
theorem sweep_reclaims {T : Type} [DecidableEq T] {parse : CString → Option Host}
    {policy : PolicyEngine} {poolName : Option CString} {leaseTimeout : UInt32}
    {calloc : Option (ℕ → UInt8)} {owner : UInt32 → CString} {es es' : List (SweepEvent T)}
    {w w₁ w' : SweepWorld T} {t : T} {r : LeaseRef} {n : CString} {now : ℤ}
    {entries : List (Σ _ : UInt32, LeaseRef)}
    (h : SweepWorld.Run parse (fun _ _ e => e.OnAcquire (·.OwnedBy owner))
      (ipAllocatorCreate policy poolName leaseTimeout calloc) es w)
    (hr : w.sessions.byUser.get n = some r)
    (hexpired : (w.sessions.obj r).expired now w.world.alloc.leaseTimeout = true)
    (hgone : w.sessions.uid r ∉ w.present)
    (hs : w.step parse (.snapshot t now entries) = some w₁)
    (h' : Run (fun w e w' => w.step parse e = some w')
      (fun _ _ e => e.OnAcquire (·.OwnedBy owner) ∧ e.OnAcquire (·.NotBy n)) w₁ es' w')
    (hend : (w'.sweeps t).rest = []) :
    w'.world.Released r ∧ ∀ n, w'.sessions.byUser.get n ≠ some r := by
  have htracked : w.Tracked owner := by
    refine h.invariant (I := SweepWorld.Tracked owner) (SweepWorld.tracked_start owner) ?_
    intro es w e w' hi hown hs
    exact hi.step hown hs
  have hlisted : w₁.Listed t r n := by
    obtain ⟨-, hentries, rfl⟩ := SweepWorld.snapshot_eq hs
    refine ⟨hr, hgone, ?_⟩
    rw [SweepWorld.sweeps_setSweep_self]
    refine List.mem_filter.2 ⟨List.mem_map.2 ⟨⟨w.sessions.uid r, r⟩, ?_, rfl⟩, hexpired⟩
    obtain rfl := htracked.ok.sessions.user_eq hr
    exact (hentries.mem_iff _ r).2 (htracked.bound.paired.toA hr)
  have hkept : w'.Tracked owner ∧ (w'.Listed t r n ∨ w'.world.Released r) := by
    refine h'.invariant (I := fun w => w.Tracked owner ∧ (w.Listed t r n ∨ w.world.Released r))
      ⟨htracked.step (e := .snapshot t now entries) trivial hs, Or.inl hlisted⟩ ?_
    rintro es w e w' ⟨htracked, hlisted | hreleased⟩ ⟨hown, hlogin⟩ hs
    · exact ⟨htracked.step hown hs, hlisted.step htracked hlogin hs⟩
    · exact ⟨htracked.step hown hs, Or.inr (SweepWorld.released_step hreleased hs)⟩
  have hreleased : w'.world.Released r := by
    refine hkept.2.resolve_left fun hlisted => ?_
    have hmem := hlisted.rest
    simp [hend] at hmem
  exact ⟨hreleased, hreleased.not_filed hkept.1.ok⟩

/-- Two sweeps find the lease of `a`, and `b` logs in meanwhile. -/
theorem sweep_reclaims_of_lost : ∃ w w₁ w' : SweepWorld (Fin 2),
    SweepWorld.Run (fun _ => none) (fun _ _ e => e.OnAcquire (·.OwnedBy oddEven))
      (smallAlloc (smallPolicy [] 1 3))
      [.up 1, .other (.acquire (login (letterSa 1 'a') 0) (.done (some (tenNet 1)))), .down 1] w ∧
    w.step (fun _ => none) (.snapshot 0 4000 [⟨1, 0⟩]) = some w₁ ∧
    Run (fun w e w' => SweepWorld.step (fun _ => none) w e = some w')
      (fun _ _ e => e.OnAcquire (·.OwnedBy oddEven) ∧ e.OnAcquire (·.NotBy (letter 'a'))) w₁
      [.snapshot 1 4000 [⟨1, 0⟩], .probe 0, .probe 1, .up 2,
        .other (.acquire (login (letterSa 2 'b') 4000) (.done (some (tenNet 2)))), .unbind 1,
        .unbind 0] w' ∧
    w'.world.Released 0 ∧ ∀ n, w'.sessions.byUser.get n ≠ some 0 := by
  obtain ⟨w, hrun, hfacts⟩ := Run.exists_of_exec (by decide :
    (exec (SweepWorld.step fun _ => none) (fun _ _ e => e.OnAcquire (·.OwnedBy oddEven)) []
      (.start (smallAlloc (smallPolicy [] 1 3)) : SweepWorld (Fin 2))
      [.up 1, .other (.acquire (login (letterSa 1 'a') 0) (.done (some (tenNet 1)))), .down 1]).map
      (fun w => (w.sessions.byUser.get (letter 'a'),
        (w.sessions.obj 0).expired 4000 w.world.alloc.leaseTimeout,
        (w.sessions.uid 0 ∈ w.present : Bool),
        ((w.step (fun _ => none) (.snapshot 0 4000 [⟨1, 0⟩])).bind fun w₁ =>
          exec (SweepWorld.step fun _ => none) (fun _ _ e => e.OnAcquire (·.OwnedBy oddEven) ∧
            e.OnAcquire (·.NotBy (letter 'a'))) [] w₁
            [.snapshot 1 4000 [⟨1, 0⟩], .probe 0, .probe 1, .up 2,
              .other (.acquire (login (letterSa 2 'b') 4000) (.done (some (tenNet 2)))), .unbind 1,
              .unbind 0]).map fun w' => (w'.sweeps 0).rest)) =
      some (some 0, true, false, some []))
  simp only [Prod.mk.injEq, decide_eq_false_iff_not] at hfacts
  obtain ⟨hr, hexpired, hgone, hrest⟩ := hfacts
  obtain ⟨w', hw', hend⟩ := Option.map_eq_some_iff.1 hrest
  obtain ⟨w₁, hs, hexec⟩ := Option.bind_eq_some_iff.1 hw'
  have hrun' := Run.of_exec .nil hexec
  exact ⟨w, w₁, w', hrun, hs, hrun', sweep_reclaims hrun hr hexpired hgone hs hrun' hend⟩

end Cupp
