import Cupp.Server
import Cupp.Threads

/-!
# Critical sections are atomic

Threads that interleave access by access do what they would do if each critical section was one
step : there is an order of the sections in which each thread has the sections that it has gone
through, in its order and with its answers, and `World` goes through them in that order to the same
allocator. `Tracks` says this of the places where the threads are, and each access keeps it
(`Tracks.step`).

The allocator's lock alone does not give this. Within one section of `acquire_address` the policy is
read, and then the pool is asked, and in between a reload may switch the policy and a release may
give an address back, both without the lock. The policy is read first, so a reload in between has
to come after the section in the order. And the pool is asked later, so a release has to come before
it. A reload and a release do not touch the same data, so both can be had.
-/

set_option linter.unusedSectionVars false

open Concurrent Shuffle Transition

namespace Cupp

/-! ## Session tables up to what is destroyed -/

namespace SessionManager

/-- The tables and the leases are the same, but not necessarily which leases are destroyed. -/
def SameTables (m m' : SessionManager) : Prop :=
  ∃ freed, m' = { m with freed := freed }

variable {m m' m'' : SessionManager} {n : CString} {u : UInt32} {r : LeaseRef} {ip : Host}
  {fixed mallocOk : Bool} {now : ℤ}

theorem SameTables.refl (m : SessionManager) : m.SameTables m :=
  ⟨m.freed, rfl⟩

theorem SameTables.symm (h : m.SameTables m') : m'.SameTables m := by
  obtain ⟨freed, rfl⟩ := h
  exact ⟨m.freed, rfl⟩

theorem SameTables.trans (h : m.SameTables m') (h' : m'.SameTables m'') : m.SameTables m'' := by
  obtain ⟨freed, rfl⟩ := h
  obtain ⟨freed', rfl⟩ := h'
  exact ⟨freed', rfl⟩

theorem SameTables.leaseDestroy (m : SessionManager) (r : LeaseRef) :
    m.SameTables (m.leaseDestroy r) :=
  ⟨_, rfl⟩

theorem SameTables.byUser (h : m.SameTables m') : m.byUser = m'.byUser := by
  obtain ⟨freed, rfl⟩ := h
  rfl

theorem SameTables.migrate (h : m.SameTables m') :
    (m.migrate n u now).2.SameTables (m'.migrate n u now).2 := by
  obtain ⟨freed, rfl⟩ := h
  unfold SessionManager.migrate
  cases m.byUser.get n with
  | none => exact ⟨freed, rfl⟩
  | some r => exact ⟨freed, rfl⟩

theorem SameTables.bindLease (h : m.SameTables m') (hn : m.byUser.get n = none) :
    (m'.bindLease n u ip fixed now mallocOk).1 = (m.bindLease n u ip fixed now mallocOk).1 ∧
      (m.bindLease n u ip fixed now mallocOk).2.SameTables
        (m'.bindLease n u ip fixed now mallocOk).2 := by
  obtain ⟨freed, rfl⟩ := h
  rw [bindLease_of_none m _ _ _ _ _ hn, bindLease_of_none { m with freed := freed } _ _ _ _ _ hn]
  cases mallocOk with
  | false => exact ⟨rfl, freed, rfl⟩
  | true => exact ⟨rfl, freed, rfl⟩

theorem freed_migrate (m : SessionManager) (n : CString) (u : UInt32) (now : ℤ) :
    (m.migrate n u now).2.freed = m.freed := by
  unfold SessionManager.migrate
  cases m.byUser.get n with
  | none => rfl
  | some r => rfl

theorem freed_bindLease (hn : m.byUser.get n = none) :
    (m.bindLease n u ip fixed now mallocOk).2.freed = m.freed := by
  rw [bindLease_of_none _ _ _ _ _ _ hn]
  cases mallocOk with
  | false => rfl
  | true => rfl

theorem SameTables.removeLease (h : m.SameTables m') :
    (m.removeLease u r).SameTables (m'.removeLease u r) := by
  obtain ⟨freed, rfl⟩ := h
  exact ⟨freed, rfl⟩

end SessionManager

/-! ## What a thread has done of a section -/

theorem served_congr {a a' : IpAllocator} (h : a'.poolName = a.poolName) (call : AcquireCall) :
    a'.served call = a.served call := by
  unfold IpAllocator.served IpAllocator.poolsInclude
  rw [h]

namespace Pc

/-- The thread has the allocator's lock. -/
def locked : Option Pc → Prop
  | some pc => .lock ∈ pc.locks
  | none => False

/-- The section that has had its effect, as far as others can see, and is not complete. -/
def committed : Option Pc → List CriticalSection
  | some (bindLease call _ ip _) =>
    [.acquire call (if call.mem.lease then if call.mem.result then .done (some ip) else .rollback
      else .done none)]
  | some (acquireUnlock call _ answer) => [.acquire call answer]
  | some (releaseUnlock uid _) => [.unbind uid]
  | some (leaseDestroy r) => [.finish r]
  | some (reloadUnlock file) => [.reload file]
  | _ => []

/-- The lease that the thread has taken out and whose address it has not given back. -/
def unbound : Option Pc → Option LeaseRef
  | some (releaseUnlock _ lease) => lease
  | some (dynRelease r) => some r
  | _ => none

/-- The lease that the thread is about to destroy. -/
def destroying : Option Pc → Option LeaseRef
  | some (leaseDestroy r) => some r
  | _ => none

/-- `P` holds of the call if the thread is in `acquire_address`. -/
def OnCall (P : AcquireCall → Prop) : Pc → Prop
  | acquireAddress call | acquireLock call _ | lookupByUser call _ | migrate call _ _
  | lookupFixed call _ | dynAcquire call _ | bindLease call _ _ _ | acquireUnlock call _ _ => P call
  | _ => True

/-- The fixed address that a call finds, and has the memory to copy. -/
abbrev fixedFor (policy : PolicyEngine) (call : AcquireCall) (ikeSa : IkeSa) : Option Host :=
  (if isAnon (sessionName ikeSa) then none else policy.lookupFixed (sessionName ikeSa)).filter
    fun _ => call.mem.fixedClone

/-- What the variables of a thread tell about the allocator `a`, and about `w`, which is where the
sections that have had their effect lead. -/
def Known (parse : CString → Option Host) (a w : IpAllocator) : Option Pc → Prop
  | some (acquireLock call ikeSa) => a.served call = some ikeSa
  | some (lookupByUser call ikeSa) =>
    a.served call = some ikeSa ∧ a.sessions.SameTables w.sessions
  | some (migrate call ikeSa r) =>
    a.served call = some ikeSa ∧ a.sessions.SameTables w.sessions ∧
      a.sessions.byUser.get (sessionName ikeSa) = some r
  | some (lookupFixed call ikeSa) =>
    a.served call = some ikeSa ∧ a.sessions.SameTables w.sessions ∧
      a.sessions.byUser.get (sessionName ikeSa) = none
  | some (dynAcquire call ikeSa) =>
    a.served call = some ikeSa ∧ a.sessions.SameTables w.sessions ∧
      a.sessions.byUser.get (sessionName ikeSa) = none ∧ fixedFor w.policy call ikeSa = none
  | some (bindLease call ikeSa ip isFixed) =>
    a.sessions.byUser.get (sessionName ikeSa) = none ∧
      (a.sessions.bindLease (sessionName ikeSa) ikeSa.uniqueId ip isFixed call.now
        call.mem.lease).2.SameTables w.sessions
  | some (acquireUnlock ..) | some (unbind _) | some (releaseUnlock ..) =>
    a.sessions.SameTables w.sessions
  | some (switch file fresh) => Cupp.snapshotLoad parse file = some fresh
  | _ => True

variable {parse : CString → Option Host} {a a' w w' : IpAllocator} {pc : Option Pc}

/-- Others do not change what a thread knows : they leave the tables alone while it has the lock,
and the policy for which it has found no address. -/
theorem Known.congr (h : Known parse a w pc) (hname : a'.poolName = a.poolName)
    (hsame : locked pc → a.sessions.SameTables a'.sessions ∧ w.sessions.SameTables w'.sessions)
    (hpolicy : ∀ call ikeSa, pc = some (dynAcquire call ikeSa) → w'.policy = w.policy) :
    Known parse a' w' pc := by
  have hserved (call : AcquireCall) : a'.served call = a.served call := served_congr hname call
  have hkeep (h : a.sessions.SameTables w.sessions) (hlocked : locked pc) :
      a'.sessions.SameTables w'.sessions := by
    obtain ⟨ha, hw⟩ := hsame hlocked
    exact (ha.symm.trans h).trans hw
  have hbyUser (hlocked : locked pc) : a'.sessions.byUser = a.sessions.byUser := by
    obtain ⟨⟨freed, ha⟩, -⟩ := hsame hlocked
    rw [ha]
  cases pc with
  | none => trivial
  | some pc =>
    cases pc with
    | acquireLock call ikeSa => exact (hserved call).trans h
    | lookupByUser call ikeSa =>
      exact ⟨(hserved call).trans h.1, hkeep h.2 (Finset.mem_singleton_self _)⟩
    | migrate call ikeSa r =>
      obtain ⟨hs, hsess, hr⟩ := h
      have hlocked : locked (some (migrate call ikeSa r)) := Finset.mem_singleton_self _
      exact ⟨(hserved call).trans hs, hkeep hsess hlocked, (hbyUser hlocked).symm ▸ hr⟩
    | lookupFixed call ikeSa =>
      obtain ⟨hs, hsess, hn⟩ := h
      have hlocked : locked (some (lookupFixed call ikeSa)) := Finset.mem_singleton_self _
      exact ⟨(hserved call).trans hs, hkeep hsess hlocked, (hbyUser hlocked).symm ▸ hn⟩
    | dynAcquire call ikeSa =>
      obtain ⟨hs, hsess, hn, hf⟩ := h
      have hlocked : locked (some (dynAcquire call ikeSa)) := Finset.mem_singleton_self _
      refine ⟨(hserved call).trans hs, hkeep hsess hlocked, (hbyUser hlocked).symm ▸ hn, ?_⟩
      rwa [hpolicy call ikeSa rfl]
    | bindLease call ikeSa ip isFixed =>
      obtain ⟨hn, hsess⟩ := h
      have hlocked : locked (some (bindLease call ikeSa ip isFixed)) := Finset.mem_singleton_self _
      obtain ⟨ha, hw⟩ := hsame hlocked
      exact ⟨(hbyUser hlocked).symm ▸ hn, ((ha.bindLease hn).2.symm.trans hsess).trans hw⟩
    | acquireUnlock | unbind | releaseUnlock => exact hkeep h (Finset.mem_singleton_self _)
    | switch => exact h
    | acquireAddress | releaseByUidImpl | dynRelease | leaseDestroy | reload | snapshotLoad
    | reloadUnlock => trivial

end Pc

/-! ## The sections in their order -/

/-- The policy after the reloads among `late`. -/
def policyAfter {T : Type} (parse : CString → Option Host) (policy : PolicyEngine)
    (late : List (T × CriticalSection)) : PolicyEngine :=
  late.foldl
    (fun policy x =>
      match x.2 with
      | .reload file => (policy.reload parse file).2
      | _ => policy)
    policy

/-- The section has an effect on the policy only, if it has any. -/
def CriticalSection.Quiet (Q : AcquireCall → Prop) (a : IpAllocator) : CriticalSection → Prop
  | .acquire call answer => Q call ∧ answer = .done none ∧ a.served call = none
  | .reload _ => True
  | .unbind _ | .finish _ => False

variable {T : Type} [DecidableEq T] {parse : CString → Option Host} {Q : AcquireCall → Prop}
  {pcs : T → Option Pc} {alloc a a' : IpAllocator}
  {log es es' late late' : List (T × CriticalSection)}
  {w w' : World} {t : T} {pc' : Option Pc}
  {done : Option CriticalSection} {e : CriticalSection} {r : LeaseRef}
  {past : Set (Moment T CriticalSection)}

/-- The leases that are unbound are those of the threads. -/
structure Unbound (pcs : T → Option Pc) (pending : List LeaseRef) : Prop where
  mem_iff : ∀ r, r ∈ pending ↔ ∃ t, Pc.unbound (pcs t) = some r
  inj : ∀ {t t' r}, Pc.unbound (pcs t) = some r → Pc.unbound (pcs t') = some r → t = t'

/-- The leases `freed` are destroyed, and threads are about to destroy the others of `freed'`. -/
structure Destroyed (pcs : T → Option Pc) (freed freed' : Finset LeaseRef) : Prop where
  mem_iff : ∀ r, r ∈ freed' ↔ r ∈ freed ∨ ∃ t, Pc.destroying (pcs t) = some r
  live : ∀ {t r}, Pc.destroying (pcs t) = some r → r ∉ freed
  inj : ∀ {t t' r}, Pc.destroying (pcs t) = some r → Pc.destroying (pcs t') = some r → t = t'

/-- The sections `late` have had their effect after a thread has read the policy, which has not
asked the pool yet. -/
structure Late (Q : AcquireCall → Prop) (pcs : T → Option Pc) (w : World)
    (late : List (T × CriticalSection)) : Prop where
  quiet : ∀ x ∈ late, x.2.Quiet Q w.alloc
  outside : ∀ x ∈ late, ¬Pc.locked (pcs x.1) ∧ Pc.unbound (pcs x.1) = none
  before : late ≠ [] → ∃ t call ikeSa, pcs t = some (.dynAcquire call ikeSa)

/-- The threads that neither have the lock nor a lease to give back. -/
def Away (pcs : T → Option Pc) : Set T :=
  {t | ¬Pc.locked (pcs t) ∧ Pc.unbound (pcs t) = none}

/-- The threads at `pcs` with the allocator `a` have completed the sections `log`. In the order
`es`, with `late` at the end, the sections lead to `w`, but for the policy, which is that after
`late`. The order respects real time at the moments `past`. -/
structure Tracks (parse : CString → Option Host) (Q : AcquireCall → Prop)
    (past : Set (Moment T CriticalSection)) (pcs : T → Option Pc) (a : IpAllocator)
    (log es late : List (T × CriticalSection)) (w : World) : Prop where
  order : ∀ t, ofThread t (es ++ late) = ofThread t log ++ Pc.committed (pcs t)
  known : ∀ t, Pc.Known parse a w.alloc (pcs t)
  free : (∀ t, ¬Pc.locked (pcs t)) → a.sessions.SameTables w.alloc.sessions
  dyn : w.alloc.dyn = a.dyn
  poolName : w.alloc.poolName = a.poolName
  leaseTimeout : w.alloc.leaseTimeout = a.leaseTimeout
  policy : a.policy = policyAfter parse w.alloc.policy late
  unbound : Unbound pcs w.pending
  destroyed : Destroyed pcs a.sessions.freed w.alloc.sessions.freed
  ok : a.sessions.Ok
  past : ∀ x ∈ past, x.Kept (Away pcs) es late
  late : Late Q pcs w late

theorem Late.nil : Late Q pcs w [] :=
  ⟨by simp, by simp, by simp⟩

/-- A thread that gives up its lock and its lease is away. -/
theorem away_update (h : t ∈ Away pcs → ¬Pc.locked pc' ∧ Pc.unbound pc' = none) :
    Away pcs ⊆ Away (Function.update pcs t pc') := by
  intro t' ht'
  rcases eq_or_ne t' t with rfl | hne
  · simpa [Away] using h ht'
  · simpa [Away, Function.update_of_ne hne] using ht'

/-! ## Leases of the threads -/

theorem exists_update_iff (f : Option Pc → Option LeaseRef) (r : LeaseRef) :
    (∃ t', f (Function.update pcs t pc' t') = some r) ↔
      f pc' = some r ∨ ∃ t' ≠ t, f (pcs t') = some r := by
  rw [Function.exists_update_iff pcs fun _ pc => f pc = some r]

theorem exists_iff_of_ne (f : Option Pc → Option LeaseRef) (r : LeaseRef) (t : T) :
    (∃ t', f (pcs t') = some r) ↔ f (pcs t) = some r ∨ ∃ t' ≠ t, f (pcs t') = some r := by
  conv_lhs => rw [← Function.update_eq_self t pcs]
  exact exists_update_iff f r

/-- A thread that keeps its lease keeps them accounted for. -/
theorem Unbound.same (h : Unbound pcs w.pending) (hpc : Pc.unbound pc' = Pc.unbound (pcs t)) :
    Unbound (Function.update pcs t pc') w.pending := by
  have hu (t' : T) : Pc.unbound (Function.update pcs t pc' t') = Pc.unbound (pcs t') := by
    rcases eq_or_ne t' t with rfl | hne
    · rw [Function.update_self, hpc]
    · rw [Function.update_of_ne hne]
  refine ⟨fun r => ?_, fun {t₁ t₂ r} h₁ h₂ => h.inj (hu t₁ ▸ h₁) (hu t₂ ▸ h₂)⟩
  rw [h.mem_iff r]
  exact exists_congr fun t' => by rw [hu t']

/-- A thread takes a lease out. -/
theorem Unbound.unbind (h : Unbound pcs w.pending) (hpc : Pc.unbound (pcs t) = none)
    (hpc' : Pc.unbound pc' = some r) (hfresh : r ∉ w.pending) :
    Unbound (Function.update pcs t pc') (r :: w.pending) := by
  have hnot {t' : T} (ht' : Pc.unbound (pcs t') = some r) : False :=
    hfresh ((h.mem_iff r).2 ⟨t', ht'⟩)
  refine ⟨fun r' => ?_, fun {t₁ t₂ r'} h₁ h₂ => ?_⟩
  · rw [exists_update_iff, List.mem_cons, h.mem_iff r', exists_iff_of_ne Pc.unbound r' t, hpc, hpc',
      Option.some.injEq, eq_comm]
    simp
  · rcases eq_or_ne t₁ t with rfl | hne₁
    · rw [Function.update_self, hpc'] at h₁
      rcases eq_or_ne t₂ t₁ with rfl | hne₂
      · rfl
      · rw [Function.update_of_ne hne₂] at h₂
        exact (hnot (h₂.trans h₁.symm)).elim
    · rw [Function.update_of_ne hne₁] at h₁
      rcases eq_or_ne t₂ t with rfl | hne₂
      · rw [Function.update_self, hpc'] at h₂
        exact (hnot (h₁.trans h₂.symm)).elim
      · rw [Function.update_of_ne hne₂] at h₂
        exact h.inj h₁ h₂

/-- A thread gives the address of its lease back. -/
theorem Unbound.release (h : Unbound pcs w.pending) (hpc : Pc.unbound (pcs t) = some r)
    (hpc' : Pc.unbound pc' = none) (hnodup : w.pending.Nodup) :
    Unbound (Function.update pcs t pc') (w.pending.erase r) := by
  refine ⟨fun r' => ?_, fun {t₁ t₂ r'} h₁ h₂ => ?_⟩
  · rw [exists_update_iff, hnodup.mem_erase_iff, h.mem_iff r', hpc']
    constructor
    · rintro ⟨hne, t', ht'⟩
      refine Or.inr ⟨t', ?_, ht'⟩
      rintro rfl
      exact hne (Option.some.inj (ht'.symm.trans hpc))
    · rintro (hr | ⟨t', hne, ht'⟩)
      · simp at hr
      · refine ⟨?_, t', ht'⟩
        rintro rfl
        exact hne (h.inj ht' hpc)
  · rcases eq_or_ne t₁ t with rfl | hne₁
    · simp [hpc'] at h₁
    rcases eq_or_ne t₂ t with rfl | hne₂
    · simp [hpc'] at h₂
    rw [Function.update_of_ne hne₁] at h₁
    rw [Function.update_of_ne hne₂] at h₂
    exact h.inj h₁ h₂

/-- A thread that destroys nothing keeps the destroyed leases accounted for. -/
theorem Destroyed.same {freed freed' : Finset LeaseRef} (h : Destroyed pcs freed freed')
    (hpc : Pc.destroying pc' = Pc.destroying (pcs t)) :
    Destroyed (Function.update pcs t pc') freed freed' := by
  have hd (t' : T) : Pc.destroying (Function.update pcs t pc' t') = Pc.destroying (pcs t') := by
    rcases eq_or_ne t' t with rfl | hne
    · rw [Function.update_self, hpc]
    · rw [Function.update_of_ne hne]
  refine ⟨fun r => ?_, fun {t' r} ht' => h.live (hd t' ▸ ht'),
    fun {t₁ t₂ r} h₁ h₂ => h.inj (hd t₁ ▸ h₁) (hd t₂ ▸ h₂)⟩
  rw [h.mem_iff r]
  exact or_congr_right (exists_congr fun t' => by rw [hd t'])

/-- A lease counts as destroyed when its address has been given back. -/
theorem Destroyed.release {freed freed' : Finset LeaseRef} (h : Destroyed pcs freed freed')
    (hpc : Pc.destroying (pcs t) = none) (hpc' : Pc.destroying pc' = some r) (hr : r ∉ freed') :
    Destroyed (Function.update pcs t pc') freed (insert r freed') := by
  have hother {t' : T} {r' : LeaseRef} (ht' : Pc.destroying (pcs t') = some r') : r' ≠ r := by
    rintro rfl
    exact hr ((h.mem_iff r').2 (Or.inr ⟨t', ht'⟩))
  refine ⟨fun r' => ?_, fun {t' r'} ht' => ?_, fun {t₁ t₂ r'} h₁ h₂ => ?_⟩
  · rw [exists_update_iff, Finset.mem_insert, h.mem_iff r', exists_iff_of_ne Pc.destroying r' t,
      hpc, hpc', Option.some.injEq, eq_comm]
    simp only [reduceCtorEq, false_or]
    exact or_left_comm
  · rcases eq_or_ne t' t with rfl | hne
    · rw [Function.update_self, hpc'] at ht'
      obtain rfl := Option.some.inj ht'
      exact fun hfreed => hr ((h.mem_iff r).2 (Or.inl hfreed))
    · rw [Function.update_of_ne hne] at ht'
      exact h.live ht'
  · rcases eq_or_ne t₁ t with rfl | hne₁
    · rw [Function.update_self, hpc'] at h₁
      obtain rfl := Option.some.inj h₁
      by_contra hne
      rw [Function.update_of_ne (Ne.symm hne)] at h₂
      exact hother h₂ rfl
    · rw [Function.update_of_ne hne₁] at h₁
      rcases eq_or_ne t₂ t with rfl | hne₂
      · rw [Function.update_self, hpc'] at h₂
        exact absurd (Option.some.inj h₂).symm (hother h₁)
      · rw [Function.update_of_ne hne₂] at h₂
        exact h.inj h₁ h₂

/-- A thread destroys its lease. -/
theorem Destroyed.destroy {freed freed' : Finset LeaseRef} (h : Destroyed pcs freed freed')
    (hpc : Pc.destroying (pcs t) = some r) (hpc' : Pc.destroying pc' = none) :
    Destroyed (Function.update pcs t pc') (insert r freed) freed' := by
  refine ⟨fun r' => ?_, fun {t' r'} ht' => ?_, fun {t₁ t₂ r'} h₁ h₂ => ?_⟩
  · rw [exists_update_iff, Finset.mem_insert, h.mem_iff r', exists_iff_of_ne Pc.destroying r' t,
      hpc, hpc', Option.some.injEq, @eq_comm _ r]
    simp only [reduceCtorEq, false_or]
    rw [or_left_comm, or_assoc]
  · rcases eq_or_ne t' t with rfl | hne
    · simp [hpc'] at ht'
    rw [Function.update_of_ne hne] at ht'
    rw [Finset.mem_insert, not_or]
    refine ⟨?_, h.live ht'⟩
    rintro rfl
    exact hne (h.inj ht' hpc)
  · rcases eq_or_ne t₁ t with rfl | hne₁
    · simp [hpc'] at h₁
    rcases eq_or_ne t₂ t with rfl | hne₂
    · simp [hpc'] at h₂
    rw [Function.update_of_ne hne₁] at h₁
    rw [Function.update_of_ne hne₂] at h₂
    exact h.inj h₁ h₂

/-! ## Runs of sections -/

theorem CriticalSection.Quiet.congr (he : e.Quiet Q a) (h : a'.poolName = a.poolName) :
    e.Quiet Q a' := by
  cases e with
  | acquire call answer => exact ⟨he.1, he.2.1, (served_congr h call).trans he.2.2⟩
  | reload => trivial
  | unbind | finish => exact he.elim

theorem CriticalSection.Quiet.onAcquire (he : e.Quiet Q a) : e.OnAcquire Q := by
  cases e with
  | acquire call answer => exact he.1
  | reload => trivial
  | unbind | finish => exact he.elim

/-- A quiet section changes the policy only. -/
theorem CriticalSection.Quiet.step (he : e.Quiet Q w.alloc) (t : T) : w.step parse e = some
    { w with alloc := { w.alloc with policy := policyAfter parse w.alloc.policy [(t, e)] } } := by
  cases e with
  | acquire call answer =>
    obtain ⟨-, rfl, hserved⟩ := he
    simp only [World.step, IpAllocator.acquireEnter_eq, hserved]
    rfl
  | reload file => rfl
  | unbind | finish => exact he.elim

/-- Quiet sections can always be gone through. -/
theorem run_late (h : World.Run parse (fun _ _ e => e.OnAcquire Q) alloc (es.map Prod.snd) w)
    (hquiet : ∀ x ∈ late, x.2.Quiet Q w.alloc) :
    World.Run parse (fun _ _ e => e.OnAcquire Q) alloc ((es ++ late).map Prod.snd)
      { w with alloc := { w.alloc with policy := policyAfter parse w.alloc.policy late } } := by
  induction late generalizing es w with
  | nil => simpa [policyAfter] using h
  | cons x late ih =>
    have hx := hquiet x (List.mem_cons_self ..)
    have hrun := h.snoc hx.onAcquire (hx.step x.1)
    have hes : es.map Prod.snd ++ [x.2] = (es ++ [x]).map Prod.snd := by simp
    rw [hes] at hrun
    have hlate := ih hrun fun y hy => (hquiet y (List.mem_cons_of_mem _ hy)).congr rfl
    simpa [policyAfter] using hlate

/-! ## The section of `acquire_address` as a whole -/

namespace IpAllocator

variable {s : IpAllocator} {call : AcquireCall} {ikeSa : IkeSa} {ip : Host} {isFixed : Bool}
  {dyn : Option DynamicPool}

/-- The section for a user with a lease. -/
theorem acquireEnter_of_lease (hserved : s.served call = some ikeSa)
    (hr : s.sessions.byUser.get (sessionName ikeSa) = some r) : s.acquireEnter call =
      (.done (if call.mem.result then some ((s.sessions.migrate (sessionName ikeSa) ikeSa.uniqueId
          call.now).2.obj r).ip else none),
        { s with sessions := (s.sessions.migrate (sessionName ikeSa) ikeSa.uniqueId
          call.now).2 }) := by
  rw [acquireEnter_eq, hserved]
  simp only [acquireSection, SessionManager.lookupByUser, hr]

/-- The section for a user without a lease, when an address is found. -/
theorem acquireEnter_of_address (hserved : s.served call = some ikeSa)
    (hn : s.sessions.byUser.get (sessionName ikeSa) = none)
    (hnew : s.newAddress (sessionName ikeSa) call.mem = (some ip, isFixed, dyn)) :
    s.acquireEnter call =
      (if call.mem.lease then if call.mem.result then .done (some ip) else .rollback
        else .done none,
        { s with
          dyn := dyn
          sessions := (s.sessions.bindLease (sessionName ikeSa) ikeSa.uniqueId ip isFixed call.now
            call.mem.lease).2 }) := by
  rw [acquireEnter_eq, hserved]
  simp only [acquireSection, SessionManager.lookupByUser, hn, hnew,
    SessionManager.bindLease_of_none _ _ _ _ _ _ hn]
  cases call.mem.lease with
  | false => rfl
  | true => simp [SessionManager.obj_putLease]

/-- The section for a user without a lease, when no address is found. -/
theorem acquireEnter_of_noAddress (hserved : s.served call = some ikeSa)
    (hn : s.sessions.byUser.get (sessionName ikeSa) = none)
    (hnew : s.newAddress (sessionName ikeSa) call.mem = (none, isFixed, dyn)) :
    s.acquireEnter call = (.done none, { s with dyn := dyn }) := by
  rw [acquireEnter_eq, hserved]
  simp only [acquireSection, SessionManager.lookupByUser, hn, hnew]

/-- A configured user gets the configured address. -/
theorem newAddress_of_fixed (hf : Pc.fixedFor s.policy call ikeSa = some ip) :
    s.newAddress (sessionName ikeSa) call.mem = (some ip, true, s.dyn) := by
  unfold newAddress
  simp only [hf]

/-- A user without a fixed address gets none if there is no pool. -/
theorem newAddress_of_noPool (hf : Pc.fixedFor s.policy call ikeSa = none) (hd : s.dyn = none) :
    s.newAddress (sessionName ikeSa) call.mem = (none, false, none) := by
  unfold newAddress
  simp only [hf, hd]

/-- A user without a fixed address gets what the pool answers. -/
theorem newAddress_of_pool (hf : Pc.fixedFor s.policy call ikeSa = none) {p p' : DynamicPool}
    {ip : Option Host} (hd : s.dyn = some p) (hp : p.acquire call.mem.poolHost = (ip, p')) :
    s.newAddress (sessionName ikeSa) call.mem = (ip, false, some p') := by
  unfold newAddress
  simp only [hf, hd, hp]

end IpAllocator

/-! ## One access -/

namespace Tracks

/-- What has to be shown when the thread `t` makes an access. The sections `new` have had their
effect now, and `done` is complete. -/
theorem update (h : Tracks parse Q past pcs a log es late w) (new : List CriticalSection)
    (hnew : Pc.committed (pcs t) ++ new = done.toList ++ Pc.committed pc')
    (hes : ∀ t', ofThread t' (es' ++ late') =
      ofThread t' (es ++ late ++ new.map fun e => (t, e)))
    (hknown : Pc.Known parse a' w'.alloc pc')
    (hname : a'.poolName = a.poolName) (hname' : w'.alloc.poolName = a'.poolName)
    (htimeout : w'.alloc.leaseTimeout = a'.leaseTimeout)
    (hsame : ∀ t' ≠ t, Pc.locked (pcs t') → a.sessions.SameTables a'.sessions ∧
      w.alloc.sessions.SameTables w'.alloc.sessions)
    (hother : ∀ t' ≠ t, ∀ call ikeSa, pcs t' = some (.dynAcquire call ikeSa) →
      w'.alloc.policy = w.alloc.policy)
    (hfree : ¬Pc.locked pc' → (∀ t' ≠ t, ¬Pc.locked (pcs t')) →
      a'.sessions.SameTables w'.alloc.sessions)
    (hdyn : w'.alloc.dyn = a'.dyn) (hpolicy : a'.policy = policyAfter parse w'.alloc.policy late')
    (hunbound : Unbound (Function.update pcs t pc') w'.pending)
    (hdestroyed : Destroyed (Function.update pcs t pc') a'.sessions.freed w'.alloc.sessions.freed)
    (hlate : Late Q (Function.update pcs t pc') w' late') (hok : a'.sessions.Ok)
    (hpast : ∀ x ∈ past, x.Kept (Away (Function.update pcs t pc')) es' late') :
    Tracks parse Q past (Function.update pcs t pc') a' (log ++ done.toList.map fun e => (t, e)) es'
      late' w' := by
  refine ⟨fun t' => ?_, fun t' => ?_, fun hnone => ?_, hdyn, hname', htimeout, hpolicy, hunbound,
    hdestroyed, hok, hpast, hlate⟩
  · rw [hes t', ofThread_append, h.order t', ofThread_append]
    rcases eq_or_ne t' t with rfl | hne
    · rw [Function.update_self, ofThread_map_self, ofThread_map_self, List.append_assoc, hnew,
        List.append_assoc]
    · rw [Function.update_of_ne hne, ofThread_map_of_ne hne.symm, ofThread_map_of_ne hne.symm,
        List.append_nil, List.append_nil]
  · rcases eq_or_ne t' t with rfl | hne
    · rwa [Function.update_self]
    · rw [Function.update_of_ne hne]
      exact (h.known t').congr hname (hsame t' hne) (hother t' hne)
  · refine hfree (by simpa using hnone t) fun t' hne => ?_
    simpa [Function.update_of_ne hne] using hnone t'

/-- If nobody has the lock, the tables are those that the sections lead to. -/
theorem free_of_others (h : Tracks parse Q past pcs a log es late w) (hout : ¬Pc.locked (pcs t))
    (hothers : ∀ t' ≠ t, ¬Pc.locked (pcs t')) : a.sessions.SameTables w.alloc.sessions := by
  refine h.free fun t' => ?_
  rcases eq_or_ne t' t with rfl | hne
  · exact hout
  · exact hothers t' hne

/-- As long as nobody is between the policy and the pool, there are no late sections. -/
theorem late_eq_nil (h : Tracks parse Q past pcs a log es late w)
    (hothers : ∀ t' ≠ t, ¬Pc.locked (pcs t'))
    (hpc : ∀ call ikeSa, pcs t ≠ some (.dynAcquire call ikeSa)) : late = [] := by
  by_contra hne
  obtain ⟨t', call, ikeSa, ht'⟩ := h.late.before hne
  have hne' : t' ≠ t := by
    rintro rfl
    exact hpc call ikeSa ht'
  exact hothers t' hne' (ht' ▸ Finset.mem_singleton_self _)

/-- If another thread has read the policy only, the thread is not at that point. -/
theorem late_update (h : Tracks parse Q past pcs a log es late w) (hname : w'.alloc.poolName =
      w.alloc.poolName) (hpc : ∀ call ikeSa, pcs t ≠ some (.dynAcquire call ikeSa))
    (hin : ¬Pc.locked (pcs t) → Pc.locked pc' → late = [])
    (hunbound : ¬Pc.locked (pcs t) → Pc.unbound (pcs t) = none → Pc.unbound pc' = none) :
    Late Q (Function.update pcs t pc') w' late := by
  refine ⟨fun x hx => (h.late.quiet x hx).congr hname, fun x hx => ?_, fun hne => ?_⟩
  · obtain ⟨hout, hnone⟩ := h.late.outside x hx
    rcases eq_or_ne x.1 t with heq | hne
    · rw [heq] at hout hnone ⊢
      rw [Function.update_self]
      refine ⟨fun hlocked => ?_, hunbound hout hnone⟩
      simp [hin hout hlocked] at hx
    · rw [Function.update_of_ne hne]
      exact ⟨hout, hnone⟩
  · obtain ⟨t', call, ikeSa, ht'⟩ := h.late.before hne
    refine ⟨t', call, ikeSa, ?_⟩
    rw [Function.update_of_ne, ht']
    rintro rfl
    exact hpc call ikeSa ht'

/-- A thread that is away stays so if there are late sections. -/
theorem past_update (h : Tracks parse Q past pcs a log es late w)
    (hin : ¬Pc.locked (pcs t) → Pc.locked pc' → late = [])
    (hunbound : ¬Pc.locked (pcs t) → Pc.unbound (pcs t) = none → Pc.unbound pc' = none) :
    ∀ x ∈ past, x.Kept (Away (Function.update pcs t pc')) es late :=
  fun x hx => (h.past x hx).mono fun hne => away_update fun ⟨hout, hnone⟩ =>
    ⟨fun hlocked => hne (hin hout hlocked), hunbound hout hnone⟩

/-- An access that others do not see. -/
theorem silent (h : Tracks parse Q past pcs a log es late w)
    (hnew : Pc.committed (pcs t) = done.toList ++ Pc.committed pc')
    (hknown : Pc.Known parse a w.alloc pc')
    (hunbound : Pc.unbound pc' = Pc.unbound (pcs t))
    (hdestroying : Pc.destroying pc' = Pc.destroying (pcs t))
    (hpc : ∀ call ikeSa, pcs t ≠ some (.dynAcquire call ikeSa))
    (hin : ¬Pc.locked (pcs t) → Pc.locked pc' → late = [])
    (hout : Pc.locked (pcs t) → ¬Pc.locked pc' → a.sessions.SameTables w.alloc.sessions) :
    Tracks parse Q past (Function.update pcs t pc') a (log ++ done.toList.map fun e => (t, e)) es
      late w := by
  refine h.update [] (by rw [List.append_nil, hnew]) (fun t' => by simp) hknown rfl
    h.poolName h.leaseTimeout (fun _ _ _ => ⟨.refl _, .refl _⟩) (fun _ _ _ _ _ => rfl)
    (fun hleft hothers => ?_) h.dyn h.policy (h.unbound.same hunbound)
    (h.destroyed.same hdestroying)
    (h.late_update rfl hpc hin fun _ hnone => hunbound.trans hnone) h.ok
    (h.past_update hin fun _ hnone => hunbound.trans hnone)
  by_cases hlocked : Pc.locked (pcs t)
  · exact hout hlocked hleft
  · exact h.free_of_others hlocked hothers

/-- The threads can come to be at the places `pcs` like this. -/
def Reached (parse : CString → Option Host) (Q : AcquireCall → Prop) (alloc : IpAllocator)
    (past : Set (Moment T CriticalSection)) (pcs : T → Option Pc) (a : IpAllocator)
    (log : List (T × CriticalSection)) : Prop :=
  ∃ es late w, World.Run parse (fun _ _ e => e.OnAcquire Q) alloc (es.map Prod.snd) w ∧
    Tracks parse Q past pcs a log es late w

/-- A quiet section has its effect, after the section of a thread that has read the policy, if there
is one. -/
theorem quiet (h : Tracks parse Q past pcs a log es late w)
    (hrun : World.Run parse (fun _ _ e => e.OnAcquire Q) alloc (es.map Prod.snd) w)
    (he : e.Quiet Q a)
    (hnew : Pc.committed (pcs t) ++ [e] = done.toList ++ Pc.committed pc')
    (ha' : a' = { a with policy := policyAfter parse a.policy [(t, e)] })
    (hknown : ∀ w, Pc.Known parse a' w pc')
    (hout : ¬Pc.locked (pcs t)) (hout' : ¬Pc.locked pc')
    (hunbound : Pc.unbound (pcs t) = none) (hunbound' : Pc.unbound pc' = none)
    (hdestroying : Pc.destroying pc' = Pc.destroying (pcs t)) :
    Reached parse Q alloc past (Function.update pcs t pc') a'
      (log ++ done.toList.map fun e => (t, e)) := by
  subst ha'
  have hquiet : ∀ x ∈ late ++ [(t, e)], x.2.Quiet Q w.alloc := by
    intro x hx
    rcases List.mem_append.1 hx with hx | hx
    · exact h.late.quiet x hx
    · obtain rfl := List.mem_singleton.1 hx
      exact he.congr h.poolName
  have hpolicy : policyAfter parse a.policy [(t, e)] =
      policyAfter parse w.alloc.policy (late ++ [(t, e)]) := by
    rw [h.policy]
    exact (List.foldl_append ..).symm
  have hfree (_ : ¬Pc.locked pc') (hothers : ∀ t' ≠ t, ¬Pc.locked (pcs t')) :=
    h.free_of_others hout hothers
  have hpc (call : AcquireCall) (ikeSa : IkeSa) : pcs t ≠ some (.dynAcquire call ikeSa) :=
    fun heq => hout (heq ▸ Finset.mem_singleton_self _)
  have hpast (x : Moment T CriticalSection) (hx : x ∈ past) :
      x.Kept (Away (Function.update pcs t pc')) es (late ++ [(t, e)]) :=
    ((h.past x hx).mono fun _ => away_update fun _ => ⟨hout', hunbound'⟩).snoc t e
  by_cases hdyn : ∃ t' call ikeSa, pcs t' = some (.dynAcquire call ikeSa)
  · refine ⟨es, late ++ [(t, e)], w, hrun, h.update _ hnew (fun t' => by simp) (hknown _) rfl
      h.poolName h.leaseTimeout (fun _ _ _ => ⟨.refl _, .refl _⟩) (fun _ _ _ _ _ => rfl) hfree h.dyn
      hpolicy (h.unbound.same (hunbound'.trans hunbound.symm)) (h.destroyed.same hdestroying)
      ⟨hquiet, fun x hx => ?_, fun _ => ?_⟩ h.ok hpast⟩
    · rcases eq_or_ne x.1 t with heq | hne
      · rw [heq, Function.update_self]
        exact ⟨hout', hunbound'⟩
      · rw [Function.update_of_ne hne]
        refine h.late.outside x ((List.mem_append.1 hx).resolve_right fun hx => ?_)
        exact hne (by rw [List.mem_singleton.1 hx])
    · obtain ⟨t', call, ikeSa, ht'⟩ := hdyn
      refine ⟨t', call, ikeSa, ?_⟩
      rw [Function.update_of_ne, ht']
      rintro rfl
      exact hpc call ikeSa ht'
  · have hnil : late = [] := by
      by_contra hne
      exact hdyn (h.late.before hne)
    subst hnil
    refine ⟨es ++ [(t, e)], [], _, run_late hrun hquiet, h.update _ hnew (fun t' => by simp)
      (hknown _) rfl h.poolName h.leaseTimeout (fun _ _ _ => ⟨.refl _, .refl _⟩)
      (fun t' _ call ikeSa ht' => absurd ⟨t', call, ikeSa, ht'⟩ hdyn) hfree h.dyn hpolicy
      (h.unbound.same (hunbound'.trans hunbound.symm)) (h.destroyed.same hdestroying) .nil
      h.ok fun x hx => (hpast x hx).flush⟩

/-- The section of a thread with the lock has its effect, and then the late ones have theirs. -/
theorem acquire (h : Tracks parse Q past pcs a log es late w)
    (hrun : World.Run parse (fun _ _ e => e.OnAcquire Q) alloc (es.map Prod.snd) w)
    {call : AcquireCall} {out : Acquired} {dyn : Option DynamicPool} {m m' : SessionManager}
    (hQ : Q call) (hacq : w.alloc.acquireEnter call =
      (out, { w.alloc with dyn := dyn, sessions := m' }))
    (hothers : ∀ t' ≠ t, ¬Pc.locked (pcs t'))
    (hlocked : Pc.locked (pcs t)) (hlocked' : Pc.locked pc')
    (hnew : Pc.committed (pcs t) ++ [.acquire call out] = Pc.committed pc')
    (ha' : a' = { a with dyn := dyn, sessions := m })
    (hknown : ∀ w : IpAllocator, w.sessions = m' → Pc.Known parse a' w pc')
    (hunbound : Pc.unbound pc' = Pc.unbound (pcs t))
    (hdestroying : Pc.destroying pc' = Pc.destroying (pcs t))
    (hok : m.Ok) (hfreed : m.freed = a.sessions.freed)
    (hfreed' : m'.freed = w.alloc.sessions.freed) :
    Reached parse Q alloc past (Function.update pcs t pc') a'
      (log ++ (none : Option CriticalSection).toList.map fun e => (t, e)) := by
  subst ha'
  have hstep : w.step parse (.acquire call out) =
      some { w with alloc := { w.alloc with dyn := dyn, sessions := m' } } := by
    simp [World.step, hacq]
  have hrun' : World.Run parse (fun _ _ e => e.OnAcquire Q) alloc
      ((es ++ [(t, CriticalSection.acquire call out)]).map Prod.snd)
      { w with alloc := { w.alloc with dyn := dyn, sessions := m' } } := by
    rw [List.map_append]
    exact hrun.snoc hQ hstep
  have hlate (x : T × CriticalSection) (hx : x ∈ late) : x.1 ≠ t := by
    rintro rfl
    exact (h.late.outside x hx).1 hlocked
  have horder (t' : T) :
      ofThread t' ((es ++ [(t, CriticalSection.acquire call out)] ++ late) ++ []) =
      ofThread t' (es ++ late ++ [CriticalSection.acquire call out].map fun e => (t, e)) := by
    rw [List.append_nil, List.append_assoc]
    exact ofThread_insert hlate
  refine ⟨_, [], _, run_late hrun' fun x hx => (h.late.quiet x hx).congr rfl,
    h.update _ hnew horder (hknown _ rfl) rfl h.poolName h.leaseTimeout
      (fun t' hne hl => absurd hl (hothers t' hne)) (fun t' hne call ikeSa ht' => ?_)
      (fun hleft => absurd hlocked' hleft) rfl h.policy (h.unbound.same hunbound) ?_ .nil hok
      fun x hx => ?_⟩
  · exact absurd (ht' ▸ Finset.mem_singleton_self _ : Pc.locked (pcs t')) (hothers t' hne)
  · dsimp only
    rw [hfreed, hfreed']
    exact h.destroyed.same hdestroying
  · have hinsert := (h.past x hx).insert (fun haway => haway.1 hlocked) hlate (.acquire call out)
    exact hinsert.flush.mono fun hne => absurd rfl hne

/-- The tables are those that the sections lead to, but for the lease that a thread is about to
bind. -/
theorem tables (h : Tracks parse Q past pcs a log es late w) :
    a.sessions.SameTables w.alloc.sessions ∨ ∃ n u ip fixed now, a.sessions.byUser.get n = none ∧
      (a.sessions.putLease n u ip fixed now).SameTables w.alloc.sessions := by
  by_cases hfree : ∀ t, ¬Pc.locked (pcs t)
  · exact Or.inl (h.free hfree)
  · push Not at hfree
    obtain ⟨t, hlocked⟩ := hfree
    have hknown := h.known t
    cases hpc : pcs t with
    | none => simp [hpc, Pc.locked] at hlocked
    | some pc =>
      rw [hpc] at hlocked hknown
      cases pc with
      | lookupByUser => exact Or.inl hknown.2
      | migrate | lookupFixed | dynAcquire => exact Or.inl hknown.2.1
      | bindLease call ikeSa ip isFixed =>
        obtain ⟨hn, hsess⟩ := hknown
        rw [SessionManager.bindLease_of_none _ _ _ _ _ _ hn] at hsess
        cases hlease : call.mem.lease with
        | false => exact Or.inl (by simpa [hlease] using hsess)
        | true => exact Or.inr ⟨_, _, _, _, _, hn, by simpa [hlease] using hsess⟩
      | acquireUnlock | unbind | releaseUnlock => exact Or.inl hknown
      | acquireAddress | acquireLock | releaseByUidImpl | dynRelease | leaseDestroy | reload
      | snapshotLoad | switch | reloadUnlock => simp [Pc.locked, Pc.locks] at hlocked

/-- A lease that the sections leave in no table is in none, and it is as they leave it. -/
theorem unfiled (h : Tracks parse Q past pcs a log es late w)
    (hlt : r < w.alloc.sessions.next) (hr : ∀ n, w.alloc.sessions.byUser.get n ≠ some r) :
    r < a.sessions.next ∧ (∀ n, a.sessions.byUser.get n ≠ some r) ∧
      w.alloc.sessions.obj r = a.sessions.obj r := by
  rcases h.tables with ⟨freed, hw⟩ | ⟨n, u, ip, fixed, now, hn, freed, hw⟩
  · rw [hw] at hlt hr ⊢
    exact ⟨hlt, hr, rfl⟩
  · rw [hw] at hlt hr ⊢
    -- the new lease is filed, and so it is another one
    have hne : r ≠ a.sessions.next := by
      rintro rfl
      exact hr n (by simp)
    refine ⟨lt_of_le_of_ne (Nat.lt_succ_iff.1 hlt) hne, fun n' hn' => hr n' ?_,
      Function.update_of_ne hne _ _⟩
    have hne' : n' ≠ n := by
      rintro rfl
      simp [hn] at hn'
    simpa [hne'] using hn'

/-- A lease taken out and not given back yet is filed under no name. -/
theorem unfiled_of_pending (h : Tracks parse Q past pcs a log es late w)
    (hok : w.alloc.Ok False w.pending) (hr : r ∈ w.pending) : r < a.sessions.next ∧
      (∀ n, a.sessions.byUser.get n ≠ some r) ∧
      w.alloc.sessions.obj r = a.sessions.obj r :=
  h.unfiled (hok.detached.lt hr) (hok.detached.unfiled hr)

/-- A lease that is about to be destroyed is filed under no name. -/
theorem unfiled_of_destroying (h : Tracks parse Q past pcs a log es late w)
    (hok : w.alloc.Ok False w.pending) (hr : Pc.destroying (pcs t) = some r) :
    r < a.sessions.next ∧ (∀ n, a.sessions.byUser.get n ≠ some r) ∧
      w.alloc.sessions.obj r = a.sessions.obj r := by
  have hfreed : r ∈ w.alloc.sessions.freed := (h.destroyed.mem_iff r).2 (Or.inr ⟨t, hr⟩)
  exact h.unfiled (hok.sessions.freed_lt hfreed) fun n hn => hok.sessions.notFreed hn hfreed

/-- The section of a thread that has found a lease. -/
theorem migrate (h : Tracks parse Q past pcs a log es late w)
    (hrun : World.Run parse (fun _ _ e => e.OnAcquire Q) alloc (es.map Prod.snd) w)
    {call : AcquireCall} {ikeSa : IkeSa} {m : SessionManager} (hQ : Q call)
    (hpc : pcs t = some (.migrate call ikeSa r)) (hothers : ∀ t' ≠ t, ¬Pc.locked (pcs t'))
    (hserved : a.served call = some ikeSa) (hsess : a.sessions.SameTables w.alloc.sessions)
    (hr : a.sessions.byUser.get (sessionName ikeSa) = some r)
    (hm : (a.sessions.migrate (sessionName ikeSa) ikeSa.uniqueId call.now).2 = m) :
    Reached parse Q alloc past
      (Function.update pcs t (some (.acquireUnlock call ikeSa
        (.done (if call.mem.result then some (m.obj r).ip else none)))))
      { a with sessions := m }
      (log ++ (none : Option CriticalSection).toList.map fun e => (t, e)) := by
  have hlocked : Pc.locked (pcs t) := hpc ▸ Finset.mem_singleton_self _
  have hr' : w.alloc.sessions.byUser.get (sessionName ikeSa) = some r := hsess.byUser ▸ hr
  have hacq := IpAllocator.acquireEnter_of_lease
    ((served_congr h.poolName call).trans hserved) hr'
  have hfreed := SessionManager.freed_migrate w.alloc.sessions (sessionName ikeSa)
    ikeSa.uniqueId call.now
  have hmig : m.SameTables
      (w.alloc.sessions.migrate (sessionName ikeSa) ikeSa.uniqueId call.now).2 :=
    hm ▸ hsess.migrate
  have hok : m.Ok := by
    rw [← hm, SessionManager.migrate_of_some _ _ _ _ hr]
    exact h.ok.moveLease hr
  obtain ⟨freed, hm'⟩ := hmig
  rw [hm'] at hacq hfreed
  exact h.acquire hrun hQ hacq hothers hlocked (Finset.mem_singleton_self _) (by rw [hpc]; rfl)
    (by rw [h.dyn]) (fun w hw => ⟨freed, hw⟩) (by rw [hpc]; rfl) (by rw [hpc]; rfl) hok
    (hm ▸ SessionManager.freed_migrate ..) hfreed

/-- The section of a thread that has found an address for a name that has no lease. -/
theorem acquire_address (h : Tracks parse Q past pcs a log es late w)
    (hrun : World.Run parse (fun _ _ e => e.OnAcquire Q) alloc (es.map Prod.snd) w)
    {call : AcquireCall} {ikeSa : IkeSa} {ip : Host} {isFixed : Bool} {dyn : Option DynamicPool}
    (hQ : Q call) (hserved : a.served call = some ikeSa)
    (hsess : a.sessions.SameTables w.alloc.sessions)
    (hn : a.sessions.byUser.get (sessionName ikeSa) = none)
    (haddress : w.alloc.newAddress (sessionName ikeSa) call.mem = (some ip, isFixed, dyn))
    (hothers : ∀ t' ≠ t, ¬Pc.locked (pcs t')) (hlocked : Pc.locked (pcs t))
    (hcommitted : Pc.committed (pcs t) = []) (hunbound : Pc.unbound (pcs t) = none)
    (hdestroying : Pc.destroying (pcs t) = none) (ha' : a' = { a with dyn := dyn }) :
    Reached parse Q alloc past
      (Function.update pcs t (some (.bindLease call ikeSa ip isFixed))) a'
      (log ++ (none : Option CriticalSection).toList.map fun e => (t, e)) := by
  have hn' : w.alloc.sessions.byUser.get (sessionName ikeSa) = none := hsess.byUser ▸ hn
  have hacq := IpAllocator.acquireEnter_of_address
    ((served_congr h.poolName call).trans hserved) hn' haddress
  subst ha'
  refine h.acquire (m := a.sessions) hrun hQ hacq hothers hlocked (Finset.mem_singleton_self _)
    (by rw [hcommitted]; rfl) rfl (fun w hw => ⟨hn, ?_⟩) hunbound.symm hdestroying.symm h.ok rfl
    (SessionManager.freed_bindLease hn')
  rw [hw]
  exact (hsess.bindLease hn).2

/-- The section of a thread that has found no address. -/
theorem acquire_noAddress (h : Tracks parse Q past pcs a log es late w)
    (hrun : World.Run parse (fun _ _ e => e.OnAcquire Q) alloc (es.map Prod.snd) w)
    {call : AcquireCall} {ikeSa : IkeSa} {isFixed : Bool} {dyn : Option DynamicPool}
    (hQ : Q call) (hserved : a.served call = some ikeSa)
    (hsess : a.sessions.SameTables w.alloc.sessions)
    (hn : a.sessions.byUser.get (sessionName ikeSa) = none)
    (haddress : w.alloc.newAddress (sessionName ikeSa) call.mem = (none, isFixed, dyn))
    (hothers : ∀ t' ≠ t, ¬Pc.locked (pcs t')) (hlocked : Pc.locked (pcs t))
    (hcommitted : Pc.committed (pcs t) = []) (hunbound : Pc.unbound (pcs t) = none)
    (hdestroying : Pc.destroying (pcs t) = none) (ha' : a' = { a with dyn := dyn }) :
    Reached parse Q alloc past
      (Function.update pcs t (some (.acquireUnlock call ikeSa (.done none)))) a'
      (log ++ (none : Option CriticalSection).toList.map fun e => (t, e)) := by
  have hn' : w.alloc.sessions.byUser.get (sessionName ikeSa) = none := hsess.byUser ▸ hn
  have hacq := IpAllocator.acquireEnter_of_noAddress
    ((served_congr h.poolName call).trans hserved) hn' haddress
  subst ha'
  refine h.acquire (m := a.sessions) hrun hQ hacq hothers hlocked (Finset.mem_singleton_self _)
    (by rw [hcommitted]; rfl) rfl (fun w' hw => ?_) hunbound.symm hdestroying.symm h.ok rfl rfl
  have hkeep : a.sessions.SameTables w'.sessions := by rwa [hw]
  exact hkeep

/-- A new lease has been bound in the order already. -/
theorem bind (h : Tracks parse Q past pcs a log es late w) {call : AcquireCall} {ikeSa : IkeSa}
    {ip : Host} {isFixed : Bool} {m : SessionManager} {lease : Option LeaseRef}
    (hpc : pcs t = some (.bindLease call ikeSa ip isFixed))
    (hothers : ∀ t' ≠ t, ¬Pc.locked (pcs t'))
    (hm : a.sessions.bindLease (sessionName ikeSa) ikeSa.uniqueId ip isFixed call.now
      call.mem.lease = (lease, m)) :
    Tracks parse Q past
      (Function.update pcs t (some (.acquireUnlock call ikeSa (Pc.bound call m lease))))
      { a with sessions := m } (log ++ (none : Option CriticalSection).toList.map fun e => (t, e))
      es late w := by
  have hknown := h.known t
  rw [hpc] at hknown
  obtain ⟨hn, hsess⟩ := hknown
  rw [hm] at hsess
  have hlocked : Pc.locked (pcs t) := hpc ▸ Finset.mem_singleton_self _
  have hfreed : m.freed = a.sessions.freed := by
    rw [← SessionManager.freed_bindLease hn, hm]
  rw [SessionManager.bindLease_of_none _ _ _ _ _ _ hn] at hm
  have hok : m.Ok ∧ Pc.committed (pcs t) =
      Pc.committed (some (.acquireUnlock call ikeSa (Pc.bound call m lease))) := by
    rw [hpc]
    cases hlease : call.mem.lease with
    | false =>
      rw [hlease] at hm
      obtain ⟨rfl, rfl⟩ := Prod.mk.inj hm
      exact ⟨h.ok, by simp [Pc.committed, Pc.bound, hlease]⟩
    | true =>
      rw [hlease] at hm
      obtain ⟨rfl, rfl⟩ := Prod.mk.inj hm
      exact ⟨h.ok.putLease hn,
        by simp [Pc.committed, Pc.bound, hlease, SessionManager.obj_putLease]⟩
  refine h.update [] (by rw [List.append_nil, hok.2]; rfl) (fun t' => by simp) hsess rfl h.poolName
    h.leaseTimeout (fun t' hne hl => absurd hl (hothers t' hne)) (fun _ _ _ _ _ => rfl)
    (fun hleft => absurd (Finset.mem_singleton_self _) hleft) h.dyn h.policy
    (h.unbound.same (by rw [hpc]; rfl)) (hfreed ▸ h.destroyed.same (by rw [hpc]; rfl)) ?_ hok.1
    (h.past_update (fun hout => absurd hlocked hout) fun hout => absurd hlocked hout)
  rw [h.late_eq_nil hothers (by simp [hpc])]
  exact .nil

/-- A thread with the lock takes a lease out, or finds none. -/
theorem unbind (h : Tracks parse Q past pcs a log es late w)
    (hrun : World.Run parse (fun _ _ e => e.OnAcquire Q) alloc (es.map Prod.snd) w)
    (hok : w.alloc.Ok False w.pending) {uid : UInt32} {m : SessionManager} {lease : Option LeaseRef}
    (hpc : pcs t = some (.unbind uid)) (hothers : ∀ t' ≠ t, ¬Pc.locked (pcs t'))
    (hm : a.sessions.unbind uid = (lease, m)) :
    Reached parse Q alloc past (Function.update pcs t (some (.releaseUnlock uid lease)))
      { a with sessions := m }
      (log ++ (none : Option CriticalSection).toList.map fun e => (t, e)) := by
  have hsess : a.sessions.SameTables w.alloc.sessions := by
    have hknown := h.known t
    rwa [hpc] at hknown
  have hlocked : Pc.locked (pcs t) := hpc ▸ Finset.mem_singleton_self _
  obtain rfl := h.late_eq_nil hothers (by simp [hpc])
  have hbyUid : w.alloc.sessions.byUid = a.sessions.byUid := by
    obtain ⟨freed, hw⟩ := hsess
    rw [hw]
  have hunbound : Pc.unbound (pcs t) = none := by rw [hpc]; rfl
  have hnew : Pc.committed (pcs t) ++ [.unbind uid] = (none : Option CriticalSection).toList ++
      Pc.committed (some (.releaseUnlock uid lease)) := by rw [hpc]; rfl
  have horder (t' : T) : ofThread t' ((es ++ [(t, CriticalSection.unbind uid)]) ++ []) =
      ofThread t' (es ++ [] ++ [CriticalSection.unbind uid].map fun e => (t, e)) := by simp
  have hpast (pc' : Option Pc) (x : Moment T CriticalSection) (hx : x ∈ past) :
      x.Kept (Away (Function.update pcs t pc')) (es ++ [(t, .unbind uid)]) [] :=
    ((h.past x hx).insert (fun haway => haway.1 hlocked) (by simp) _).mono fun hne =>
      absurd rfl hne
  refine ⟨es ++ [(t, .unbind uid)], [], ?_⟩
  rw [List.map_append]
  cases hu : a.sessions.byUid.get uid with
  | none =>
    rw [SessionManager.unbind_of_none _ _ hu] at hm
    obtain ⟨rfl, rfl⟩ := Prod.mk.inj hm
    have hstep : w.step parse (.unbind uid) = some w := by
      simp [World.step, IpAllocator.releaseUnbind_of_none (hbyUid ▸ hu)]
    exact ⟨w, hrun.snoc trivial hstep, h.update _ hnew horder hsess rfl h.poolName h.leaseTimeout
      (fun t' hne hl => absurd hl (hothers t' hne)) (fun _ _ _ _ _ => rfl)
      (fun hleft => absurd (Finset.mem_singleton_self _) hleft) h.dyn h.policy
      (h.unbound.same hunbound.symm) (h.destroyed.same (by rw [hpc]; rfl)) .nil h.ok (hpast _)⟩
  | some r =>
    rw [SessionManager.unbind_of_some _ _ _ hu] at hm
    obtain ⟨rfl, rfl⟩ := Prod.mk.inj hm
    have hu' : w.alloc.sessions.byUid.get uid = some r := hbyUid ▸ hu
    have hstep : w.step parse (.unbind uid) = some
        ⟨{ w.alloc with sessions := w.alloc.sessions.removeLease uid r }, r :: w.pending⟩ := by
      simp [World.step, IpAllocator.releaseUnbind_of_some hu']
    have hfresh : r ∉ w.pending := fun hr =>
      hok.detached.unfiled hr _ (hok.sessions.filed.toB hu')
    exact ⟨_, hrun.snoc trivial hstep, h.update _ hnew horder hsess.removeLease rfl h.poolName
      h.leaseTimeout (fun t' hne hl => absurd hl (hothers t' hne)) (fun _ _ _ _ _ => rfl)
      (fun hleft => absurd (Finset.mem_singleton_self _) hleft) h.dyn h.policy
      (h.unbound.unbind hunbound rfl hfresh) (h.destroyed.same (by rw [hpc]; rfl)) .nil
      (h.ok.removeLease hu) (hpast _)⟩

/-- A thread gives an address back, before the late sections. -/
theorem release (h : Tracks parse Q past pcs a log es late w)
    (hrun : World.Run parse (fun _ _ e => e.OnAcquire Q) alloc (es.map Prod.snd) w)
    (hok : w.alloc.Ok False w.pending) (hpc : pcs t = some (.dynRelease r)) :
    Reached parse Q alloc past (Function.update pcs t (some (.leaseDestroy r)))
      { a with dyn := (a.releaseFinish r).dyn }
      (log ++ (none : Option CriticalSection).toList.map fun e => (t, e)) := by
  have hout : ¬Pc.locked (pcs t) := by simp [hpc, Pc.locked, Pc.locks]
  have hunbound : Pc.unbound (pcs t) = some r := by rw [hpc]; rfl
  have hr : r ∈ w.pending := (h.unbound.mem_iff r).2 ⟨t, hunbound⟩
  have hdyn : (w.alloc.releaseFinish r).dyn = (a.releaseFinish r).dyn := by
    simp only [IpAllocator.releaseFinish, (h.unfiled_of_pending hok hr).2.2, h.dyn]
  have hstep : w.step parse (.finish r) =
      some ⟨w.alloc.releaseFinish r, w.pending.erase r⟩ := by
    simp [World.step, hr]
  have hrun' : World.Run parse (fun _ _ e => e.OnAcquire Q) alloc
      ((es ++ [(t, CriticalSection.finish r)]).map Prod.snd)
      ⟨w.alloc.releaseFinish r, w.pending.erase r⟩ := by
    rw [List.map_append]
    exact hrun.snoc trivial hstep
  have hlate (x : T × CriticalSection) (hx : x ∈ late) : x.1 ≠ t := by
    rintro rfl
    simp [(h.late.outside x hx).2] at hunbound
  have horder (t' : T) : ofThread t' ((es ++ [(t, CriticalSection.finish r)]) ++ late) =
      ofThread t' (es ++ late ++ [CriticalSection.finish r].map fun e => (t, e)) := by
    rw [List.append_assoc]
    exact ofThread_insert hlate
  refine ⟨_, late, _, hrun', h.update _ (by rw [hpc]; rfl) horder trivial rfl h.poolName
    h.leaseTimeout (fun _ _ _ => ⟨.refl _, .leaseDestroy _ _⟩) (fun _ _ _ _ _ => rfl)
    (fun _ hothers => (h.free_of_others hout hothers).trans (.leaseDestroy _ _)) hdyn h.policy
    (h.unbound.release hunbound rfl hok.detached.nodup)
    (h.destroyed.release (by rw [hpc]; rfl) rfl (hok.detached.notFreed hr))
    (h.late_update rfl (by simp [hpc]) (fun _ hin => by simp [Pc.locked, Pc.locks] at hin)
      fun _ _ => rfl) h.ok fun x hx => ?_⟩
  have hinsert := (h.past x hx).insert (fun haway => by simp [haway.2] at hunbound) hlate
    (.finish r)
  exact hinsert.mono fun _ => away_update fun _ => ⟨by simp [Pc.locked, Pc.locks], rfl⟩

/-- A lease is destroyed that counts as destroyed in the order already. -/
theorem destroy (h : Tracks parse Q past pcs a log es late w) (hok : w.alloc.Ok False w.pending)
    (hpc : pcs t = some (.leaseDestroy r)) :
    Tracks parse Q past (Function.update pcs t none)
      { a with sessions := a.sessions.leaseDestroy r }
      (log ++ (some (CriticalSection.finish r)).toList.map fun e => (t, e)) es late w := by
  have hdestroying : Pc.destroying (pcs t) = some r := by rw [hpc]; rfl
  obtain ⟨hlt, hunfiled, -⟩ := h.unfiled_of_destroying hok hdestroying
  have hout : ¬Pc.locked (pcs t) := by simp [hpc, Pc.locked, Pc.locks]
  exact h.update [] (by rw [hpc]; rfl) (fun t' => by simp) trivial rfl h.poolName h.leaseTimeout
    (fun _ _ _ => ⟨.leaseDestroy _ _, .refl _⟩) (fun _ _ _ _ _ => rfl)
    (fun _ hothers => (SessionManager.SameTables.leaseDestroy _ _).symm.trans
      (h.free_of_others hout hothers))
    h.dyn h.policy (h.unbound.same (by rw [hpc]; rfl)) (h.destroyed.destroy hdestroying rfl)
    (h.late_update rfl (by simp [hpc]) (fun _ hin => by simp [Pc.locked] at hin) fun _ _ => rfl)
    (h.ok.leaseDestroy hlt hunfiled)
    (h.past_update (fun _ hin => by simp [Pc.locked] at hin) fun _ _ => rfl)

/-- Each access keeps the order of the sections, and no thread notices. -/
theorem step (h : Tracks parse Q past pcs a log es late w)
    (hrun : World.Run parse (fun _ _ e => e.OnAcquire Q) alloc (es.map Prod.snd) w)
    (hok : w.alloc.Ok False w.pending) {pc : Pc} (hpc : pcs t = some pc) (hQ : pc.OnCall Q)
    (hothers : Pc.locked (some pc) ∨ Pc.locked pc' → ∀ t' ≠ t, ¬Pc.locked (pcs t'))
    (hcase : Pc.NextCase parse a pc a' pc' done) :
    Reached parse Q alloc past (Function.update pcs t pc') a'
      (log ++ done.toList.map fun e => (t, e)) := by
  have hknown := h.known t
  have hnil (hlock : Pc.locked (some pc) ∨ Pc.locked pc')
      (hdyn : ∀ call ikeSa, pcs t ≠ some (.dynAcquire call ikeSa)) : late = [] :=
    h.late_eq_nil (hothers hlock) hdyn
  have hsame (hout : ¬Pc.locked (pcs t)) (hin : Pc.locked pc') :
      a.sessions.SameTables w.alloc.sessions :=
    h.free_of_others hout (hothers (Or.inr hin))
  have hpolicy (hlock : Pc.locked (some pc)) (hdyn : ∀ call ikeSa, pcs t ≠ some (.dynAcquire call
      ikeSa)) : a.policy = w.alloc.policy := by
    have hafter := h.policy
    rwa [hnil (Or.inl hlock) hdyn] at hafter
  have hsilent (ha : a' = a) (hdyn : ∀ call ikeSa, pc ≠ .dynAcquire call ikeSa)
      (hnew : Pc.committed (some pc) = done.toList ++ Pc.committed pc')
      (hknown : Pc.Known parse a w.alloc pc')
      (hunbound : Pc.unbound pc' = Pc.unbound (some pc))
      (hdestroying : Pc.destroying pc' = Pc.destroying (some pc))
      (hout : Pc.locked (some pc) → ¬Pc.locked pc' → a.sessions.SameTables w.alloc.sessions) :
      Reached parse Q alloc past (Function.update pcs t pc') a'
        (log ++ done.toList.map fun e => (t, e)) := by
    subst ha
    rw [← hpc] at hnew hunbound hdestroying hout
    have hdyn' (call : AcquireCall) (ikeSa : IkeSa) : pcs t ≠ some (.dynAcquire call ikeSa) :=
      fun heq => hdyn call ikeSa (Option.some.inj (hpc.symm.trans heq))
    exact ⟨es, late, w, hrun, h.silent hnew hknown hunbound hdestroying hdyn'
      (fun _ hin => hnil (Or.inr hin) hdyn') hout⟩
  rw [hpc] at hknown
  cases hcase with
  | @skip call hskip =>
    exact h.quiet hrun (e := .acquire call (.done none)) ⟨hQ, rfl, hskip⟩ (by rw [hpc]; rfl) rfl
      (fun _ => trivial) (by simp [hpc, Pc.locked, Pc.locks]) (by simp [Pc.locked])
      (by rw [hpc]; rfl) rfl (by rw [hpc]; rfl)
  | enter henter => exact hsilent rfl (by simp) rfl henter rfl rfl (by simp [Pc.locked, Pc.locks])
  | lock =>
    refine hsilent rfl (by simp) rfl ⟨hknown, ?_⟩ rfl rfl (by simp [Pc.locked, Pc.locks])
    exact hsame (by simp [hpc, Pc.locked, Pc.locks]) (Finset.mem_singleton_self _)
  | found hr =>
    obtain ⟨hs, hsess⟩ := hknown
    exact hsilent rfl (by simp) rfl ⟨hs, hsess, hr⟩ rfl rfl (by simp [Pc.locked, Pc.locks])
  | missing hn =>
    obtain ⟨hs, hsess⟩ := hknown
    exact hsilent rfl (by simp) rfl ⟨hs, hsess, hn⟩ rfl rfl (by simp [Pc.locked, Pc.locks])
  | migrate hm =>
    obtain ⟨hs, hsess, hr⟩ := hknown
    exact h.migrate hrun hQ hpc (hothers (Or.inl (Finset.mem_singleton_self _))) hs hsess hr hm
  | @fixed call ikeSa ip hf =>
    obtain ⟨hs, hsess, hn⟩ := hknown
    have hlocked : Pc.locked (some (.lookupFixed call ikeSa)) := Finset.mem_singleton_self _
    have hf' : Pc.fixedFor w.alloc.policy call ikeSa = some ip :=
      hpolicy hlocked (by simp [hpc]) ▸ hf
    exact h.acquire_address hrun hQ hs hsess hn (IpAllocator.newAddress_of_fixed hf')
      (hothers (Or.inl hlocked)) (hpc ▸ hlocked) (by rw [hpc]; rfl) (by rw [hpc]; rfl)
      (by rw [hpc]; rfl) (by rw [h.dyn])
  | notFixed hf =>
    obtain ⟨hs, hsess, hn⟩ := hknown
    refine hsilent rfl (by simp) rfl ⟨hs, hsess, hn, ?_⟩ rfl rfl (by simp [Pc.locked, Pc.locks])
    rwa [← hpolicy (Finset.mem_singleton_self _) (by simp [hpc])]
  | @noPool call ikeSa hd =>
    obtain ⟨hs, hsess, hn, hf⟩ := hknown
    have hlocked : Pc.locked (some (.dynAcquire call ikeSa)) := Finset.mem_singleton_self _
    exact h.acquire_noAddress hrun hQ hs hsess hn
      (IpAllocator.newAddress_of_noPool hf (h.dyn.trans hd)) (hothers (Or.inl hlocked))
      (hpc ▸ hlocked) (by rw [hpc]; rfl) (by rw [hpc]; rfl) (by rw [hpc]; rfl) (by rw [← hd])
  | @pool call ikeSa p p' ip hd hp =>
    obtain ⟨hs, hsess, hn, hf⟩ := hknown
    have hlocked : Pc.locked (some (.dynAcquire call ikeSa)) := Finset.mem_singleton_self _
    exact h.acquire_address hrun hQ hs hsess hn
      (IpAllocator.newAddress_of_pool hf (h.dyn.trans hd) hp) (hothers (Or.inl hlocked))
      (hpc ▸ hlocked) (by rw [hpc]; rfl) (by rw [hpc]; rfl) (by rw [hpc]; rfl) rfl
  | @full call ikeSa p p' hd hp =>
    obtain ⟨hs, hsess, hn, hf⟩ := hknown
    have hlocked : Pc.locked (some (.dynAcquire call ikeSa)) := Finset.mem_singleton_self _
    exact h.acquire_noAddress hrun hQ hs hsess hn
      (IpAllocator.newAddress_of_pool hf (h.dyn.trans hd) hp) (hothers (Or.inl hlocked))
      (hpc ▸ hlocked) (by rw [hpc]; rfl) (by rw [hpc]; rfl) (by rw [hpc]; rfl) rfl
  | bind hm =>
    exact ⟨es, late, w, hrun, h.bind hpc (hothers (Or.inl (Finset.mem_singleton_self _))) hm⟩
  | unlock => exact hsilent rfl (by simp) rfl trivial rfl rfl fun _ _ => hknown
  | rollback => exact hsilent rfl (by simp) rfl trivial rfl rfl fun _ _ => hknown
  | releaseLock =>
    refine hsilent rfl (by simp) rfl ?_ rfl rfl (by simp [Pc.locked, Pc.locks])
    exact hsame (by simp [hpc, Pc.locked, Pc.locks]) (Finset.mem_singleton_self _)
  | unbind hm =>
    exact h.unbind hrun hok hpc (hothers (Or.inl (Finset.mem_singleton_self _))) hm
  | @releaseUnlock uid lease =>
    cases lease with
    | none => exact hsilent rfl (by simp) rfl trivial rfl rfl fun _ _ => hknown
    | some r => exact hsilent rfl (by simp) rfl trivial rfl rfl fun _ _ => hknown
  | dynRelease => exact h.release hrun hok hpc
  | leaseDestroy => exact ⟨es, late, w, hrun, h.destroy hok hpc⟩
  | reloadLock => exact hsilent rfl (by simp) rfl trivial rfl rfl (by simp [Pc.locked, Pc.locks])
  | loaded hload => exact hsilent rfl (by simp) rfl hload rfl rfl (by simp [Pc.locked, Pc.locks])
  | @notLoaded file hload =>
    have hpolicy : policyAfter parse a.policy [(t, .reload file)] = a.policy := by
      simp [policyAfter, PolicyEngine.reload, hload]
    exact h.quiet hrun (e := .reload file) trivial (by rw [hpc]; rfl) (by rw [hpolicy])
      (fun _ => trivial) (by simp [hpc, Pc.locked, Pc.locks]) (by simp [Pc.locked, Pc.locks])
      (by rw [hpc]; rfl) rfl (by rw [hpc]; rfl)
  | @switch file fresh =>
    have hpolicy : policyAfter parse a.policy [(t, .reload file)] = ⟨fresh⟩ := by
      simp [policyAfter, PolicyEngine.reload, show snapshotLoad parse file = some fresh from hknown]
    exact h.quiet hrun (e := .reload file) trivial (by rw [hpc]; rfl) (by rw [hpolicy])
      (fun _ => trivial) (by simp [hpc, Pc.locked, Pc.locks]) (by simp [Pc.locked, Pc.locks])
      (by rw [hpc]; rfl) rfl (by rw [hpc]; rfl)
  | reloadUnlock => exact hsilent rfl (by simp) rfl trivial rfl rfl (by simp [Pc.locked, Pc.locks])

end Tracks

end Cupp
