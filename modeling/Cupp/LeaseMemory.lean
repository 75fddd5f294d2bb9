import Cupp.Linearizable

/-!
# The memory of leases

`lease_create` makes a lease, and `lease_destroy` is to be called on it once : at the end of its
release, or for the leases that are left, when the allocator is destroyed. `World.Ledger` is the
account of the leases in `World`, and threads that interleave access by access keep it. They do not
touch a lease that has been destroyed, but for the callback of a sweep, whose snapshot may be out of
date (`accesses_live`). Over the life of an allocator no lease is destroyed twice
(`destroyed_once`). All are destroyed iff the two tables hold the same leases, since
`session_manager_destroy` looks for leases in `by_uid` only.
-/

set_option linter.unusedSectionVars false

open Concurrent Shuffle Transition

namespace Cupp

/-! ## The end of the allocator -/

/-- `session_manager_destroy`, with the entries of `by_uid` in the order they are enumerated. -/
def SessionManager.destroy (this : SessionManager) (entries : List (Σ _ : UInt32, LeaseRef)) :
    SessionManager :=
  entries.foldl (fun this e => this.leaseDestroy e.2) this

/-- The pool goes first. -/
def ipAllocatorDestroy (this : IpAllocator) (entries : List (Σ _ : UInt32, LeaseRef)) :
    IpAllocator :=
  { this with
    dyn := none
    sessions := this.sessions.destroy entries }

/-- The lease that is destroyed at the end of a section. -/
def CriticalSection.destroyed : CriticalSection → Option LeaseRef
  | finish lease => some lease
  | acquire .. | unbind _ | reload _ => none

/-- The leases that are destroyed in the sections `es`. -/
def destroyedIn (es : List CriticalSection) : List LeaseRef :=
  es.filterMap CriticalSection.destroyed

variable {T : Type} [DecidableEq T] {parse : CString → Option Host} {Q : AcquireCall → Prop}
  {policy : PolicyEngine} {poolName : Option CString} {leaseTimeout : UInt32}
  {calloc : Option (ℕ → UInt8)} {es : List CriticalSection} {w w' : World} {e : CriticalSection}
  {m : SessionManager} {r : LeaseRef}
  {guard : List CriticalSection → World → CriticalSection → Prop} {alloc a : IpAllocator}

/-- The leases that are freed with the manager are those it lists. -/
theorem SessionManager.mem_freed_destroy (m : SessionManager)
    (entries : List (Σ _ : UInt32, LeaseRef)) (r : LeaseRef) :
    r ∈ (m.destroy entries).freed ↔ r ∈ m.freed ∨ r ∈ entries.map fun e => e.2 := by
  unfold destroy
  induction entries generalizing m with
  | nil => simp
  | cons e entries ih =>
    rw [List.foldl_cons, ih, List.map_cons, List.mem_cons]
    simp only [leaseDestroy, Finset.mem_insert]
    tauto

/-! ## The account of the leases -/

/-- The sections `es` have destroyed what is destroyed, each lease once, and the other leases are in
a table or their release is under way. -/
structure World.Ledger (w : World) (es : List CriticalSection) : Prop where
  nodup : (destroyedIn es).Nodup
  freed : ∀ r, r ∈ w.alloc.sessions.freed ↔ r ∈ destroyedIn es
  made : ∀ r < w.alloc.sessions.next, r ∈ w.alloc.sessions.freed ∨ r ∈ w.pending ∨
    ∃ n, w.alloc.sessions.byUser.get n = some r

/-- A section that destroys nothing. -/
theorem World.Ledger.keep (h : w.Ledger es) (he : e.destroyed = none)
    (hfreed : w'.alloc.sessions.freed = w.alloc.sessions.freed)
    (hmade : ∀ r < w'.alloc.sessions.next, r ∈ w.alloc.sessions.freed ∨ r ∈ w'.pending ∨
      ∃ n, w'.alloc.sessions.byUser.get n = some r) : w'.Ledger (es ++ [e]) := by
  have hes : destroyedIn (es ++ [e]) = destroyedIn es := by simp [destroyedIn, he]
  refine ⟨hes ▸ h.nodup, fun r => ?_, fun r hr => hfreed ▸ hmade r hr⟩
  rw [hfreed, hes, h.freed r]

/-- A section keeps the account of the leases. -/
theorem World.Ledger.step (h : w.Ledger es) (hok : w.alloc.Ok False w.pending)
    (hs : w.step parse e = some w') : w'.Ledger (es ++ [e]) := by
  cases step_cases hs with
  | @acquire call out alloc hacq =>
    cases IpAllocator.acquireEnter_cases hacq with
    | skipped => exact h.keep rfl rfl h.made
    | reused => exact h.keep rfl rfl h.made
    | refused => exact h.keep rfl rfl h.made
    | @bound ikeSa ip isFixed dyn _ hn _ _ =>
      refine h.keep rfl rfl fun r hr => ?_
      rcases Nat.lt_succ_iff_lt_or_eq.1 hr with hr | rfl
      · rcases h.made r hr with hfreed | hpending | ⟨n, hnr⟩
        · exact Or.inl hfreed
        · exact Or.inr (Or.inl hpending)
        · have hne : n ≠ sessionName ikeSa := by
            rintro rfl
            simp [hn] at hnr
          exact Or.inr (Or.inr ⟨n, by simpa [hne] using hnr⟩)
      · exact Or.inr (Or.inr ⟨sessionName ikeSa, by simp⟩)
  | unbindNone => exact h.keep rfl rfl h.made
  | @unbindSome uid r hu =>
    refine h.keep rfl rfl fun r' hr' => ?_
    rcases h.made r' hr' with hfreed | hpending | ⟨n, hn⟩
    · exact Or.inl hfreed
    · exact Or.inr (Or.inl (List.mem_cons_of_mem r hpending))
    · rcases eq_or_ne n (w.alloc.sessions.user r) with rfl | hne
      · obtain rfl := Option.some.inj ((hok.sessions.filed.toB hu).symm.trans hn)
        exact Or.inr (Or.inl List.mem_cons_self)
      · exact Or.inr (Or.inr ⟨n, by simpa [hne] using hn⟩)
  | @finish r hr =>
    have hes : destroyedIn (es ++ [.finish r]) = destroyedIn es ++ [r] := by
      simp [destroyedIn, CriticalSection.destroyed]
    refine ⟨?_, fun r' => ?_, fun r' hr' => ?_⟩
    · rw [hes, ← List.concat_eq_append]
      exact h.nodup.concat fun hmem => hok.detached.notFreed hr ((h.freed r).2 hmem)
    · rw [hes, List.mem_append, List.mem_singleton, ← h.freed r', or_comm]
      exact Finset.mem_insert
    · rcases eq_or_ne r' r with rfl | hne
      · exact Or.inl (Finset.mem_insert_self ..)
      · exact (h.made r' hr').imp (Finset.mem_insert_of_mem ·)
          (Or.imp_left fun hpending => (List.mem_erase_of_ne hne).2 hpending)
  | reload => exact h.keep rfl rfl h.made

/-- The account holds in all runs of sections. -/
theorem World.ledger_of_run
    (h : World.Run parse guard (ipAllocatorCreate policy poolName leaseTimeout calloc) es w) :
    w.Ledger es := by
  refine h.induction (P := fun es w => w.Ledger es) ⟨List.nodup_nil, ?_, ?_⟩
    fun es w e w' hrun hi _ hs => hi.step (loose_of_create hrun) hs
  · simp [start, ipAllocatorCreate, SessionManager.create, destroyedIn]
  · simp [start, ipAllocatorCreate, SessionManager.create]

/-! ## What is left at the end -/

/-- The manager lists the leases filed under unique ids. -/
theorem mem_map_entries {entries : List (Σ _ : UInt32, LeaseRef)}
    (hentries : Hashtable.Enumerates entries m.byUid) (r : LeaseRef) :
    (r ∈ entries.map fun e => e.2) ↔ ∃ u, m.byUid.get u = some r := by
  rw [List.mem_map]
  constructor
  · rintro ⟨⟨u, r⟩, hmem, rfl⟩
    exact ⟨u, (hentries.mem_iff u r).1 hmem⟩
  · rintro ⟨u, hu⟩
    exact ⟨⟨u, r⟩, (hentries.mem_iff u r).2 hu, rfl⟩

/-- When no release is under way, the end of the allocator destroys leases that have not been
destroyed, each once. It finds all that are left iff `by_uid` has all that `by_user` has. -/
theorem World.Ledger.destroy (h : w.Ledger es) (hok : w.alloc.Ok False w.pending)
    (hpending : w.pending = []) {entries : List (Σ _ : UInt32, LeaseRef)}
    (hentries : Hashtable.Enumerates entries w.alloc.sessions.byUid) :
    (destroyedIn es ++ entries.map fun e => e.2).Nodup ∧
      ((∀ r < w.alloc.sessions.next, r ∈ destroyedIn es ++ entries.map fun e => e.2) ↔
        ∀ n r, w.alloc.sessions.byUser.get n = some r →
          ∃ u, w.alloc.sessions.byUid.get u = some r) := by
  have hfiled {r : LeaseRef} (hr : r ∈ entries.map fun e => e.2) :
      ∃ n, w.alloc.sessions.byUser.get n = some r := by
    obtain ⟨u, hu⟩ := (mem_map_entries hentries r).1 hr
    exact ⟨_, hok.sessions.filed.toB hu⟩
  refine ⟨h.nodup.append (List.Nodup.map_on ?_ hentries.nodup) fun r hr hr' => ?_, ?_⟩
  · rintro ⟨u, r⟩ hu ⟨u', r'⟩ hu' rfl
    have huid := hok.sessions.uid_eq ((hentries.mem_iff u r).1 hu)
    rw [hok.sessions.uid_eq ((hentries.mem_iff u' r).1 hu')] at huid
    rw [huid]
  · obtain ⟨n, hn⟩ := hfiled hr'
    exact hok.sessions.notFreed hn ((h.freed r).2 hr)
  · constructor
    · intro hall n r hn
      rcases List.mem_append.1 (hall r (hok.sessions.lt hn)) with hr | hr
      · exact absurd ((h.freed r).2 hr) (hok.sessions.notFreed hn)
      · exact (mem_map_entries hentries r).1 hr
    · intro hboth r hr
      rw [List.mem_append, ← h.freed r, mem_map_entries hentries]
      refine (h.made r hr).imp_right ?_
      rintro (hr | ⟨n, hn⟩)
      · simp [hpending] at hr
      · exact hboth n r hn

/-! ## Threads -/

variable {evs : List (Event T Job SweepInput)} {s : Threads T}

/-- The leases that an access reads or destroys. The names in the leases are the keys of `by_user`,
so who asks that table reads them. -/
def Pc.touches (a : IpAllocator) (r : LeaseRef) : Pc → Prop
  | lookupByUser .. | bindLease .. | unbind _ => ∃ n, a.sessions.byUser.get n = some r
  | migrate _ _ lease => lease = r ∨ ∃ n, a.sessions.byUser.get n = some r
  | dynRelease lease | leaseDestroy lease => lease = r
  | acquireAddress _ | acquireLock .. | lookupFixed .. | dynAcquire .. | acquireUnlock .. => False
  | releaseByUidImpl _ | releaseUnlock .. => False
  | reload _ | snapshotLoad _ | switch .. | reloadUnlock _ => False

/-- The same for a thread. The callback of a sweep reads a lease twice : to ask for its SA, and to
release what is filed under its unique id. The allocator does not keep the lease alive for it. -/
def ThreadPlace.touches (a : IpAllocator) (r : LeaseRef) : ThreadPlace → Prop
  | worker _ pc | releasing _ pc => pc.touches a r
  | foreachExpiring => ∃ u, a.sessions.byUid.get u = some r
  | sweepCb (lease :: _) | orphan lease _ => lease = r
  | idle | checkout .. | sweep | sweepCb [] | checkoutById .. | checkin .. => False

/-- The lease that the callback of a sweep reads in the access. -/
def ThreadPlace.readByCb : ThreadPlace → Option LeaseRef
  | sweepCb (lease :: _) | orphan lease _ => some lease
  | idle | checkout .. | worker .. | sweep | foreachExpiring | sweepCb [] | checkoutById ..
  | checkin .. | releasing .. => none

/-- The leases of its snapshot that a sweep has still to look at. -/
def ThreadPlace.listed : ThreadPlace → List LeaseRef
  | sweepCb rest | checkin _ rest | releasing rest _ => rest
  | checkoutById lease _ rest | orphan lease rest => lease :: rest
  | idle | checkout .. | worker .. | sweep | foreachExpiring => []

/-- The event destroys no lease that a sweep has still to look at. -/
def SparesListed (s : Threads T) : Event T Job SweepInput → Prop
  | .step t _ => ∀ r ∈ Pc.destroying (s.place t).pc, ∀ t', r ∉ (s.place t').listed
  | .call .. => True

instance [Fintype T] (s : Threads T) : DecidablePred (SparesListed s)
  | .step t _ => inferInstanceAs
      (Decidable (∀ r ∈ Pc.destroying (s.place t).pc, ∀ t', r ∉ (s.place t').listed))
  | .call .. => inferInstanceAs (Decidable True)

theorem ThreadPlace.touches_of_readByCb {pl : ThreadPlace} (h : pl.readByCb = some r) :
    pl.touches a r := by
  cases pl with
  | sweepCb rest =>
    cases rest with
    | nil => simp [readByCb] at h
    | cons lease rest => exact Option.some.inj h
  | orphan lease rest => exact Option.some.inj h
  | _ => simp [readByCb] at h

theorem ThreadPlace.listed_of_readByCb {pl : ThreadPlace} (h : pl.readByCb = some r) :
    r ∈ pl.listed := by
  cases pl with
  | sweepCb rest =>
    cases rest with
    | nil => simp [readByCb] at h
    | cons lease rest =>
      obtain rfl : lease = r := Option.some.inj h
      exact List.mem_cons_self
  | orphan lease rest =>
    obtain rfl : lease = r := Option.some.inj h
    exact List.mem_cons_self
  | _ => simp [readByCb] at h

/-! ### What a sweep has still to look at -/

/-- An access destroys the lease that it is to destroy and no other. -/
theorem Pc.freed_next {pc : Pc} {a w : IpAllocator} (hknown : Pc.Known parse a w (some pc)) :
    a.sessions.next ≤ (pc.next parse a).1.sessions.next ∧
      ∀ r ∈ (pc.next parse a).1.sessions.freed,
        r ∈ a.sessions.freed ∨ Pc.destroying (some pc) = some r := by
  have hcase := pc.next_cases parse a
  revert hcase
  generalize (pc.next parse a).1 = a', (pc.next parse a).2.1 = next, (pc.next parse a).2.2 = done
  intro hcase
  cases hcase with
  | @migrate call ikeSa lease m hm =>
    obtain rfl : a.sessions.moveLease lease ikeSa.uniqueId call.now = m := by
      rw [← hm, SessionManager.migrate_of_some _ _ _ _ hknown.2.2]
    exact ⟨le_rfl, fun r hr => Or.inl hr⟩
  | @bind call ikeSa ip isFixed m lease hm =>
    rw [SessionManager.bindLease_of_none _ _ _ _ _ _ hknown.1] at hm
    cases hmem : call.mem.lease with
    | true =>
      obtain ⟨-, rfl⟩ := by simpa [hmem] using hm
      exact ⟨Nat.le_succ _, fun r hr => Or.inl hr⟩
    | false =>
      obtain ⟨-, rfl⟩ := by simpa [hmem] using hm
      exact ⟨le_rfl, fun r hr => Or.inl hr⟩
  | @unbind uid lease m hm =>
    unfold SessionManager.unbind at hm
    split at hm
    · obtain ⟨-, rfl⟩ := Prod.mk.inj hm
      exact ⟨le_rfl, fun r hr => Or.inl hr⟩
    · obtain ⟨-, rfl⟩ := Prod.mk.inj hm
      exact ⟨le_rfl, fun r hr => Or.inl hr⟩
  | @leaseDestroy lease =>
    refine ⟨le_rfl, fun r hr => ?_⟩
    rcases Finset.mem_insert.1 hr with rfl | hr
    · exact Or.inr rfl
    · exact Or.inl hr
  | _ => exact ⟨le_rfl, fun r hr => Or.inl hr⟩

/-- What is listed after an access was listed before it, or is in a table. -/
theorem ThreadPlace.listed_next {pl pl' : ThreadPlace} {input : SweepInput} {a a' : IpAllocator}
    {done : Option CriticalSection} (h : pl.next parse input a = some (a', pl', done))
    (hr : r ∈ pl'.listed) : r ∈ pl.listed ∨ ∃ u, a.sessions.byUid.get u = some r := by
  cases pl with
  | idle => simp [next] at h
  | checkout ikeSa call =>
    obtain ⟨-, rfl, -⟩ := by simpa [next] using h
    simp [listed] at hr
  | worker ikeSa pc =>
    obtain ⟨-, rfl, -⟩ := by simpa [next] using h
    cases hnext : (pc.next parse a).2.1 <;> simp [hnext, listed] at hr
  | sweep =>
    obtain ⟨-, rfl, -⟩ := by simpa [next] using h
    simp [listed] at hr
  | foreachExpiring =>
    simp only [next] at h
    split_ifs at h with hes
    obtain ⟨-, rfl, -⟩ := by simpa using h
    obtain ⟨e, he, rfl⟩ := List.mem_map.1 (List.mem_of_mem_filter hr)
    exact Or.inr ⟨e.1, (hes.mem_iff e.1 e.2).1 he⟩
  | sweepCb rest =>
    cases rest <;> obtain ⟨-, rfl, -⟩ := by simpa [next] using h
    · simp [listed] at hr
    · exact Or.inl hr
  | checkoutById lease uid rest =>
    simp only [next] at h
    split_ifs at h <;> obtain ⟨-, rfl, -⟩ := by simpa using h
    · exact Or.inl (List.mem_cons_of_mem _ hr)
    · exact Or.inl hr
  | checkin uid rest =>
    obtain ⟨-, rfl, -⟩ := by simpa [next] using h
    exact Or.inl hr
  | orphan lease rest =>
    obtain ⟨-, rfl, -⟩ := by simpa [next] using h
    exact Or.inl (List.mem_cons_of_mem _ hr)
  | releasing rest pc =>
    obtain ⟨-, rfl, -⟩ := by simpa [next] using h
    cases hnext : (pc.next parse a).2.1 <;> rw [hnext] at hr <;> exact Or.inl hr

/-- What a thread does with the memory of leases in an access is done in the code of the plugin. -/
theorem ThreadPlace.freed_next {pl pl' : ThreadPlace} {input : SweepInput} {a a' w : IpAllocator}
    {done : Option CriticalSection} (hknown : Pc.Known parse a w pl.pc)
    (h : pl.next parse input a = some (a', pl', done)) : a.sessions.next ≤ a'.sessions.next ∧
      ∀ r ∈ a'.sessions.freed, r ∈ a.sessions.freed ∨ Pc.destroying pl.pc = some r := by
  rcases ThreadPlace.next_cases h with ⟨-, rfl, -⟩ | ⟨pc, hpc, hnext⟩
  · exact ⟨le_rfl, fun r hr => Or.inl hr⟩
  · rw [hpc] at hknown ⊢
    have hfreed := Pc.freed_next hknown
    rwa [hnext] at hfreed

/-- What a sweep has still to look at are leases. They are not destroyed before it does if no event
does that. -/
theorem listed_of_run {spares : Prop} (h : (threadCode parse).Run
      (fun _ s e => spares → SparesListed s e)
      (Code.initial (ipAllocatorCreate policy poolName leaseTimeout calloc) .idle : Threads T) evs
      s) (t : T) (hr : r ∈ (s.place t).listed) :
    r < s.data.sessions.next ∧ (spares → r ∉ s.data.sessions.freed) := by
  refine h.induction (P := fun _ s => ∀ t, ∀ r ∈ (s.place t).listed,
    r < s.data.sessions.next ∧ (spares → r ∉ s.data.sessions.freed)) ?_ ?_ t r hr
  · intro t r hr
    simp [Code.initial, ThreadPlace.listed] at hr
  · intro evs s e s' hrun hi hspares hs t r hr
    have hfree : (threadCode parse).Run (OnAcquire fun _ => True) _ evs s :=
      hrun.mono fun es s e _ => onAcquire_of (fun _ => trivial) es s e
    obtain ⟨es, late, w, hsections, htracks⟩ := (inOrder_of_run hfree).reached
    cases e with
    | call t₀ job =>
      obtain ⟨-, rfl⟩ := Code.step_call hs
      rcases eq_or_ne t t₀ with rfl | hne
      · cases job <;> simp [threadCode, ThreadPlace.start, ThreadPlace.listed] at hr
      · exact hi t r (by simpa [Function.update_of_ne hne] using hr)
    | step t₀ input =>
      obtain ⟨a, pl, done, hnext, -, rfl⟩ := Code.step_step hs
      obtain ⟨hlt, hfreed⟩ := ThreadPlace.freed_next (htracks.known t₀) hnext
      have hok := World.loose_of_create hsections
      -- listed before, or just found in a table
      have hold : (∃ t', r ∈ (s.place t').listed) ∨ ∃ n, s.data.sessions.byUser.get n = some r := by
        rcases eq_or_ne t t₀ with rfl | hne
        · refine (ThreadPlace.listed_next hnext (by simpa [Code.go] using hr)).imp
            (fun hr => ⟨t, hr⟩) ?_
          rintro ⟨u, hu⟩
          exact ⟨_, htracks.ok.filed.toB hu⟩
        · exact Or.inl ⟨t, by simpa [Code.go, Function.update_of_ne hne] using hr⟩
      rcases hold with ⟨t', hlisted⟩ | ⟨n, hn⟩
      · obtain ⟨hlt', hlive⟩ := hi t' r hlisted
        refine ⟨hlt'.trans_le hlt, fun hstrict hdead => ?_⟩
        rcases hfreed r hdead with hdead | hdestroying
        · exact hlive hstrict hdead
        · exact hspares hstrict r hdestroying t' hlisted
      · refine ⟨(htracks.ok.lt hn).trans_le hlt, fun _ hdead => ?_⟩
        rcases hfreed r hdead with hdead | hdestroying
        · exact htracks.ok.notFreed hn hdead
        · exact (htracks.unfiled_of_destroying hok hdestroying).2.1 n hn

/-- A lease that is filed under a name is alive. -/
theorem SessionManager.Ok.live (h : m.Ok) (hr : ∃ n, m.byUser.get n = some r) :
    r < m.next ∧ r ∉ m.freed := by
  obtain ⟨n, hn⟩ := hr
  exact ⟨h.lt hn, h.notFreed hn⟩

/-- In the code of the plugin only leases are touched that are alive. -/
theorem Tracks.touches_live {past : Set (Moment T CriticalSection)} {pcs : T → Option Pc}
    {log es late : List (T × CriticalSection)} (h : Tracks parse Q past pcs a log es late w)
    (hok : w.alloc.Ok False w.pending) {t : T} {pc : Pc} (hpc : pcs t = some pc)
    (hr : pc.touches a r) : r < a.sessions.next ∧ r ∉ a.sessions.freed := by
  have hknown := h.known t
  rw [hpc] at hknown
  cases pc with
  | lookupByUser | bindLease | unbind => exact h.ok.live hr
  | migrate call ikeSa lease =>
    rcases hr with rfl | hr
    · exact h.ok.live ⟨_, hknown.2.2⟩
    · exact h.ok.live hr
  | dynRelease lease =>
    obtain rfl : lease = r := hr
    have hpending := (h.unbound.mem_iff lease).2 ⟨t, by rw [hpc]; rfl⟩
    refine ⟨(h.unfiled_of_pending hok hpending).1, fun hfreed => ?_⟩
    exact hok.detached.notFreed hpending ((h.destroyed.mem_iff lease).2 (Or.inl hfreed))
  | leaseDestroy lease =>
    obtain rfl : lease = r := hr
    have hdestroying : Pc.destroying (pcs t) = some lease := by rw [hpc]; rfl
    exact ⟨(h.unfiled_of_destroying hok hdestroying).1, h.destroyed.live hdestroying⟩
  | acquireAddress | acquireLock | lookupFixed | dynAcquire | acquireUnlock | releaseByUidImpl
  | releaseUnlock | reload | snapshotLoad | switch | reloadUnlock => exact hr.elim

/-- Threads touch no lease that there is not. What has been destroyed they do not touch either, but
for the callback of a sweep, and that does not if no lease is destroyed that a sweep has still to
look at. -/
theorem accesses_live (h : (threadCode parse).Run (OnAcquire Q)
      (Code.initial (ipAllocatorCreate policy poolName leaseTimeout calloc) .idle : Threads T) evs
      s) {t : T} (hr : (s.place t).touches s.data r) :
    r < s.data.sessions.next ∧
    ((s.place t).readByCb ≠ some r → r ∉ s.data.sessions.freed) ∧
    ((threadCode parse).Run (fun _ s e => SparesListed s e)
        (Code.initial (ipAllocatorCreate policy poolName leaseTimeout calloc) .idle : Threads T) evs
        s → r ∉ s.data.sessions.freed) := by
  obtain ⟨es, late, w, hrun, htracks⟩ := (inOrder_of_run h).reached
  have hok := World.loose_of_create hrun
  -- all but the callback, in any run
  suffices hlive : r < s.data.sessions.next ∧
      ((s.place t).readByCb ≠ some r → r ∉ s.data.sessions.freed) by
    refine ⟨hlive.1, hlive.2, fun hspares => ?_⟩
    by_cases hcb : (s.place t).readByCb = some r
    · have hstrict : (threadCode parse).Run (fun _ s e => True → SparesListed s e) _ evs s :=
        hspares.mono fun _ _ _ hg _ => hg
      exact (listed_of_run hstrict t (ThreadPlace.listed_of_readByCb hcb)).2 trivial
    · exact hlive.2 hcb
  have hpc (pc : Pc) (hpc : (s.place t).pc = some pc) (hr : pc.touches s.data r) :
      r < s.data.sessions.next ∧ r ∉ s.data.sessions.freed :=
    htracks.touches_live hok hpc hr
  have hcb (hcb : (s.place t).readByCb = some r) : r < s.data.sessions.next ∧
      ((s.place t).readByCb ≠ some r → r ∉ s.data.sessions.freed) := by
    have hfree : (threadCode parse).Run (fun _ s e => False → SparesListed s e) _ evs s :=
      h.mono fun _ _ _ _ => False.elim
    have hlt := (listed_of_run hfree t (ThreadPlace.listed_of_readByCb hcb)).1
    exact ⟨hlt, fun hne => absurd hcb hne⟩
  cases hplace : s.place t with
  | worker ikeSa pc =>
    exact (hpc pc (by rw [hplace]; rfl) (by rwa [hplace] at hr)).imp_right fun hlive _ => hlive
  | releasing rest pc =>
    exact (hpc pc (by rw [hplace]; rfl) (by rwa [hplace] at hr)).imp_right fun hlive _ => hlive
  | foreachExpiring =>
    rw [hplace] at hr
    obtain ⟨u, hu⟩ := hr
    exact (htracks.ok.live ⟨_, htracks.ok.filed.toB hu⟩).imp_right fun hlive _ => hlive
  | orphan lease rest =>
    rw [hplace] at hr hcb
    exact hcb (congrArg some hr)
  | sweepCb rest =>
    rw [hplace] at hr hcb
    cases rest with
    | nil => exact hr.elim
    | cons lease rest => exact hcb (congrArg some hr)
  | idle | checkout | sweep | checkoutById | checkin =>
    rw [hplace] at hr
    exact hr.elim

/-- `a` logs in, and a sweep finds its lease expired and its SA gone. -/
def orphaned : List (Event (Fin 2) Job SweepInput) :=
  .call 0 (.call none (.acquireAddress (login (letterSa 1 'a') 0))) :: accesses 0 8 ++
    [.call 1 .sweep, .step 1 ⟨0, [], true⟩, .step 1 ⟨9000, [⟨1, 0⟩], true⟩, .step 1 ⟨0, [], true⟩,
      .step 1 ⟨0, [], false⟩]

/-- The sweep reads the lease once more. If the lease is released first, it is destroyed by then. -/
theorem accesses_live_orphaned : ∃ s s' : Threads (Fin 2),
    (threadCode fun _ => none).Run (OnAcquire fun _ => True)
      (Code.initial (smallAlloc (smallPolicy [] 1 3)) .idle) orphaned s ∧
    (s.place 1).readByCb = some 0 ∧ 0 ∉ s.data.sessions.freed ∧
    (threadCode fun _ => none).Run (OnAcquire fun _ => True)
      (Code.initial (smallAlloc (smallPolicy [] 1 3)) .idle)
      (orphaned ++ .call 0 (.call none (.release 1)) :: accesses 0 6) s' ∧
    (s'.place 1).touches s'.data 0 ∧ 0 ∈ s'.data.sessions.freed := by
  obtain ⟨s, hrun, hfacts⟩ := Run.exists_of_exec (by decide : (exec
    (threadCode fun _ => none).step (fun _ s e => SparesListed s e) []
    (Code.initial (smallAlloc (smallPolicy [] 1 3)) .idle : Threads (Fin 2)) orphaned).map
      (fun s => (s.place 1).readByCb) = some (some 0))
  obtain ⟨s', hrun', hfacts'⟩ := Run.exists_of_exec (by decide : (exec
    (threadCode fun _ => none).step (OnAcquire fun _ => True) []
    (Code.initial (smallAlloc (smallPolicy [] 1 3)) .idle : Threads (Fin 2))
    (orphaned ++ .call 0 (.call none (.release 1)) :: accesses 0 6)).map
      (fun s => ((s.place 1).readByCb, decide (0 ∈ s.data.sessions.freed))) =
      some (some 0, true))
  have hrun₁ : (threadCode fun _ => none).Run (OnAcquire fun _ => True) _ orphaned s :=
    hrun.mono fun es s e _ => onAcquire_of (fun _ => trivial) es s e
  obtain ⟨hcb, hdead⟩ := Prod.mk.inj hfacts'
  have hlive := accesses_live hrun₁ (ThreadPlace.touches_of_readByCb hfacts)
  exact ⟨s, s', hrun₁, hfacts, hlive.2.2 hrun, hrun', ThreadPlace.touches_of_readByCb hcb,
    of_decide_eq_true hdead⟩

/-- Over the life of an allocator each lease is destroyed once, if each unique id goes with one
session name. Without that some may be left over. These are the ones that `by_user` has and `by_uid`
has not, when the last call has returned. No lease is destroyed twice in any case. -/
theorem destroyed_once (h : (threadCode parse).Run (OnAcquire Q)
      (Code.initial (ipAllocatorCreate policy poolName leaseTimeout calloc) .idle : Threads T) evs
      s) (hidle : ∀ t, (s.place t).isIdle = true) {entries : List (Σ _ : UInt32, LeaseRef)}
    (hentries : Hashtable.Enumerates entries s.data.sessions.byUid) :
    (destroyedIn (s.log.map Prod.snd) ++ entries.map fun e => e.2).Nodup ∧
    ((∀ r < s.data.sessions.next, r ∈ (ipAllocatorDestroy s.data entries).sessions.freed) ↔
      ∀ n r, s.data.sessions.byUser.get n = some r → ∃ u, s.data.sessions.byUid.get u = some r) ∧
    ∀ owner, (∀ call, Q call → call.OwnedBy owner) →
      (destroyedIn (s.log.map Prod.snd) ++ entries.map fun e => e.2).Perm
        (List.range s.data.sessions.next) := by
  obtain ⟨es, w, hlin⟩ := (inOrder_of_run h).linearizes
  have hpc (t : T) : (s.place t).pc = none := by
    have hidle := hidle t
    revert hidle
    cases s.place t <;> simp [ThreadPlace.isIdle, ThreadPlace.pc]
  have hdata : w.alloc = s.data := hlin.alloc_eq fun t => by
    rw [ThreadPlace.Between, hpc t]
    exact ⟨id, rfl⟩
  have hpending : w.pending = [] := by
    refine List.eq_nil_iff_forall_not_mem.2 fun r hr => ?_
    obtain ⟨t, ht⟩ := (hlin.pending r).1 hr
    simp [hpc t, Pc.unbound] at ht
  -- the sections in the log, in another order
  have hperm : (destroyedIn (es.map Prod.snd)).Perm (destroyedIn (s.log.map Prod.snd)) := by
    refine List.Perm.filterMap _ (List.Perm.map _ (perm_of_ofThread fun t => ?_))
    rw [hlin.sections t, hpc t]
    exact List.append_nil _
  have hok := World.loose_of_create hlin.run
  have hledger := World.ledger_of_run hlin.run
  rw [← hdata] at hentries ⊢
  have hmem (r : LeaseRef) : r ∈ (ipAllocatorDestroy w.alloc entries).sessions.freed ↔
      r ∈ destroyedIn (es.map Prod.snd) ++ entries.map fun e => e.2 := by
    rw [List.mem_append, ← hledger.freed r]
    exact w.alloc.sessions.mem_freed_destroy entries r
  have hperm' := hperm.append_right (entries.map fun e => e.2)
  obtain ⟨hnodup, hiff⟩ := hledger.destroy hok hpending hentries
  refine ⟨hperm'.nodup_iff.1 hnodup, by simpa only [hmem] using hiff, fun owner hown => ?_⟩
  have hb : w.alloc.sessions.Bound owner :=
    World.bound_of_run (IpAllocator.ok_create policy poolName leaseTimeout calloc False.elim)
      (SessionManager.bound_create owner) (fun _ _ _ he => he.mono hown) hlin.run
  refine hperm'.symm.trans ((List.perm_ext_iff_of_nodup hnodup List.nodup_range).2 fun r => ?_)
  rw [List.mem_range]
  constructor
  · rw [List.mem_append, ← hledger.freed r, mem_map_entries hentries]
    rintro (hr | ⟨u, hu⟩)
    · exact hok.sessions.freed_lt hr
    · exact hok.sessions.lt (hok.sessions.filed.toB hu)
  · exact hiff.2 (fun n r hn => ⟨_, hb.paired.toA hn⟩) r

/-- In the first run the lease of `a` goes at the end of its release, and that of `b` with the
allocator. In the second `b` logs in with the unique id of `a`, and the lease of `a` is left
over. -/
theorem destroyed_once_of_crossing : ∃ s s' : Threads (Fin 3),
    (threadCode tenNetFromString).Run (OnAcquire (·.OwnedBy oddEven))
      (Code.initial (smallAlloc (smallPolicy [] 1 1)) .idle) crossing s ∧
    (destroyedIn (s.log.map Prod.snd) ++ [1]).Perm (List.range s.data.sessions.next) ∧
    (threadCode tenNetFromString).Run (OnAcquire fun _ => True)
      (Code.initial (smallAlloc (smallPolicy [] 1 3)) .idle)
      (.call 0 (.call none (.acquireAddress (login (letterSa 1 'a') 0))) :: accesses 0 8 ++
        .call 0 (.call none (.acquireAddress (login (letterSa 1 'b') 0))) :: accesses 0 8) s' ∧
    ∃ r < s'.data.sessions.next, r ∉ (ipAllocatorDestroy s'.data [⟨1, 1⟩]).sessions.freed := by
  obtain ⟨s, hrun, hfacts⟩ := Run.exists_of_exec (by decide : (exec
    (threadCode tenNetFromString).step (OnAcquire (·.OwnedBy oddEven)) []
    (Code.initial (smallAlloc (smallPolicy [] 1 1)) .idle : Threads (Fin 3)) crossing).map
      (fun s => ((List.finRange 3).all fun t => (s.place t).isIdle,
        decide (Hashtable.Enumerates [⟨2, 1⟩] s.data.sessions.byUid))) = some (true, true))
  obtain ⟨s', hrun', hfacts'⟩ := Run.exists_of_exec (by decide : (exec
    (threadCode tenNetFromString).step (OnAcquire fun _ => True) []
    (Code.initial (smallAlloc (smallPolicy [] 1 3)) .idle : Threads (Fin 3))
    (.call 0 (.call none (.acquireAddress (login (letterSa 1 'a') 0))) :: accesses 0 8 ++
      .call 0 (.call none (.acquireAddress (login (letterSa 1 'b') 0))) :: accesses 0 8)).map
      (fun s => ((List.finRange 3).all fun t => (s.place t).isIdle,
        decide (Hashtable.Enumerates [⟨1, 1⟩] s.data.sessions.byUid),
        s.data.sessions.byUser.get (letter 'a'))) = some (true, true, some 0))
  obtain ⟨hidle, hentries⟩ := Prod.mk.inj hfacts
  obtain ⟨hidle', hentries', hleft⟩ := by simpa using hfacts'
  refine ⟨s, s', hrun, (destroyed_once hrun (fun t => List.all_eq_true.1 hidle t
    (List.mem_finRange t)) (of_decide_eq_true hentries)).2.2 oddEven fun _ => id, hrun', ?_⟩
  by_contra hall
  push Not at hall
  obtain ⟨u, hu⟩ := (destroyed_once hrun' hidle' hentries').2.1.1 hall (letter 'a') 0 hleft
  have hmem := (hentries'.mem_iff u 0).2 hu
  simp at hmem

end Cupp
