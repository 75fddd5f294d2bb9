import Cupp.OnePolicy
import Cupp.SweepExact

/-!
# Addresses in use

An address in a lease is not all there is to an address in use. Several SAs of a user share
one lease, which records the unique id of the last one. When that one goes down the lease
goes with it, and the address of the others is free for another user
(`not_in_use_of_shared_lease`).

A fixed address needs no lease for this, the policy keeps it for its user. So as long as no
lease of a pool address is taken out while another SA has that address, an address in use
stays with its user, and the first step that does so leaves an address in use free in the
pool (`owner_of_in_use`).
-/

set_option linter.unusedSectionVars false

open Transition

namespace Cupp

variable {parse : CString → Option Host} {owner : UInt32 → CString} {policy : PolicyEngine}
  {poolName : Option CString} {leaseTimeout timeout : UInt32} {calloc : Option (ℕ → UInt8)}
  {es : List Operation} {e : Operation} {tight : Prop} {s s' : IpAllocator} {n : CString}
  {call : AcquireCall} {l : Lease} {ip : Host} {ikeSa : IkeSa} {u v : UInt32}

/-! ## SAs that are up -/

/-- The SAs that are up, each with an address it was given : from a successful
`acquire_address` to the first release with the SA's unique id. -/
def inUse (es : List Operation) : List (UInt32 × Host) :=
  es.foldl
    (fun live e =>
      match e.granted, e.released with
      | some (ikeSa, ip), _ => (ikeSa.uniqueId, ip) :: live
      | none, some uid => live.filter fun sa => sa.1 ≠ uid
      | none, none => live)
    []

/-- The unique ids of the SAs that are up. -/
def liveSas (es : List Operation) : Finset UInt32 :=
  ((inUse es).map fun sa => sa.1).toFinset

theorem mem_liveSas (h : (u, ip) ∈ inUse es) : u ∈ liveSas es :=
  List.mem_toFinset.2 (List.mem_map.2 ⟨_, h, rfl⟩)

/-- Each unique id goes with one name, and a sweep finds just the SAs that are up. -/
def Operation.Faithful (owner : UInt32 → CString) (es : List Operation) : Operation → Prop
  | .acquire call _ => call.OwnedBy owner
  | .sweep _ alive _ => alive = liveSas es
  | .reload _ => False
  | _ => True

instance (es : List Operation) : DecidablePred (Operation.Faithful owner es)
  | .acquire call _ => inferInstanceAs (Decidable (call.OwnedBy owner))
  | .sweep _ alive _ => inferInstanceAs (Decidable (alive = liveSas es))
  | .reload _ => inferInstanceAs (Decidable False)
  | .releaseAddress .. | .ikeUpdown .. => inferInstanceAs (Decidable True)

theorem Operation.Faithful.keepsPolicy (h : e.Faithful owner es) : e.KeepsPolicy := by
  cases e with
  | reload => exact h
  | acquire | releaseAddress | ikeUpdown | sweep => trivial

theorem Operation.Faithful.onAcquire (h : e.Faithful owner es) : e.OnAcquire (·.OwnedBy owner) := by
  cases e with
  | acquire => exact h
  | releaseAddress | ikeUpdown | sweep | reload => trivial

/-- The operation takes the lease out of the book. -/
def Operation.TakesOut (timeout : UInt32) (l : Lease) : Operation → Prop
  | .sweep now alive _ => l.expired now timeout = true ∧ l.uniqueId ∉ alive
  | e => e.released = some l.uniqueId

instance (timeout : UInt32) (l : Lease) : DecidablePred (Operation.TakesOut timeout l)
  | .sweep now alive _ =>
    inferInstanceAs (Decidable (l.expired now timeout = true ∧ l.uniqueId ∉ alive))
  | .acquire .. | .releaseAddress .. | .ikeUpdown .. | .reload _ =>
    inferInstanceAs (Decidable (_ = some l.uniqueId))

/-- No lease of a pool address is taken out while another SA that is up has its address. -/
def Operation.SparesShared (es : List Operation) (s : IpAllocator) (e : Operation) : Prop :=
  ∀ l ∈ s.liveLeases, l.fixed = false → e.TakesOut s.leaseTimeout l →
    ∀ sa ∈ inUse es, sa.1 ≠ l.uniqueId → sa.2 ≠ l.ip

instance (es : List Operation) (s : IpAllocator) (e : Operation) :
    Decidable (e.SparesShared es s) :=
  inferInstanceAs (Decidable (∀ l ∈ s.liveLeases, _ → _ → ∀ sa ∈ inUse es, _ → _))

/-- No address in use is free in the pool. -/
def IpAllocator.HoldsInUse (es : List Operation) (s : IpAllocator) : Prop :=
  ∀ p ∈ s.dyn, ∀ sa ∈ inUse es, p.isInPool sa.2 = true → p.taken (p.slot sa.2) = true

/-! ## What an operation does to the SAs -/

/-- A login puts its SA's address in use. -/
theorem inUse_granted (h : e.granted = some (ikeSa, ip)) :
    inUse (es ++ [e]) = (ikeSa.uniqueId, ip) :: inUse es := by
  simp [inUse, h]

/-- The end of an SA ends the use of its address. -/
theorem inUse_released (h : e.released = some u) :
    inUse (es ++ [e]) = (inUse es).filter fun sa => sa.1 ≠ u := by
  simp [inUse, Operation.granted_of_released h, h]

theorem inUse_quiet (hg : e.granted = none) (hr : e.released = none) :
    inUse (es ++ [e]) = inUse es := by
  simp [inUse, hg, hr]

/-- But for sweeps, a lease is taken out by the release of the unique id that it records. -/
theorem Operation.takesOut_of_released (h : e.released = some l.uniqueId) :
    e.TakesOut timeout l := by
  cases e with
  | sweep => simp [released] at h
  | acquire | releaseAddress | ikeUpdown | reload => exact h

/-- A lease is taken out by a sweep, or by the end of its SA. -/
theorem Operation.released_of_takesOut (h : e.TakesOut timeout l) :
    (∃ now alive entries, e = .sweep now alive entries) ∨ e.released = some l.uniqueId := by
  cases e with
  | sweep => exact Or.inl ⟨_, _, _, rfl⟩
  | acquire | releaseAddress | ikeUpdown | reload => exact Or.inr h

/-- The SAs that the lease does not record stay up. -/
theorem mem_inUse_of_takesOut (h : e.TakesOut timeout l) (hu : (u, ip) ∈ inUse es)
    (hne : u ≠ l.uniqueId) : (u, ip) ∈ inUse (es ++ [e]) := by
  rcases Operation.released_of_takesOut h with ⟨_, _, _, rfl⟩ | hv
  · rwa [inUse_quiet rfl rfl]
  · rw [inUse_released hv]
    exact List.mem_filter.2 ⟨hu, by simpa using hne⟩

/-! ## Books that serve SAs -/

namespace Book

variable {b b' : Book} {fixed : CString → Option Host} {live live' : List (UInt32 × Host)}
  {now : ℤ} {alive : UInt32 → Bool}

/-- Every SA has the address that is fixed for its user, or that of the user's lease of the pool. -/
def Serves (fixed : CString → Option Host) (owner : UInt32 → CString) (b : Book)
    (live : List (UInt32 × Host)) : Prop :=
  ∀ u ip, (u, ip) ∈ live → fixed (owner u) = some ip ∨
    ∃ l, b (owner u) = some l ∧ l.ip = ip ∧ l.fixed = false

/-- A book that has, for SAs that were there before, leases of the same addresses. -/
theorem Serves.mono (h : b.Serves fixed owner live) (hlive : ∀ sa ∈ live', sa ∈ live)
    (hlease : ∀ u l, (u, l.ip) ∈ live' → b (owner u) = some l → l.fixed = false →
      ∃ l', b' (owner u) = some l' ∧ l'.ip = l.ip ∧ l'.fixed = false) :
    b'.Serves fixed owner live' := by
  intro u ip hu
  refine (h u ip (hlive _ hu)).imp_right ?_
  rintro ⟨l, hl, rfl, hfixed⟩
  exact hlease u l hu hl hfixed

/-- One more SA that is served. -/
theorem Serves.cons (h : b.Serves fixed owner live) (hsa : fixed (owner u) = some ip ∨
      ∃ l, b (owner u) = some l ∧ l.ip = ip ∧ l.fixed = false) :
    b.Serves fixed owner ((u, ip) :: live) := by
  intro v ip' hv
  rcases List.mem_cons.1 hv with heq | hv
  · obtain ⟨rfl, rfl⟩ := Prod.mk.inj heq
    exact hsa
  · exact h v ip' hv

/-- A lease that is renewed keeps its address. -/
theorem Serves.renew (h : b.Serves fixed owner live) (n : CString) (u : UInt32) (now : ℤ) :
    (b.renew n u now).Serves fixed owner live := by
  refine h.mono (fun _ hsa => hsa) fun v l hv hl hfixed => ?_
  rcases eq_or_ne (owner v) n with rfl | hne
  · exact ⟨{ l with uniqueId := u, acquired := now }, by rw [renew_self, hl]; rfl, rfl, hfixed⟩
  · exact ⟨l, (renew_of_ne hne).trans hl, rfl, hfixed⟩

/-- A new lease takes no other's place. -/
theorem Serves.enter (h : b.Serves fixed owner live) (hnone : b l.username = none) :
    (b.enter l).Serves fixed owner live := by
  refine h.mono (fun _ hsa => hsa) fun v l' hv hl hfixed => ?_
  have hne : owner v ≠ l.username := fun heq => by simp [← heq, hl] at hnone
  exact ⟨l', (enter_of_ne hne).trans hl, rfl, hfixed⟩

/-- The SA that ends was the only one with the address of its lease. -/
theorem Serves.strike (h : b.Serves fixed owner live)
    (hown : ∀ u l, (u, l.ip) ∈ live → b (owner u) = some l → l.fixed = false →
      l.uniqueId = v → u = v) :
    (b.strike v).Serves fixed owner (live.filter fun sa => sa.1 ≠ v) := by
  refine h.mono (fun sa hsa => (List.mem_filter.1 hsa).1) fun u l hu hl hfixed => ?_
  obtain ⟨hin, hne⟩ := List.mem_filter.1 hu
  have huid : l.uniqueId ≠ v := fun heq => by simp [hown u l hin hl hfixed heq] at hne
  exact ⟨l, strike_eq_some.2 ⟨hl, huid⟩, rfl, hfixed⟩

/-- No lease is taken out that an SA rests on. -/
theorem Serves.expire (h : b.Serves fixed owner live)
    (hkeep : ∀ u l, (u, l.ip) ∈ live → b (owner u) = some l → l.fixed = false →
      alive l.uniqueId = true ∨ l.expired now timeout = false) :
    (b.expire now timeout alive).Serves fixed owner live :=
  h.mono (fun _ hsa => hsa) fun u l hu hl hfixed =>
    ⟨l, expire_eq_some.2 ⟨hl, hkeep u l hu hl hfixed⟩, rfl, hfixed⟩

end Book

namespace IpAllocator

/-! ## Addresses in use stay with their users -/

/-- Every address in use is configured for its user, or in the user's lease of the pool. -/
def Serving (owner : UInt32 → CString) (es : List Operation) (s : IpAllocator) : Prop :=
  s.lease.Serves s.policy.lookupFixed owner (inUse es)

/-- Under a policy free of conflicts, an address that its user is served with is not free. -/
theorem Serving.holdsInUse (h : s.Serving owner es) (hok : s.Ok tight []) (hf : s.FollowsPolicy)
    (hcf : s.policy.active.ConflictFree) : s.HoldsInUse es := by
  rintro p hp ⟨u, ip⟩ hu hin
  rcases h u ip hu with hconf | ⟨l, hl, rfl, hfixed⟩
  · rw [hf.range hp, hcf.notInPool hconf] at hin
    simp at hin
  · obtain ⟨q, hq, -, htaken, -⟩ := hok.lease_slot hl hfixed
    obtain rfl := Option.some.inj (hq.symm.trans hp)
    exact htaken

/-- Nor is it the address of another user's lease. -/
theorem Serving.eq_of_lease (h : s.Serving owner es) (hok : s.Ok tight []) (hf : s.FollowsPolicy)
    (hcf : s.policy.active.ConflictFree) (hu : (u, ip) ∈ inUse es) (hl : s.lease n = some l)
    (hip : l.ip = ip) : owner u = n := by
  rcases h u ip hu with hconf | ⟨l', hl', rfl, -⟩
  · exact hf.eq_of_fixed hok hcf hl (hip ▸ hconf)
  · exact hf.exclusive hok hcf _ _ _ _ hl' hl hip.symm

/-- A user's lease serves its SAs. -/
theorem FollowsPolicy.served (hf : s.FollowsPolicy) (hl : s.lease n = some l) :
    s.policy.lookupFixed n = some l.ip ∨
      ∃ l', s.lease n = some l' ∧ l'.ip = l.ip ∧ l'.fixed = false := by
  cases hfixed : l.fixed with
  | true => exact Or.inl (hf.fixed hl hfixed)
  | false => exact Or.inr ⟨l, hl, rfl, hfixed⟩

/-- An operation that spares the leases that are shared keeps users served. -/
theorem Serving.step (hserve : s.Serving owner es) (hok : s.Ok tight [])
    (hb : s.sessions.Bound owner) (hf' : s'.FollowsPolicy) (hpol : s'.policy = s.policy)
    (hfaith : e.Faithful owner es) (hspare : e.SparesShared es s)
    (h : s.step parse e = some s') : s'.Serving owner (es ++ [e]) := by
  have hown := hfaith.onAcquire
  -- a lease that an SA in use rests on is not taken out
  have hkeep : ∀ {u n l}, (u, l.ip) ∈ inUse es → s.lease n = some l → l.fixed = false →
      e.TakesOut s.leaseTimeout l → u = l.uniqueId := by
    intro u n l hu hl hfixed htake
    by_contra hne
    exact hspare l (mem_liveLeases.2 ⟨n, hl⟩) hfixed htake _ hu hne rfl
  have hgiven {n l} (hl : s'.lease n = some l) := hf'.served hl
  have hstep := book_step hok hb hown h
  unfold Serving at hserve ⊢
  generalize s'.lease = b at hgiven hstep
  rw [hpol] at hgiven ⊢
  cases hstep with
  | refused =>
    rw [inUse_quiet rfl rfl]
    exact hserve
  | @renewed call ikeSa l hserved hl =>
    have hsa := ikeSa_of_served hserved
    have hrenewed := hserve.renew (sessionName ikeSa) ikeSa.uniqueId call.now
    cases hres : call.mem.result with
    | false =>
      rw [if_neg (by simp), inUse_quiet rfl rfl]
      exact hrenewed
    | true =>
      rw [if_pos rfl, inUse_granted (Operation.granted_acquire hsa _)]
      refine hrenewed.cons ?_
      rw [← hown _ hsa]
      exact hgiven (l := { l with uniqueId := ikeSa.uniqueId, acquired := call.now })
        (by rw [Book.renew_self, hl]; rfl)
  | @entered call ikeSa ip' isFixed dyn hserved hnone =>
    have hsa := ikeSa_of_served hserved
    rw [inUse_granted (Operation.granted_acquire hsa _)]
    refine (hserve.enter hnone).cons ?_
    rw [← hown _ hsa]
    exact hgiven Book.enter_self
  | @struck e v hv =>
    rw [inUse_released hv]
    refine hserve.strike fun u l hu hl hfixed heq => ?_
    rw [hkeep hu hl hfixed (Operation.takesOut_of_released (heq ▸ hv)), heq]
  | idle he =>
    rw [inUse_quiet he.quiet.1 he.quiet.2]
    exact hserve
  | @expired now alive entries =>
    rw [inUse_quiet rfl rfl]
    refine hserve.expire fun u l hu hl hfixed => ?_
    by_contra hdead
    obtain ⟨hnot, hexp⟩ : l.uniqueId ∉ alive ∧ l.expired now s.leaseTimeout = true := by
      simpa using hdead
    -- the lease records another SA than `u`, which is up
    have hu' : u ∈ alive := hfaith ▸ mem_liveSas hu
    exact hnot (hkeep hu hl hfixed ⟨hexp, hnot⟩ ▸ hu')
  | reload => exact hfaith.elim

/-! ## An address that is not kept -/

/-- An operation that ends an SA is a release. -/
theorem releaseByUidImpl_of_step (hv : e.released = some v) (h : s.step parse e = some s') :
    s' = (s.releaseByUidImpl v).2 := by
  cases step_cases h with
  | release hu => rw [Option.some.inj (hu.symm.trans hv)]
  | idle he => simp [he.quiet.2] at hv
  | answered | rolledBack | sweep | reload => simp [Operation.released] at hv

/-- An operation that takes a lease out frees its address in the pool. -/
theorem free_of_takesOut (hok : s.Ok False []) (hst : s.Stocked []) (hb : s.sessions.Bound owner)
    (hl : s.lease n = some l) (hfixed : l.fixed = false) (htake : e.TakesOut s.leaseTimeout l)
    (h : s.step parse e = some s') :
    ∃ p ∈ s'.dyn, p.isInPool l.ip = true ∧ p.taken (p.slot l.ip) = false := by
  obtain ⟨p, hp, -⟩ := hok.lease_slot hl hfixed
  have hin := hok.isInPool_lease hp hl hfixed
  obtain ⟨r, hr, rfl⟩ := lease_eq_some.1 hl
  obtain ⟨gone, hwithout, hgone⟩ : ∃ gone, s.Without gone s' ∧ r ∈ gone := by
    rcases Operation.released_of_takesOut htake with ⟨now, alive, entries, rfl⟩ | hv
    · simp only [step] at h
      split_ifs at h with hes
      obtain rfl := Option.some.inj h
      exact ⟨_, without_sweep hok hst hb _ _ hes,
        mem_orphans.2 ⟨⟨n, hr⟩, htake.1, decide_eq_false htake.2⟩⟩
    · obtain rfl := releaseByUidImpl_of_step hv h
      exact ⟨{r}, without_releaseByUidImpl hok hst (hb.paired.toA hr), Finset.mem_singleton_self r⟩
  have hdyn := hwithout.dyn
  rw [hp] at hdyn
  generalize s'.dyn = d' at hdyn
  cases hdyn with
  | @some _ p' hback =>
    refine ⟨p', rfl, hback.sameRange.isInPool_eq _ ▸ hin, ?_⟩
    rw [hback.sameRange.slot_eq, ← Bool.not_eq_true, hback.taken]
    exact fun htaken => htaken.2 r (Finset.mem_filter.2 ⟨hgone, hfixed⟩) rfl

/-- What runs keep whose operations spare the leases that are shared. -/
theorem serving_of_run
    (h : IpAllocator.Run parse (fun es s e => e.Faithful owner es ∧ e.SparesShared es s)
      (ipAllocatorCreate policy poolName leaseTimeout calloc) es s) :
    s.sessions.Bound owner ∧ s.Stocked [] ∧ s.Serving owner es := by
  have hb := bound_of_run (ok_create policy poolName leaseTimeout calloc False.elim)
    (SessionManager.bound_create owner) (fun _ _ _ hg => hg.1.onAcquire) h
  obtain ⟨_, hsections⟩ := run_refines (P := fun _ => True)
    (fun _ _ e _ => e.onAcquire_of fun _ => trivial) h
  refine ⟨hb, (stocked_of_create hsections).2, ?_⟩
  refine h.induction (P := fun es s => s.Serving owner es) (fun u ip hu => by simp [inUse] at hu)
    fun es s e s' hr hserve hg hs => ?_
  obtain ⟨hok, -, hpol⟩ := followsPolicy_of_run (fun _ _ _ hg => hg.1.keepsPolicy) hr
  obtain ⟨-, hf', hpol'⟩ :=
    followsPolicy_of_run (fun _ _ _ hg => hg.1.keepsPolicy) (hr.snoc hg hs)
  have hb := bound_of_run (ok_create policy poolName leaseTimeout calloc False.elim)
    (SessionManager.bound_create owner) (fun _ _ _ hg => hg.1.onAcquire) hr
  exact hserve.step hok hb hf' (hpol'.trans hpol.symm) hg.1 hg.2 hs

end IpAllocator

/-- In runs in which no lease of a pool address is taken out while another SA has its address, an
address in use is never free in the pool, and it is given to its own user only. A further operation
leaves no address in use free iff it spares such leases too. -/
theorem owner_of_in_use (hcf : policy.active.ConflictFree)
    (h : IpAllocator.Run parse (fun es s e => e.Faithful owner es ∧ e.SparesShared es s)
      (ipAllocatorCreate policy poolName leaseTimeout calloc) es s) :
    s.HoldsInUse es ∧
    (∀ call ip s' ikeSa u, call.OwnedBy owner →
      s.step parse (.acquire call (some ip)) = some s' → call.ikeSa = some ikeSa →
      (u, ip) ∈ inUse es → owner u = sessionName ikeSa) ∧
    ∀ e s', e.Faithful owner es → s.step parse e = some s' →
      (s'.HoldsInUse (es ++ [e]) ↔ e.SparesShared es s) := by
  obtain ⟨hok, hf, hpol⟩ := IpAllocator.followsPolicy_of_run (fun _ _ _ hg => hg.1.keepsPolicy) h
  obtain ⟨hb, hst, hserve⟩ := IpAllocator.serving_of_run h
  refine ⟨hserve.holdsInUse hok hf (hpol.symm ▸ hcf), fun call ip s' ikeSa u hown hacq hsa hu => ?_,
    fun e s' hfaith hs => ⟨?_, fun hspare => ?_⟩⟩
  · have hguard : Operation.Faithful owner es (.acquire call (some ip)) ∧
        Operation.SparesShared es s (.acquire call (some ip)) :=
      ⟨hown, fun _ _ _ htake => nomatch htake⟩
    have hrun := h.snoc hguard hacq
    obtain ⟨hok', hf', hpol'⟩ :=
      IpAllocator.followsPolicy_of_run (fun _ _ _ hg => hg.1.keepsPolicy) hrun
    obtain ⟨l, hl, hip, -⟩ := IpAllocator.lease_of_answer hok hacq hsa
    -- the SA in use is still served after the login
    refine (IpAllocator.serving_of_run hrun).2.2.eq_of_lease hok' hf' (hpol'.symm ▸ hcf) ?_ hl hip
    rw [inUse_granted (Operation.granted_acquire hsa _)]
    exact List.mem_cons_of_mem _ hu
  · rintro hholds l hmem hfixed htake ⟨u, ip⟩ hu hne rfl
    obtain ⟨n, hl⟩ := IpAllocator.mem_liveLeases.1 hmem
    obtain ⟨p, hp, hin, hfree⟩ := IpAllocator.free_of_takesOut hok hst hb hl hfixed htake hs
    have htaken := hholds p hp _ (mem_inUse_of_takesOut htake hu hne) hin
    simp [htaken] at hfree
  · have hrun := h.snoc ⟨hfaith, hspare⟩ hs
    obtain ⟨hok', hf', hpol'⟩ :=
      IpAllocator.followsPolicy_of_run (fun _ _ _ hg => hg.1.keepsPolicy) hrun
    exact (IpAllocator.serving_of_run hrun).2.2.holdsInUse hok' hf' (hpol'.symm ▸ hcf)

theorem owner_of_in_use_shared : ∃ s s', IpAllocator.Run (fun _ => none)
    (fun es s e => e.Faithful oddEven es ∧ e.SparesShared es s)
    (smallAlloc (smallPolicy [] 1 3)) [.acquire (login (letterSa 1 'a') 0) (some (tenNet 1)),
      .acquire (login (letterSa 3 'a') 0) (some (tenNet 1)),
      .ikeUpdown (some (letterSa 1 'a')) false] s ∧
    s.step (fun _ => none) (.acquire (login (letterSa 5 'a') 0) (some (tenNet 1))) = some s' ∧
    oddEven 3 = sessionName (letterSa 5 'a') := by
  obtain ⟨s, hrun, hs'⟩ := Run.exists_of_exec (by decide :
    (exec (IpAllocator.step fun _ => none)
      (fun es s e => e.Faithful oddEven es ∧ e.SparesShared es s) []
      (smallAlloc (smallPolicy [] 1 3)) [.acquire (login (letterSa 1 'a') 0) (some (tenNet 1)),
        .acquire (login (letterSa 3 'a') 0) (some (tenNet 1)),
        .ikeUpdown (some (letterSa 1 'a')) false]).map (fun s => (s.step (fun _ => none)
          (.acquire (login (letterSa 5 'a') 0) (some (tenNet 1)))).isSome) = some true)
  obtain ⟨s', hs'⟩ := Option.isSome_iff_exists.1 hs'
  exact ⟨s, s', hrun, hs',
    (owner_of_in_use (by decide) hrun).2.1 _ _ _ _ _ (by decide) hs' rfl (by decide)⟩

/-- Two SAs of `a` are up. The one that the lease records goes down, and `b` is given the
address that the other still uses. -/
theorem not_in_use_of_shared_lease : ¬∀ (parse : CString → Option Host)
    (owner : UInt32 → CString) (policy : PolicyEngine) (poolName : Option CString)
    (leaseTimeout : UInt32) (calloc : Option (ℕ → UInt8)) (es : List Operation)
    (s s' : IpAllocator) (call : AcquireCall) (ip : Host) (ikeSa : IkeSa) (u : UInt32),
    policy.active.ConflictFree → IpAllocator.Run parse (fun es _ e => e.Faithful owner es)
      (ipAllocatorCreate policy poolName leaseTimeout calloc) es s →
    call.OwnedBy owner → s.step parse (.acquire call (some ip)) = some s' →
    call.ikeSa = some ikeSa → (u, ip) ∈ inUse es → owner u = sessionName ikeSa := by
  intro hall
  obtain ⟨s, hrun, hs'⟩ := Run.exists_of_exec (by decide :
    (exec (IpAllocator.step fun _ => none) (fun es _ e => e.Faithful oddEven es) []
      (smallAlloc (smallPolicy [] 1 3)) [.acquire (login (letterSa 1 'a') 0) (some (tenNet 1)),
        .acquire (login (letterSa 3 'a') 0) (some (tenNet 1)),
        .ikeUpdown (some (letterSa 3 'a')) false]).map (fun s => (s.step (fun _ => none)
          (.acquire (login (letterSa 2 'b') 0) (some (tenNet 1)))).isSome) = some true)
  obtain ⟨s', hs'⟩ := Option.isSome_iff_exists.1 hs'
  have heq := hall _ _ _ _ _ _ _ _ _ _ _ _ 1 (by decide) hrun (by decide) hs'
    rfl (by decide)
  exact absurd heq (by decide)

end Cupp
