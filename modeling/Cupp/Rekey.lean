import Cupp.Operations

/-!
# Leases of rekeyed SAs

A rekey replaces an IKE_SA by one with another unique id. The new one has the address of the
old one, and the plugin is not told : the listener sets no `ike_rekey`, and no
`acquire_address` comes. So the lease goes on recording a unique id that no SA has.

A sweep after the timeout then takes the lease away from a client that is connected, and when
the new SA goes down its unique id finds nothing to release (`not_lease_follows`). Up to the
first such sweep or release the leases follow the SAs, and a further step keeps them in line iff
it is none (`lease_follows`).
-/

set_option linter.unusedSectionVars false

open Transition

namespace Cupp

/-- The allocator, the IKE_SAs that exist, the unique ids given so far, and the SA each user's
lease is for : the one that logged in last, or what it was rekeyed to. -/
structure RekeyWorld where
  alloc : IpAllocator
  present : Finset UInt32
  known : Finset UInt32
  current : CString → Option UInt32

/-- What happens to an SA, or a sweep or reload. An SA that is `lost` is gone without a down. -/
inductive SaEvent
  | up (uid : UInt32)
  | acquire (call : AcquireCall) (answer : Option Host)
  | rekey (uid newUid : UInt32)
  | down (ikeSa : IkeSa)
  | lost (uid : UInt32)
  | sweep (now : ℤ) (entries : List (Σ _ : UInt32, LeaseRef))
  | reload (file : PolicyFile)

namespace RekeyWorld

variable (parse : CString → Option Host) (owner : UInt32 → CString)

/-- No SA is up, and no user has logged in. -/
def start (alloc : IpAllocator) : RekeyWorld :=
  ⟨alloc, ∅, ∅, fun _ => none⟩

/-- A login that gets to the tables makes the SA the current one of its user. -/
def login (w : RekeyWorld) (call : AcquireCall) : CString → Option UInt32 :=
  match w.alloc.served call with
  | some ikeSa => Function.update w.current (sessionName ikeSa) (some ikeSa.uniqueId)
  | none => w.current

/-- The calls charon makes when an SA goes down. -/
def downCalls (alloc : IpAllocator) (ikeSa : IkeSa) : IpAllocator :=
  ((alloc.ikeUpdown (some ikeSa) false).2.releaseAddress none none (some ikeSa)).2

/-- One event. `checkout_by_id` finds the SAs that exist, and a unique id goes with one name. -/
def step (w : RekeyWorld) : SaEvent → Option RekeyWorld
  | .up uid =>
    if uid ∈ w.known then none
    else some { w with present := insert uid w.present, known := insert uid w.known }
  | .acquire call answer =>
    if call.OwnedBy owner ∧ ∀ ikeSa ∈ call.ikeSa, ikeSa.uniqueId ∈ w.present then
      (w.alloc.step parse (.acquire call answer)).map fun alloc =>
        { w with alloc := alloc, current := w.login call }
    else none
  | .rekey uid newUid =>
    if uid ∈ w.present ∧ newUid ∉ w.known then
      some
        { w with
          present := insert newUid (w.present.erase uid)
          known := insert newUid w.known
          current := fun n => (w.current n).map fun u => if u = uid then newUid else u }
    else none
  | .down ikeSa =>
    if ikeSa.uniqueId ∈ w.present then
      some
        { w with
          alloc := downCalls w.alloc ikeSa
          present := w.present.erase ikeSa.uniqueId
          current := fun n => (w.current n).filter fun u => u ≠ ikeSa.uniqueId }
    else none
  | .lost uid => some { w with present := w.present.erase uid }
  | .sweep now entries =>
    (w.alloc.step parse (.sweep now w.present entries)).map fun alloc => { w with alloc := alloc }
  | .reload file =>
    (w.alloc.step parse (.reload file)).map fun alloc => { w with alloc := alloc }

/-- The runs whose events meet a guard. -/
abbrev Run (guard : List SaEvent → RekeyWorld → SaEvent → Prop) (alloc : IpAllocator) :
    List SaEvent → RekeyWorld → Prop :=
  Transition.Run (fun w e w' => w.step parse owner e = some w') guard (.start alloc)

/-- A sweep leaves the leases of users whose current SA exists. When the current SA of a user
goes down the lease is gone, and its address is free if it is one of the pool. -/
def Follows (w w' : RekeyWorld) : SaEvent → Prop
  | .sweep _ _ => ∀ n u l, w.current n = some u → u ∈ w.present → w.alloc.lease n = some l →
      w'.alloc.lease n = some l
  | .down ikeSa => ∀ n, w.current n = some ikeSa.uniqueId → w'.alloc.lease n = none ∧
      ∀ l p, w.alloc.lease n = some l → l.fixed = false → w'.alloc.dyn = some p →
        p.taken (p.slot l.ip) = false
  | _ => True

/-- Expired leases record the current SA of their user at a sweep, if it exists. A lease of the
SA that goes down records that. -/
def Recorded (w : RekeyWorld) : SaEvent → Prop
  | .sweep now _ => ∀ l ∈ w.alloc.liveLeases, l.expired now w.alloc.leaseTimeout = true →
      ∀ u ∈ w.current l.username, u ∈ w.present → l.uniqueId = u
  | .down ikeSa => ∀ l ∈ w.alloc.liveLeases, w.current l.username = some ikeSa.uniqueId →
      l.uniqueId = ikeSa.uniqueId
  | _ => True

instance (w : RekeyWorld) : DecidablePred w.Recorded
  | .sweep now _ => inferInstanceAs (Decidable (∀ l ∈ w.alloc.liveLeases,
      l.expired now w.alloc.leaseTimeout = true → ∀ u ∈ w.current l.username, u ∈ w.present →
        l.uniqueId = u))
  | .down ikeSa => inferInstanceAs (Decidable (∀ l ∈ w.alloc.liveLeases,
      w.current l.username = some ikeSa.uniqueId → l.uniqueId = ikeSa.uniqueId))
  | .up _ | .acquire .. | .rekey .. | .lost _ | .reload _ => inferInstanceAs (Decidable True)

end RekeyWorld

/-! ## Logins and releases in the book -/

namespace IpAllocator

variable {parse : CString → Option Host} {owner : UInt32 → CString} {tight : Prop}
  {s s' : IpAllocator} {call : AcquireCall} {answer : Option Host} {n : CString} {l : Lease}
  {u : UInt32}

/-- After a login, the lease of its user records its SA, and the other leases are as before. -/
theorem lease_of_login (hok : s.Ok tight []) (hb : s.sessions.Bound owner)
    (hown : call.OwnedBy owner) (h : s.step parse (.acquire call answer) = some s')
    (hl : s'.lease n = some l) :
    (∃ ikeSa, s.served call = some ikeSa ∧ sessionName ikeSa = n ∧
      l.uniqueId = ikeSa.uniqueId) ∨
    s.lease n = some l ∧ ∀ ikeSa, s.served call = some ikeSa → sessionName ikeSa ≠ n := by
  have hstep := book_step (e := .acquire call answer) hok hb hown h
  generalize hbook : s'.lease = b at hstep
  rw [hbook] at hl
  cases hstep with
  | refused hnone =>
    refine Or.inr ⟨hl, fun ikeSa hserved heq => ?_⟩
    simp [← heq, hnone ikeSa hserved] at hl
  | @renewed call ikeSa l' hserved hl' =>
    rcases eq_or_ne n (sessionName ikeSa) with rfl | hne
    · rw [Book.renew_self, hl'] at hl
      obtain rfl := Option.some.inj hl
      exact Or.inl ⟨ikeSa, hserved, rfl, rfl⟩
    · rw [Book.renew_of_ne hne] at hl
      refine Or.inr ⟨hl, fun ikeSa' hserved' => ?_⟩
      obtain rfl := Option.some.inj (hserved.symm.trans hserved')
      exact hne.symm
  | @entered call ikeSa ip isFixed dyn hserved hnone =>
    rcases eq_or_ne n (sessionName ikeSa) with rfl | hne
    · rw [Book.enter, Function.update_self] at hl
      obtain rfl := Option.some.inj hl
      exact Or.inl ⟨ikeSa, hserved, rfl, rfl⟩
    · rw [Book.enter_of_ne hne] at hl
      refine Or.inr ⟨hl, fun ikeSa' hserved' => ?_⟩
      obtain rfl := Option.some.inj (hserved.symm.trans hserved')
      exact hne.symm
  | struck hv => simp [Operation.released] at hv
  | idle he => exact he.elim

/-- A second release of a unique id finds nothing. -/
theorem releaseByUidImpl_twice (s : IpAllocator) (u : UInt32) :
    (s.releaseByUidImpl u).2.releaseByUidImpl u = (false, (s.releaseByUidImpl u).2) := by
  have hnone : (s.releaseByUidImpl u).2.sessions.byUid.get u = none := by
    cases hu : s.sessions.byUid.get u with
    | none => simpa [releaseByUidImpl_of_none hu] using hu
    | some r =>
      rw [releaseByUidImpl_of_some hu]
      simp [releaseFinish, SessionManager.leaseDestroy]
  generalize (s.releaseByUidImpl u).2 = s' at hnone
  rw [releaseByUidImpl_of_none hnone]

/-- The release of a lease frees its address in the pool. -/
theorem free_of_releaseByUidImpl (hok : s.Ok tight []) (hb : s.sessions.Bound owner)
    (hl : s.lease n = some l) (hfixed : l.fixed = false) {p : DynamicPool}
    (hp : (s.releaseByUidImpl l.uniqueId).2.dyn = some p) : p.taken (p.slot l.ip) = false := by
  obtain ⟨q, hq, hi, -, haddr⟩ := hok.lease_slot hl hfixed
  have hsized := (hok.lends.lent hq).sized
  obtain ⟨r, hr, rfl⟩ := lease_eq_some.1 hl
  have hu : s.sessions.byUid.get (s.sessions.obj r).uniqueId = some r := hb.paired.toA hr
  rw [releaseByUidImpl_of_some hu] at hp
  have hp' : p = q.release (s.sessions.obj r).ip := by
    simpa [releaseFinish, hq, hfixed, eq_comm, SessionManager.removeLease] using hp
  rw [hp', (q.sameRange_release _).slot_eq, haddr, hsized.slot_addr hi,
    DynamicPool.taken_release_addr hsized hi]
  simp

end IpAllocator

namespace RekeyWorld

variable {parse : CString → Option Host} {owner : UInt32 → CString} {w w' : RekeyWorld}
  {e : SaEvent} {alloc : IpAllocator} {call : AcquireCall} {ikeSa : IkeSa} {n : CString}
  {l : Lease} {u : UInt32}

/-- What is called when an SA goes down is one release, the second finds nothing. -/
theorem downCalls_eq (alloc : IpAllocator) (ikeSa : IkeSa) :
    downCalls alloc ikeSa = (alloc.releaseByUidImpl ikeSa.uniqueId).2 := by
  simp [downCalls, IpAllocator.ikeUpdown, IpAllocator.releaseAddress,
    IpAllocator.releaseByUidImpl_twice]

/-- The ways an event can go. -/
inductive StepCase (parse : CString → Option Host) (owner : UInt32 → CString) (w : RekeyWorld) :
    SaEvent → RekeyWorld → Prop
  | up {uid : UInt32} : uid ∉ w.known → StepCase parse owner w (.up uid)
      { w with present := insert uid w.present, known := insert uid w.known }
  | acquire {call : AcquireCall} {answer : Option Host} {alloc : IpAllocator} :
      call.OwnedBy owner → (∀ ikeSa ∈ call.ikeSa, ikeSa.uniqueId ∈ w.present) →
      w.alloc.step parse (.acquire call answer) = some alloc →
      StepCase parse owner w (.acquire call answer)
        { w with alloc := alloc, current := w.login call }
  | rekey {uid newUid : UInt32} : newUid ∉ w.known → StepCase parse owner w (.rekey uid newUid)
      { w with
        present := insert newUid (w.present.erase uid)
        known := insert newUid w.known
        current := fun n => (w.current n).map fun u => if u = uid then newUid else u }
  | down {ikeSa : IkeSa} : StepCase parse owner w (.down ikeSa)
      { w with
        alloc := (w.alloc.releaseByUidImpl ikeSa.uniqueId).2
        present := w.present.erase ikeSa.uniqueId
        current := fun n => (w.current n).filter fun u => u ≠ ikeSa.uniqueId }
  | lost {uid : UInt32} : StepCase parse owner w (.lost uid)
      { w with present := w.present.erase uid }
  | sweep {now : ℤ} {entries : List (Σ _ : UInt32, LeaseRef)} {alloc : IpAllocator} :
      w.alloc.step parse (.sweep now w.present entries) = some alloc →
      StepCase parse owner w (.sweep now entries) { w with alloc := alloc }
  | reload {file : PolicyFile} {alloc : IpAllocator} :
      w.alloc.step parse (.reload file) = some alloc →
      StepCase parse owner w (.reload file) { w with alloc := alloc }

/-- What an event does. -/
theorem step_cases (h : w.step parse owner e = some w') : StepCase parse owner w e w' := by
  cases e with
  | up uid =>
    simp only [step] at h
    split_ifs at h with hnew
    obtain rfl := Option.some.inj h
    exact .up hnew
  | acquire call answer =>
    simp only [step] at h
    split_ifs at h with hcall
    obtain ⟨alloc, halloc, rfl⟩ := Option.map_eq_some_iff.1 h
    exact .acquire hcall.1 hcall.2 halloc
  | rekey uid newUid =>
    simp only [step] at h
    split_ifs at h with huid
    obtain rfl := Option.some.inj h
    exact .rekey huid.2
  | down ikeSa =>
    simp only [step] at h
    split_ifs at h
    obtain rfl := Option.some.inj h
    rw [downCalls_eq]
    exact .down
  | lost uid =>
    obtain rfl := Option.some.inj h
    exact .lost
  | sweep now entries =>
    simp only [step] at h
    obtain ⟨alloc, halloc, rfl⟩ := Option.map_eq_some_iff.1 h
    exact .sweep halloc
  | reload file =>
    simp only [step] at h
    obtain ⟨alloc, halloc, rfl⟩ := Option.map_eq_some_iff.1 h
    exact .reload halloc

/-! ## What all runs keep -/

/-- A lease that records an SA that exists records the current one of its user. -/
structure Consistent (owner : UInt32 → CString) (w : RekeyWorld) : Prop where
  ok : w.alloc.Ok False []
  bound : w.alloc.sessions.Bound owner
  present : w.present ⊆ w.known
  known : ∀ {n l}, w.alloc.lease n = some l → l.uniqueId ∈ w.known
  current : ∀ {n u l}, w.current n = some u → w.alloc.lease n = some l →
    l.uniqueId ∈ w.present → l.uniqueId = u

theorem consistent_start {policy : PolicyEngine} {poolName : Option CString}
    {leaseTimeout : UInt32} {calloc : Option (ℕ → UInt8)} :
    (start (ipAllocatorCreate policy poolName leaseTimeout calloc)).Consistent owner where
  ok := IpAllocator.ok_create policy poolName leaseTimeout calloc False.elim
  bound := SessionManager.bound_create owner
  present := Finset.empty_subset _
  known hl := by simp [start, IpAllocator.lease_create] at hl
  current hu := by simp [start] at hu

/-- Leases, SAs and current SAs can go. -/
theorem Consistent.shrink (h : w.Consistent owner) {present : Finset UInt32}
    {current : CString → Option UInt32} (hok : alloc.Ok False [])
    (hb : alloc.sessions.Bound owner)
    (hlease : ∀ {n l}, alloc.lease n = some l → w.alloc.lease n = some l)
    (hpresent : present ⊆ w.present)
    (hcurrent : ∀ {n u}, current n = some u → w.current n = some u) :
    Consistent owner ⟨alloc, present, w.known, current⟩ :=
  ⟨hok, hb, hpresent.trans h.present, fun hl => h.known (hlease hl),
    fun hu hl hp => h.current (hcurrent hu) (hlease hl) (hpresent hp)⟩

/-- The book after a sweep. -/
theorem lease_of_sweep (h : w.Consistent owner) {now : ℤ}
    {entries : List (Σ _ : UInt32, LeaseRef)}
    (hs : w.alloc.step parse (.sweep now w.present entries) = some alloc) :
    alloc.lease n = some l ↔ w.alloc.lease n = some l ∧
      (l.uniqueId ∈ w.present ∨ l.expired now w.alloc.leaseTimeout = false) := by
  have hstep := IpAllocator.book_step (e := .sweep now _ entries) h.ok h.bound trivial hs
  generalize hbook : alloc.lease = b at hstep
  cases hstep with
  | expired => simp [Book.expire_eq_some]
  | struck hv => simp [Operation.released] at hv
  | idle he => exact he.elim

theorem lease_of_reload {file : PolicyFile}
    (hs : w.alloc.step parse (.reload file) = some alloc) : alloc.lease = w.alloc.lease := by
  obtain rfl := Option.some.inj hs
  rfl

/-- The book after an SA has gone down. -/
theorem lease_of_down (h : w.Consistent owner) :
    (w.alloc.releaseByUidImpl u).2.lease n = some l ↔
      w.alloc.lease n = some l ∧ l.uniqueId ≠ u := by
  rw [IpAllocator.lease_releaseByUidImpl h.ok h.bound, Book.strike_eq_some]

theorem login_served (hserved : w.alloc.served call = some ikeSa) :
    w.login call (sessionName ikeSa) = some ikeSa.uniqueId := by
  simp [login, hserved]

theorem login_of_ne (hne : ∀ ikeSa, w.alloc.served call = some ikeSa → sessionName ikeSa ≠ n) :
    w.login call n = w.current n := by
  unfold login
  cases hserved : w.alloc.served call with
  | none => rfl
  | some ikeSa => exact Function.update_of_ne (hne ikeSa hserved).symm _ _

/-- An event keeps the state consistent. -/
theorem Consistent.step (h : w.Consistent owner) (hs : w.step parse owner e = some w') :
    w'.Consistent owner := by
  cases step_cases hs with
  | @up uid hnew =>
    refine ⟨h.ok, h.bound, Finset.insert_subset_insert _ h.present,
      fun hl => Finset.mem_insert_of_mem (h.known hl), fun {n u l} hu hl hp => ?_⟩
    rcases Finset.mem_insert.1 hp with heq | hp
    · exact absurd (heq ▸ h.known hl) hnew
    · exact h.current hu hl hp
  | @acquire call answer alloc hown hpresent halloc =>
    have hlogin := fun {n l} =>
      IpAllocator.lease_of_login (n := n) (l := l) h.ok h.bound hown halloc
    refine ⟨IpAllocator.loose_step h.ok halloc,
      IpAllocator.bound_step (e := .acquire call answer) h.ok h.bound hown halloc, h.present,
      fun {n l} hl => ?_, fun {n u l} hu hl hp => ?_⟩
    · rcases hlogin hl with ⟨ikeSa, hserved, -, huid⟩ | ⟨hl, -⟩
      · exact huid ▸ h.present (hpresent ikeSa (IpAllocator.ikeSa_of_served hserved))
      · exact h.known hl
    · rcases hlogin hl with ⟨ikeSa, hserved, rfl, huid⟩ | ⟨hl, hne⟩
      · exact huid.trans (Option.some.inj ((login_served hserved).symm.trans hu))
      · exact h.current (login_of_ne hne ▸ hu) hl hp
  | @rekey uid newUid hnew =>
    refine ⟨h.ok, h.bound, Finset.insert_subset_insert _
      ((Finset.erase_subset _ _).trans h.present),
      fun hl => Finset.mem_insert_of_mem (h.known hl), fun {n u l} hu hl hp => ?_⟩
    -- the lease records neither the new unique id nor the one that is gone
    have hp' : l.uniqueId ∈ w.present.erase uid :=
      (Finset.mem_insert.1 hp).resolve_left fun heq => hnew (heq ▸ h.known hl)
    obtain ⟨hne, hp'⟩ := Finset.mem_erase.1 hp'
    obtain ⟨u', hu', rfl⟩ := Option.map_eq_some_iff.1 hu
    obtain rfl := h.current hu' hl hp'
    rw [if_neg hne]
  | down =>
    exact h.shrink (h.ok.releaseByUidImpl _) (IpAllocator.bound_releaseByUidImpl h.bound _)
      (fun hl => ((lease_of_down h).1 hl).1) (Finset.erase_subset _ _)
      fun hu => (Option.filter_eq_some_iff.1 hu).1
  | lost => exact h.shrink h.ok h.bound id (Finset.erase_subset _ _) id
  | @sweep now entries alloc halloc =>
    exact h.shrink (IpAllocator.loose_step h.ok halloc)
      (IpAllocator.bound_step (e := .sweep now _ entries) h.ok h.bound trivial halloc)
      (fun hl => ((lease_of_sweep h halloc).1 hl).1) subset_rfl id
  | @reload file alloc halloc =>
    exact h.shrink (IpAllocator.loose_step h.ok halloc)
      (IpAllocator.bound_step (e := .reload file) h.ok h.bound trivial halloc)
      (fun hl => lease_of_reload halloc ▸ hl) subset_rfl id

/-! ## Following the SAs -/

/-- In a consistent state a live lease is that of its user. -/
theorem Consistent.mem_liveLeases (h : w.Consistent owner) :
    l ∈ w.alloc.liveLeases ↔ w.alloc.lease l.username = some l := by
  rw [IpAllocator.mem_liveLeases]
  constructor
  · rintro ⟨n, hl⟩
    exact (h.ok.username_eq hl).symm ▸ hl
  · exact fun hl => ⟨_, hl⟩

/-- A step keeps the leases in line with the SAs iff those it looks at record the current SA. -/
theorem Consistent.follows_iff (h : w.Consistent owner) (hs : w.step parse owner e = some w') :
    w.Follows w' e ↔ w.Recorded e := by
  cases step_cases hs with
  | @sweep now entries alloc halloc =>
    constructor
    · intro hfollow l hmem hexp u hu hp
      have hl := h.mem_liveLeases.1 hmem
      have hkept := (lease_of_sweep h halloc).1 (hfollow _ u l hu hp hl)
      exact h.current hu hl (hkept.2.resolve_right (by simp [hexp]))
    · intro hrec n u l hu hp hl
      obtain rfl := h.ok.username_eq hl
      refine (lease_of_sweep h halloc).2 ⟨hl, ?_⟩
      by_cases hexp : l.expired now w.alloc.leaseTimeout = true
      · exact Or.inl (hrec l (h.mem_liveLeases.2 hl) hexp u hu hp ▸ hp)
      · exact Or.inr (by simpa using hexp)
  | @down ikeSa =>
    constructor
    · intro hfollow l hmem hu
      have hl := h.mem_liveLeases.1 hmem
      by_contra hne
      have hkept := (lease_of_down h).2 ⟨hl, hne⟩
      simp [(hfollow _ hu).1] at hkept
    · intro hrec n hu
      have huid : ∀ {l}, w.alloc.lease n = some l → l.uniqueId = ikeSa.uniqueId := by
        intro l hl
        obtain rfl := h.ok.username_eq hl
        exact hrec l (h.mem_liveLeases.2 hl) hu
      refine ⟨Option.eq_none_iff_forall_ne_some.2 fun l hl => ?_, fun l p hl hfixed hp => ?_⟩
      · obtain ⟨hl, hne⟩ := (lease_of_down h).1 hl
        exact hne (huid hl)
      · exact IpAllocator.free_of_releaseByUidImpl h.ok h.bound hl hfixed (huid hl ▸ hp)
  | up | acquire | rekey | lost | reload => exact Iff.rfl

/-- Users without a current SA have no lease. -/
def Ended (w : RekeyWorld) : Prop :=
  ∀ n, w.current n = none → w.alloc.lease n = none

/-- An event keeps it so, as long as leases record the current SAs. -/
theorem Ended.step (he : w.Ended) (h : w.Consistent owner) (hrec : w.Recorded e)
    (hs : w.step parse owner e = some w') : w'.Ended := by
  have hfollow := (h.follows_iff hs).2 hrec
  intro n hn
  cases step_cases hs with
  | up | lost => exact he n hn
  | acquire hown _ halloc =>
    refine Option.eq_none_iff_forall_ne_some.2 fun l hl => ?_
    rcases IpAllocator.lease_of_login h.ok h.bound hown halloc hl with
      ⟨ikeSa, hserved, rfl, -⟩ | ⟨hl, hne⟩
    · simp [login_served hserved] at hn
    · rw [he n (login_of_ne hne ▸ hn)] at hl
      simp at hl
  | rekey => exact he n (Option.map_eq_none_iff.1 hn)
  | @down ikeSa =>
    by_cases hu : w.current n = some ikeSa.uniqueId
    · exact (hfollow n hu).1
    · have hnone : w.current n = none := by
        refine Option.eq_none_iff_forall_ne_some.2 fun u hu' => ?_
        refine Option.filter_eq_none_iff.1 hn u hu' (decide_eq_true ?_)
        rintro rfl
        exact hu hu'
      refine Option.eq_none_iff_forall_ne_some.2 fun l hl => ?_
      have hl' := ((lease_of_down h).1 hl).1
      simp [he n hnone] at hl'
  | sweep halloc =>
    refine Option.eq_none_iff_forall_ne_some.2 fun l hl => ?_
    have hl' := ((lease_of_sweep h halloc).1 hl).1
    simp [he n hn] at hl'
  | reload halloc => exact (congrFun (lease_of_reload halloc) n).trans (he n hn)

end RekeyWorld

/-- In runs in which sweeps and releases only meet leases that record the current SA, users
whose SA is down have no lease. A further step keeps the leases in line with the SAs iff it
meets such leases only too. -/
theorem lease_follows {parse : CString → Option Host} {owner : UInt32 → CString}
    {policy : PolicyEngine} {poolName : Option CString} {leaseTimeout : UInt32}
    {calloc : Option (ℕ → UInt8)} {es : List SaEvent} {w : RekeyWorld}
    (h : RekeyWorld.Run parse owner (fun _ w e => w.Recorded e)
      (ipAllocatorCreate policy poolName leaseTimeout calloc) es w) :
    w.Ended ∧ ∀ e w', w.step parse owner e = some w' → (w.Follows w' e ↔ w.Recorded e) := by
  obtain ⟨hw, hended⟩ : w.Consistent owner ∧ w.Ended := by
    refine h.invariant (I := fun w => w.Consistent owner ∧ w.Ended)
      ⟨RekeyWorld.consistent_start, fun n _ => IpAllocator.lease_create n⟩ ?_
    intro es w e w' ⟨hw, hended⟩ hrec hs
    exact ⟨hw.step hs, hended.step hw hrec hs⟩
  exact ⟨hended, fun e w' hs => hw.follows_iff hs⟩

/-- `a` gets `10.0.0.1`, and the SA is rekeyed. -/
def rekeyedLogin : List SaEvent :=
  [.up 1, .acquire (login (letterSa 1 'a') 0) (some (tenNet 1)), .rekey 1 3]

/-- After the rekey `a` asks for an address again before the SA goes down. -/
theorem lease_follows_second_login : ∃ w w', RekeyWorld.Run (fun _ => none) oddEven
      (fun _ w e => w.Recorded e) (smallAlloc (smallPolicy [] 1 3))
      (rekeyedLogin ++ [.sweep 60 [⟨1, 0⟩],
        .acquire (login (letterSa 3 'a') 90) (some (tenNet 1))]) w ∧
    w.step (fun _ => none) oddEven (.down (letterSa 3 'a')) = some w' ∧
    w.Follows w' (.down (letterSa 3 'a')) ∧ w.current (letter 'a') = some 3 := by
  obtain ⟨w, hrun, hfacts⟩ := Run.exists_of_exec (by decide :
    (exec (RekeyWorld.step (fun _ => none) oddEven) (fun _ w e => w.Recorded e) []
      (.start (smallAlloc (smallPolicy [] 1 3))) (rekeyedLogin ++ [.sweep 60 [⟨1, 0⟩],
        .acquire (login (letterSa 3 'a') 90) (some (tenNet 1))])).map
      (fun w => ((w.step (fun _ => none) oddEven (.down (letterSa 3 'a'))).isSome,
        (w.Recorded (.down (letterSa 3 'a')) : Bool), w.current (letter 'a'))) =
    some (true, true, some 3))
  simp only [Prod.mk.injEq, decide_eq_true_eq] at hfacts
  obtain ⟨hstep, hrec, hcur⟩ := hfacts
  obtain ⟨w', hw'⟩ := Option.isSome_iff_exists.1 hstep
  exact ⟨w, w', hrun, hw', ((lease_follows hrun).2 _ w' hw').2 hrec, hcur⟩

/-- A sweep after the timeout takes the lease away, and the down of the SA leaves it. -/
theorem not_lease_follows :
    (¬∀ (es : List SaEvent) (w w' : RekeyWorld) (now : ℤ) (entries : List (Σ _ : UInt32, LeaseRef)),
      RekeyWorld.Run (fun _ => none) oddEven (fun _ _ _ => True)
        (smallAlloc (smallPolicy [] 1 3)) es w →
      w.step (fun _ => none) oddEven (.sweep now entries) = some w' →
      w.Follows w' (.sweep now entries)) ∧
    ¬∀ (es : List SaEvent) (w w' : RekeyWorld) (ikeSa : IkeSa),
      RekeyWorld.Run (fun _ => none) oddEven (fun _ _ _ => True)
        (smallAlloc (smallPolicy [] 1 3)) es w →
      w.step (fun _ => none) oddEven (.down ikeSa) = some w' → w.Follows w' (.down ikeSa) := by
  constructor <;> intro hall
  · obtain ⟨w, hrun, hfacts⟩ := Run.exists_of_exec (by decide :
      (exec (RekeyWorld.step (fun _ => none) oddEven) (fun _ _ _ => True) []
        (.start (smallAlloc (smallPolicy [] 1 3))) rekeyedLogin).map
        (fun w => (w.current (letter 'a'), (3 ∈ w.present : Bool), w.alloc.lease (letter 'a'),
          (w.step (fun _ => none) oddEven (.sweep 4000 [⟨1, 0⟩])).map
            fun w' => w'.alloc.lease (letter 'a'))) =
      some (some 3, true, some ⟨letter 'a', 1, tenNet 1, false, 0⟩, some none))
    simp only [Prod.mk.injEq, decide_eq_true_eq] at hfacts
    obtain ⟨hcur, hpresent, hlease, hstep⟩ := hfacts
    obtain ⟨w', hw', hnone⟩ := Option.map_eq_some_iff.1 hstep
    have hkept := hall _ w w' _ _ hrun hw' _ _ _ hcur hpresent hlease
    simp [hnone] at hkept
  · obtain ⟨w, hrun, hfacts⟩ := Run.exists_of_exec (by decide :
      (exec (RekeyWorld.step (fun _ => none) oddEven) (fun _ _ _ => True) []
        (.start (smallAlloc (smallPolicy [] 1 3))) rekeyedLogin).map
        (fun w => (w.current (letter 'a'),
          (w.step (fun _ => none) oddEven (.down (letterSa 3 'a'))).map
            fun w' => w'.alloc.lease (letter 'a'))) =
      some (some 3, some (some ⟨letter 'a', 1, tenNet 1, false, 0⟩)))
    obtain ⟨hcur, hstep⟩ := Prod.mk.inj hfacts
    obtain ⟨w', hw', hlease⟩ := Option.map_eq_some_iff.1 hstep
    have hgone := (hall _ w w' _ hrun hw' _ hcur).1
    simp [hlease] at hgone

end Cupp
