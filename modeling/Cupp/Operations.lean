import Cupp.Book
import Cupp.Sections

/-!
# Whole operations

The calls charon makes (`Operation`) run here one after the other, each to its end : the
two methods of the attribute provider, the listener's `ike_updown`, the sweep job and a
policy reload. An operation is a run of critical sections (`step_refines`), so the
invariants of the sections hold between operations.

`book_step` says what an operation does to the book of leases.
-/

set_option linter.unusedSectionVars false

open Transition

namespace Cupp

/-- A call with what it asks of its surroundings, and the answer of `acquire_address`. A
sweep comes with the unique ids that `checkout_by_id` finds, and the order of `by_uid`. -/
inductive Operation
  | acquire (call : AcquireCall) (answer : Option Host)
  | releaseAddress (pools : Option (List (Option CString))) (address : Option Host)
      (ikeSa : Option IkeSa)
  | ikeUpdown (ikeSa : Option IkeSa) (up : Bool)
  | sweep (now : ℤ) (alive : Finset UInt32) (entries : List (Σ _ : UInt32, LeaseRef))
  | reload (file : PolicyFile)
  deriving DecidableEq

namespace Operation

/-- The unique id the operation releases. -/
def released : Operation → Option UInt32
  | releaseAddress _ _ ikeSa => ikeSa.map (·.uniqueId)
  | ikeUpdown ikeSa up => if up then none else ikeSa.map (·.uniqueId)
  | _ => none

/-- A call that finds nothing to do : no IKE_SA, or one that comes up. -/
def Idle : Operation → Prop
  | releaseAddress _ _ ikeSa => ikeSa = none
  | ikeUpdown ikeSa up => ikeSa = none ∨ up = true
  | _ => False

/-- The SA that is given an address, and the address. -/
def granted : Operation → Option (IkeSa × Host)
  | acquire call (some ip) => call.ikeSa.map fun ikeSa => (ikeSa, ip)
  | _ => none

/-- `P` holds of the call if the operation is an `acquire_address`. -/
def OnAcquire (P : AcquireCall → Prop) : Operation → Prop
  | acquire call _ => P call
  | _ => True

instance (P : AcquireCall → Prop) [DecidablePred P] : DecidablePred (OnAcquire P)
  | acquire call _ => inferInstanceAs (Decidable (P call))
  | releaseAddress .. | ikeUpdown .. | sweep .. | reload _ => inferInstanceAs (Decidable True)

theorem onAcquire_of {P : AcquireCall → Prop} (h : ∀ call, P call) (e : Operation) :
    e.OnAcquire P := by
  cases e with
  | acquire call => exact h call
  | releaseAddress | ikeUpdown | sweep | reload => trivial

/-- The policy is not reloaded. -/
def KeepsPolicy : Operation → Prop
  | reload _ => False
  | _ => True

instance : DecidablePred KeepsPolicy
  | reload _ => inferInstanceAs (Decidable False)
  | acquire .. | releaseAddress .. | ikeUpdown .. | sweep .. => inferInstanceAs (Decidable True)

theorem granted_acquire {call : AcquireCall} {ikeSa : IkeSa} (hsa : call.ikeSa = some ikeSa)
    (ip : Host) : (acquire call (some ip)).granted = some (ikeSa, ip) := by
  simp [granted, hsa]

theorem granted_of_released {e : Operation} {u : UInt32} (h : e.released = some u) :
    e.granted = none := by
  cases e with
  | acquire => simp [released] at h
  | releaseAddress | ikeUpdown | sweep | reload => rfl

theorem Idle.quiet {e : Operation} (h : e.Idle) : e.granted = none ∧ e.released = none := by
  cases e with
  | releaseAddress pools address ikeSa =>
    obtain rfl : ikeSa = none := h
    exact ⟨rfl, rfl⟩
  | ikeUpdown ikeSa up =>
    rcases h with rfl | rfl
    · cases up <;> exact ⟨rfl, rfl⟩
    · exact ⟨rfl, rfl⟩
  | acquire | sweep | reload => exact h.elim

end Operation

variable (parse : CString → Option Host)

/-- One operation. An operation labelled with an answer has to give it, and a sweep lists
the entries of `by_uid`. -/
def IpAllocator.step (s : IpAllocator) : Operation → Option IpAllocator
  | .acquire call answer =>
    match s.acquireAddress call with
    | (answer', s') => if answer' = answer then some s' else none
  | .releaseAddress pools address ikeSa => some (s.releaseAddress pools address ikeSa).2
  | .ikeUpdown ikeSa up => some (s.ikeUpdown ikeSa up).2
  | .sweep now alive entries =>
    if Hashtable.Enumerates entries s.sessions.byUid then
      some (s.sweep now (fun uid => uid ∈ alive) entries)
    else none
  | .reload file => some (s.reloadPolicy parse file).2

/-- Runs of operations. -/
abbrev IpAllocator.Run (guard : List Operation → IpAllocator → Operation → Prop)
    (s : IpAllocator) : List Operation → IpAllocator → Prop :=
  Transition.Run (fun s e s' => s.step parse e = some s') guard s

variable {parse} {tight : Prop} {owner : UInt32 → CString} {P : AcquireCall → Prop}
  {s s' : IpAllocator} {e : Operation} {u : UInt32} {r : LeaseRef}

namespace IpAllocator

/-! ## What an operation does -/

/-- The ways an operation can go. -/
inductive StepCase (parse : CString → Option Host) (s : IpAllocator) :
    Operation → IpAllocator → Prop
  | answered {call : AcquireCall} {answer : Option Host} {s' : IpAllocator} :
      s.acquireEnter call = (.done answer, s') → StepCase parse s (.acquire call answer) s'
  | rolledBack {call : AcquireCall} {ikeSa : IkeSa} {s₁ : IpAllocator} :
      s.acquireEnter call = (.rollback, s₁) → call.ikeSa = some ikeSa →
      StepCase parse s (.acquire call none) (s₁.releaseByUidImpl ikeSa.uniqueId).2
  | release {e : Operation} {u : UInt32} : e.released = some u →
      StepCase parse s e (s.releaseByUidImpl u).2
  | idle {e : Operation} : e.Idle → StepCase parse s e s
  | sweep {now : ℤ} {alive : Finset UInt32} {entries : List (Σ _ : UInt32, LeaseRef)} :
      Hashtable.Enumerates entries s.sessions.byUid →
      StepCase parse s (.sweep now alive entries) (s.sweep now (fun uid => uid ∈ alive) entries)
  | reload {file : PolicyFile} : StepCase parse s (.reload file) (s.reloadPolicy parse file).2

/-- What an operation does. -/
theorem step_cases (h : s.step parse e = some s') : StepCase parse s e s' := by
  cases e with
  | acquire call answer =>
    cases hacq : s.acquireEnter call with
    | mk outcome s₁ =>
      cases outcome with
      | done answer' =>
        simp only [step, acquireAddress, hacq] at h
        split_ifs at h with heq
        obtain rfl := Option.some.inj h
        exact .answered (heq ▸ hacq)
      | rollback =>
        obtain ⟨ikeSa, hsa⟩ : ∃ ikeSa, call.ikeSa = some ikeSa := by
          generalize hout : Acquired.rollback = out at hacq
          cases acquireEnter_cases hacq with
          | skipped | reused | refused => simp at hout
          | bound hsa => exact ⟨_, ikeSa_of_served hsa⟩
        simp only [step, acquireAddress, hacq, hsa] at h
        split_ifs at h with heq
        obtain rfl := Option.some.inj h
        subst heq
        exact .rolledBack hacq hsa
  | releaseAddress pools address ikeSa =>
    obtain rfl := Option.some.inj h
    cases ikeSa with
    | none => exact .idle rfl
    | some ikeSa => exact .release rfl
  | ikeUpdown ikeSa up =>
    obtain rfl := Option.some.inj h
    cases ikeSa with
    | none => exact .idle (Or.inl rfl)
    | some ikeSa =>
      cases up with
      | true => exact .idle (Or.inr rfl)
      | false => exact .release rfl
  | sweep now alive entries =>
    simp only [step] at h
    split_ifs at h with hes
    obtain rfl := Option.some.inj h
    exact .sweep hes
  | reload file =>
    obtain rfl := Option.some.inj h
    exact .reload

/-! ## Operations as runs of critical sections -/

/-- A release is a run of at most two sections. -/
theorem releaseByUidImpl_run (parse : CString → Option Host) (P : AcquireCall → Prop)
    (s : IpAllocator) (u : UInt32) : ∃ es,
    World.Run parse (fun _ _ e => e.OnAcquire P) s es (.start (s.releaseByUidImpl u).2) := by
  cases hu : s.sessions.byUid.get u with
  | none =>
    rw [releaseByUidImpl_of_none hu]
    refine ⟨[.unbind u], .single trivial ?_⟩
    simp [World.start, World.step, releaseUnbind_of_none hu]
  | some r =>
    have hunbind : (World.start s).step parse (.unbind u) =
        some ⟨{ s with sessions := s.sessions.removeLease u r }, [r]⟩ := by
      simp [World.start, World.step, releaseUnbind_of_some hu]
    rw [releaseByUidImpl_of_some hu]
    refine ⟨[.unbind u, .finish r], .snoc (.single trivial hunbind) trivial ?_⟩
    simp [World.start, World.step]

/-- What holds of every release, and can be composed, holds of a sweep. -/
theorem rel_sweep {R : IpAllocator → IpAllocator → Prop} (hrefl : ∀ s, R s s)
    (htrans : ∀ {s₁ s₂ s₃}, R s₁ s₂ → R s₂ s₃ → R s₁ s₃)
    (hrelease : ∀ s u, R s (s.releaseByUidImpl u).2) (s : IpAllocator) (now : ℤ)
    (checkoutById : UInt32 → Bool) (entries : List (Σ _ : UInt32, LeaseRef)) :
    R s (s.sweep now checkoutById entries) := by
  unfold sweep
  generalize s.sessions.expiring now s.leaseTimeout entries = rs
  induction rs generalizing s with
  | nil => exact hrefl s
  | cons r rs ih =>
    refine htrans ?_ (ih (s.sweepCb checkoutById r))
    unfold sweepCb
    by_cases hc : checkoutById (s.sessions.obj r).uniqueId = true
    · rw [if_pos hc]
      exact hrefl s
    · rw [if_neg hc]
      exact hrelease s _

/-- Each operation is a run of critical sections, and its call of `acquire_address` the only
one of the run. -/
theorem step_refines (hP : e.OnAcquire P) (h : s.step parse e = some s') : ∃ es,
    World.Run parse (fun _ _ e => e.OnAcquire P) s es (.start s') := by
  have hacquire : ∀ {call outcome s₁}, P call → s.acquireEnter call = (outcome, s₁) →
      World.Run parse (fun _ _ e => e.OnAcquire P) s [.acquire call outcome] (.start s₁) := by
    intro call outcome s₁ hP hacq
    refine .single hP ?_
    simp [World.start, World.step, hacq]
  cases step_cases h with
  | answered hacq => exact ⟨_, hacquire hP hacq⟩
  | @rolledBack call ikeSa s₁ hacq =>
    obtain ⟨es, hes⟩ := releaseByUidImpl_run parse P s₁ ikeSa.uniqueId
    exact ⟨_, (hacquire hP hacq).append hes⟩
  | release => exact releaseByUidImpl_run parse P s _
  | idle => exact ⟨[], .nil⟩
  | sweep =>
    refine rel_sweep (R := fun s s' => ∃ es, World.Run parse (fun _ _ e => e.OnAcquire P) s es
      (.start s')) (fun s => ⟨[], .nil⟩) ?_ (releaseByUidImpl_run parse P) s _ _ _
    rintro s₁ s₂ s₃ ⟨es₁, h₁⟩ ⟨es₂, h₂⟩
    exact ⟨es₁ ++ es₂, h₁.append h₂⟩
  | reload => exact ⟨[.reload _], .single trivial rfl⟩

/-- A run of operations is a run of critical sections. -/
theorem run_refines {guard : List Operation → IpAllocator → Operation → Prop}
    {es : List Operation} (hguard : ∀ es s e, guard es s e → e.OnAcquire P)
    (h : IpAllocator.Run parse guard s es s') :
    ∃ es, World.Run parse (fun _ _ e => e.OnAcquire P) s es (.start s') := by
  have hsim : ∀ es s₁ e s₂ (w : World), w = .start s₁ → guard es s₁ e →
      s₁.step parse e = some s₂ → ∃ es' w', Transition.Run
        (fun (w : World) e w' => w.step parse e = some w') (fun _ _ e => e.OnAcquire P) w es' w' ∧
        w' = .start s₂ := by
    rintro es s₁ e s₂ _ rfl hg hs
    obtain ⟨es', hes'⟩ := step_refines (hguard es s₁ e hg) hs
    exact ⟨es', _, hes', rfl⟩
  obtain ⟨es', w, hrun, rfl⟩ := h.simulate (fun s w => w = World.start s) rfl hsim
  exact ⟨es', hrun⟩

/-- Operations keep the invariant of the critical sections. -/
theorem ok_step (hok : s.Ok tight []) (hmem : e.OnAcquire fun call => tight → call.mem = .ok)
    (h : s.step parse e = some s') : s'.Ok tight [] := by
  obtain ⟨es, hes⟩ := step_refines hmem h
  exact World.ok_of_run hok (fun _ _ _ hg => hg) hes

/-- Operations keep the correspondence of the tables. -/
theorem bound_step (hok : s.Ok False []) (hb : s.sessions.Bound owner)
    (hown : e.OnAcquire (·.OwnedBy owner)) (h : s.step parse e = some s') :
    s'.sessions.Bound owner := by
  obtain ⟨es, hes⟩ := step_refines hown h
  exact World.bound_of_run hok hb (fun _ _ _ hg => hg) hes

/-- Whatever memory it finds, an operation keeps the invariant. -/
theorem loose_step (hok : s.Ok False []) (h : s.step parse e = some s') : s'.Ok False [] :=
  ok_step hok (e.onAcquire_of fun _ => False.elim) h

/-- In all runs of operations the allocator is in order. -/
theorem loose_of_run {guard : List Operation → IpAllocator → Operation → Prop}
    {es : List Operation} (hok : s.Ok False []) (h : IpAllocator.Run parse guard s es s') :
    s'.Ok False [] := by
  obtain ⟨es', hes'⟩ := run_refines (P := fun call => False → call.mem = .ok)
    (fun _ _ e _ => e.onAcquire_of fun _ => False.elim) h
  exact World.ok_of_run hok (fun _ _ _ hg => hg) hes'

/-- Runs in which each unique id goes with one name keep the tables in correspondence. -/
theorem bound_of_run {guard : List Operation → IpAllocator → Operation → Prop}
    {es : List Operation} (hok : s.Ok False []) (hb : s.sessions.Bound owner)
    (hguard : ∀ es s e, guard es s e → e.OnAcquire (·.OwnedBy owner))
    (h : IpAllocator.Run parse guard s es s') : s'.sessions.Bound owner := by
  obtain ⟨es', hes'⟩ := run_refines hguard h
  exact World.bound_of_run hok hb (fun _ _ _ hg => hg) hes'

/-! ## Releases and sweeps in the book -/

/-- A release keeps the allocator in order. -/
theorem Ok.releaseByUidImpl {pending : List LeaseRef} (h : s.Ok tight pending) (u : UInt32) :
    (s.releaseByUidImpl u).2.Ok tight pending := by
  cases hu : s.sessions.byUid.get u with
  | none =>
    rw [releaseByUidImpl_of_none hu]
    exact h
  | some r =>
    have hfinish := (h.removeLease hu).releaseFinish List.mem_cons_self
    rw [List.erase_cons_head] at hfinish
    rw [releaseByUidImpl_of_some hu]
    exact hfinish

theorem obj_releaseByUidImpl (s : IpAllocator) (u : UInt32) :
    (s.releaseByUidImpl u).2.sessions.obj = s.sessions.obj := by
  cases hu : s.sessions.byUid.get u with
  | none => simp [releaseByUidImpl_of_none hu]
  | some r =>
    rw [releaseByUidImpl_of_some hu]
    rfl

theorem bound_releaseByUidImpl (hb : s.sessions.Bound owner) (u : UInt32) :
    (s.releaseByUidImpl u).2.sessions.Bound owner := by
  cases hu : s.sessions.byUid.get u with
  | none => simpa [releaseByUidImpl_of_none hu] using hb
  | some r =>
    rw [releaseByUidImpl_of_some hu]
    exact (hb.removeLease hu).leaseDestroy

/-- A release takes the leases of the unique id out of the book. -/
theorem lease_releaseByUidImpl (h : s.Ok tight []) (hb : s.sessions.Bound owner) (u : UInt32) :
    (s.releaseByUidImpl u).2.lease = s.lease.strike u := by
  cases hu : s.sessions.byUid.get u with
  | none =>
    rw [lease_strike_of_none hb hu, releaseByUidImpl_of_none hu]
  | some r =>
    rw [← lease_removeLease h hb hu, releaseByUidImpl_of_some hu]
    exact lease_releaseFinish r

/-- The callbacks of a sweep strike out the leases of the list whose SA is gone. -/
theorem lease_sweepCb (checkoutById : UInt32 → Bool) (rs : List LeaseRef) (h : s.Ok tight [])
    (hb : s.sessions.Bound owner) (n : CString) (l : Lease) :
    (rs.foldl (fun this r => this.sweepCb checkoutById r) s).lease n = some l ↔
      s.lease n = some l ∧ ∀ r ∈ rs, (s.sessions.obj r).uniqueId = l.uniqueId →
        checkoutById l.uniqueId = true := by
  induction rs generalizing s with
  | nil => simp
  | cons r rs ih =>
    rw [List.foldl_cons, sweepCb]
    by_cases hc : checkoutById (s.sessions.obj r).uniqueId = true
    · rw [if_pos hc, ih h hb, List.forall_mem_cons]
      refine and_congr_right fun _ => (and_iff_right fun heq => ?_).symm
      rwa [← heq]
    · rw [if_neg hc, ih (h.releaseByUidImpl _) (bound_releaseByUidImpl hb _),
        obj_releaseByUidImpl, lease_releaseByUidImpl h hb, Book.strike_eq_some, and_assoc,
        List.forall_mem_cons]
      -- the struck unique id is the only one the head of the list speaks of
      refine and_congr_right fun _ => and_congr_left fun _ =>
        ⟨fun hne heq => ?_, fun himp heq => ?_⟩
      · exact absurd heq.symm hne
      · exact hc (heq ▸ himp heq.symm)

/-- A sweep takes out the expired leases whose SA is not there. -/
theorem lease_sweep (h : s.Ok tight []) (hb : s.sessions.Bound owner) (now : ℤ)
    (checkoutById : UInt32 → Bool) {entries : List (Σ _ : UInt32, LeaseRef)}
    (hes : Hashtable.Enumerates entries s.sessions.byUid) :
    (s.sweep now checkoutById entries).lease =
      s.lease.expire now s.leaseTimeout checkoutById := by
  funext n
  refine Option.ext fun l => ?_
  rw [sweep, lease_sweepCb checkoutById _ h hb, Book.expire_eq_some]
  refine and_congr_right fun hl => ?_
  obtain ⟨r, hr, rfl⟩ := lease_eq_some.1 hl
  have hfiled := hb.paired.toA hr
  have hmem : ∀ r', r' ∈ s.sessions.expiring now s.leaseTimeout entries ↔
      (∃ u, s.sessions.byUid.get u = some r') ∧
        (s.sessions.obj r').expired now s.leaseTimeout = true := by
    intro r'
    rw [SessionManager.expiring, List.mem_filter, List.mem_map]
    refine and_congr_left fun _ => ⟨?_, ?_⟩
    · rintro ⟨⟨u, r''⟩, he, rfl⟩
      exact ⟨u, (hes.mem_iff u r'').1 he⟩
    · rintro ⟨u, hu⟩
      exact ⟨⟨u, r'⟩, (hes.mem_iff u r').2 hu, rfl⟩
  constructor
  · intro hspared
    by_cases hexp : (s.sessions.obj r).expired now s.leaseTimeout = true
    · exact Or.inl (hspared r ((hmem r).2 ⟨⟨_, hfiled⟩, hexp⟩) rfl)
    · exact Or.inr (by simpa using hexp)
  · intro hkeep r' hr' heq
    obtain ⟨⟨u, hu⟩, hexp⟩ := (hmem r').1 hr'
    -- the lease filed under this unique id is the one in the book
    have hrr : r' = r := by
      have hu' : s.sessions.byUid.get (s.sessions.uid r) = some r' := by
        rw [← show s.sessions.uid r' = s.sessions.uid r from heq, h.sessions.uid_eq hu]
        exact hu
      exact Option.some.inj (hu'.symm.trans hfiled)
    subst hrr
    exact hkeep.resolve_right (by simp [hexp])

/-! ## The book across an operation -/

/-- What an operation does to the book. -/
inductive BookStep (s : IpAllocator) : Operation → Book → Prop
  | refused {call : AcquireCall} :
      (∀ ikeSa, s.served call = some ikeSa → s.lease (sessionName ikeSa) = none) →
      BookStep s (.acquire call none) s.lease
  | renewed {call : AcquireCall} {ikeSa : IkeSa} {l : Lease} : s.served call = some ikeSa →
      s.lease (sessionName ikeSa) = some l →
      BookStep s (.acquire call (if call.mem.result then some l.ip else none))
        (s.lease.renew (sessionName ikeSa) ikeSa.uniqueId call.now)
  | entered {call : AcquireCall} {ikeSa : IkeSa} {ip : Host} {isFixed : Bool}
      {dyn : Option DynamicPool} : s.served call = some ikeSa →
      s.lease (sessionName ikeSa) = none →
      NewAddress s (sessionName ikeSa) call.mem (some ip) isFixed dyn →
      BookStep s (.acquire call (some ip))
        (s.lease.enter ⟨sessionName ikeSa, ikeSa.uniqueId, ip, isFixed, call.now⟩)
  | struck {e : Operation} {u : UInt32} : e.released = some u → BookStep s e (s.lease.strike u)
  | idle {e : Operation} : e.Idle → BookStep s e s.lease
  | expired {now : ℤ} {alive : Finset UInt32} {entries : List (Σ _ : UInt32, LeaseRef)} :
      BookStep s (.sweep now alive entries)
        (s.lease.expire now s.leaseTimeout fun uid => uid ∈ alive)
  | reload {file : PolicyFile} : BookStep s (.reload file) s.lease

/-- A lease that is rolled back leaves the book as it was. -/
theorem strike_enter (hb : s.sessions.Bound owner) (hu : s.sessions.byUid.get u = none)
    {l : Lease} (hl : l.uniqueId = u) (hn : s.lease l.username = none) :
    (s.lease.enter l).strike u = s.lease := by
  rw [← lease_strike_of_none hb hu]
  funext m
  rcases eq_or_ne m l.username with rfl | hne
  · simp [Book.strike, Book.enter_self, hn, hl, Option.filter]
  · simp [Book.strike, Book.enter_of_ne hne]

/-- What an operation does to the book. -/
theorem book_step (hok : s.Ok tight []) (hb : s.sessions.Bound owner)
    (hown : e.OnAcquire (·.OwnedBy owner)) (h : s.step parse e = some s') :
    BookStep s e s'.lease := by
  cases step_cases h with
  | @answered call answer s' hacq =>
    generalize hout : Acquired.done answer = out at hacq
    cases acquireEnter_cases hacq with
    | skipped hserved =>
      obtain rfl := Acquired.done.inj hout
      exact .refused fun ikeSa h => by simp [hserved] at h
    | @reused ikeSa r hserved hr =>
      obtain rfl := Acquired.done.inj hout
      rw [lease_moveLease hok hr]
      exact .renewed hserved (lease_of_byUser hr)
    | refused hserved hn =>
      obtain rfl := Acquired.done.inj hout
      refine .refused fun ikeSa h => ?_
      obtain rfl := Option.some.inj (hserved.symm.trans h)
      exact lease_eq_none.2 hn
    | @bound ikeSa ip isFixed dyn hserved hn hnew =>
      by_cases hres : call.mem.result = true
      · rw [if_pos hres] at hout
        obtain rfl := Acquired.done.inj hout
        rw [lease_putLease hok]
        exact .entered hserved (lease_eq_none.2 hn) hnew
      · simp [hres] at hout
  | @rolledBack call ikeSa s₁ hacq hsa =>
    have hok₁ := hok.loose.acquireEnter False.elim hacq
    generalize hout : Acquired.rollback = out at hacq
    cases acquireEnter_cases hacq with
    | skipped | reused | refused => simp at hout
    | @bound ikeSa' ip isFixed dyn hserved hn =>
      obtain rfl := Option.some.inj ((ikeSa_of_served hserved).symm.trans hsa)
      have howner := hown _ hsa
      rw [lease_releaseByUidImpl hok₁ (hb.putLease hok.sessions hn howner.symm),
        lease_putLease hok,
        strike_enter hb (hb.byUid_eq_none (howner ▸ hn)) rfl (lease_eq_none.2 hn)]
      refine .refused fun ikeSa h => ?_
      obtain rfl := Option.some.inj (hserved.symm.trans h)
      exact lease_eq_none.2 hn
  | release hu =>
    rw [lease_releaseByUidImpl hok hb]
    exact .struck hu
  | idle he => exact .idle he
  | sweep hes =>
    rw [lease_sweep hok hb _ _ hes]
    exact .expired
  | reload => exact .reload

/-- A release adds nothing to the book. -/
theorem within_releaseByUidImpl (s : IpAllocator) (u : UInt32) :
    (s.releaseByUidImpl u).2.lease.Within s.lease := by
  cases hu : s.sessions.byUid.get u with
  | none =>
    rw [releaseByUidImpl_of_none hu]
    exact .refl _
  | some r =>
    rw [releaseByUidImpl_of_some hu]
    exact s.within_removeLease u r

/-- Whatever the unique ids, an operation brings at most one new lease into the book. -/
theorem within_step (hok : s.Ok tight []) (h : s.step parse e = some s') :
    s'.lease.Within s.lease ∨ ∃ call answer l, e = .acquire call answer ∧ s.Enters call l ∧
      s'.lease.Within (s.lease.enter l) := by
  cases step_cases h with
  | answered hacq =>
    rcases (acquireEnter_cases hacq).book hok with hw | ⟨l, hl, heq⟩
    · exact Or.inl hw
    · exact Or.inr ⟨_, _, l, rfl, hl, heq ▸ .refl _⟩
  | @rolledBack call ikeSa s₁ hacq =>
    have hrel := s₁.within_releaseByUidImpl ikeSa.uniqueId
    rcases (acquireEnter_cases hacq).book hok with hw | ⟨l, hl, heq⟩
    · exact Or.inl (hrel.trans hw)
    · exact Or.inr ⟨_, _, l, rfl, hl, heq ▸ hrel⟩
  | release => exact Or.inl (s.within_releaseByUidImpl _)
  | idle => exact Or.inl (.refl _)
  | sweep =>
    exact Or.inl (rel_sweep (R := fun s s' => s'.lease.Within s.lease) (fun s => .refl s.lease)
      (fun h h' => h'.trans h) within_releaseByUidImpl s _ _ _)
  | reload => exact Or.inl (.refl _)

/-- An answer of `acquire_address` is the address in the user's lease. -/
theorem lease_of_answer (hok : s.Ok tight []) {call : AcquireCall} {ikeSa : IkeSa} {ip : Host}
    (h : s.step parse (.acquire call (some ip)) = some s') (hsa : call.ikeSa = some ikeSa) :
    ∃ l, s'.lease (sessionName ikeSa) = some l ∧ l.ip = ip ∧ l.uniqueId = ikeSa.uniqueId := by
  cases step_cases h with
  | answered hacq =>
    obtain ⟨ikeSa', l, hserved, hl⟩ := (acquireEnter_cases hacq).answered hok
    obtain rfl := Option.some.inj ((ikeSa_of_served hserved).symm.trans hsa)
    exact ⟨l, hl⟩
  | release hu => simp [Operation.released] at hu
  | idle he => exact he.elim

/-! ## The settings across an operation -/

/-- The same settings : the policy, the name, the timeout, and the range of the pool. -/
structure SameSetup (s s' : IpAllocator) : Prop where
  policy : s'.policy = s.policy
  poolName : s'.poolName = s.poolName
  leaseTimeout : s'.leaseTimeout = s.leaseTimeout
  dyn : Option.Rel DynamicPool.SameRange s.dyn s'.dyn

theorem rel_sameRange_refl (dyn : Option DynamicPool) :
    Option.Rel DynamicPool.SameRange dyn dyn := by
  cases dyn with
  | none => exact .none
  | some p => exact .some (.refl p)

theorem SameSetup.refl (s : IpAllocator) : SameSetup s s :=
  ⟨rfl, rfl, rfl, rel_sameRange_refl s.dyn⟩

theorem SameSetup.trans {s₁ s₂ s₃ : IpAllocator} (h : SameSetup s₁ s₂) (h' : SameSetup s₂ s₃) :
    SameSetup s₁ s₃ := by
  refine ⟨h'.policy.trans h.policy, h'.poolName.trans h.poolName,
    h'.leaseTimeout.trans h.leaseTimeout, ?_⟩
  have hdyn := h.dyn
  have hdyn' := h'.dyn
  revert hdyn hdyn'
  generalize s₁.dyn = d₁, s₂.dyn = d₂, s₃.dyn = d₃
  rintro (⟨hr⟩ | _) (⟨hr'⟩ | _)
  · exact .some (hr.trans hr')
  · exact .none

theorem SameSetup.dyn_eq_some (h : SameSetup s s') {p' : DynamicPool} (hp' : s'.dyn = some p') :
    ∃ p, s.dyn = some p ∧ DynamicPool.SameRange p p' := by
  have hdyn := h.dyn
  rw [hp'] at hdyn
  cases hd : s.dyn with
  | none =>
    rw [hd] at hdyn
    nomatch hdyn
  | some p =>
    rw [hd] at hdyn
    cases hdyn with
    | some hsame => exact ⟨p, rfl, hsame⟩

theorem NewAddress.sameRange {n : CString} {mem : Alloc} {ip : Option Host} {isFixed : Bool}
    {dyn : Option DynamicPool} (h : NewAddress s n mem ip isFixed dyn) :
    Option.Rel DynamicPool.SameRange s.dyn dyn := by
  cases h with
  | fixed => exact rel_sameRange_refl s.dyn
  | noPool _ hd =>
    rw [hd]
    exact .none
  | @pool p p' _ _ hd hp =>
    rw [hd]
    exact .some (by simpa [hp] using p.sameRange_acquire mem.poolHost)

/-- A call of `acquire_address` does not change the setup. -/
theorem AcquireCase.sameSetup {call : AcquireCall} {answer : Acquired}
    (h : AcquireCase s call answer s') : SameSetup s s' := by
  cases h with
  | skipped => exact .refl s
  | reused => exact ⟨rfl, rfl, rfl, rel_sameRange_refl s.dyn⟩
  | refused _ _ hnew => exact ⟨rfl, rfl, rfl, hnew.sameRange⟩
  | bound _ _ hnew => exact ⟨rfl, rfl, rfl, hnew.sameRange⟩

/-- A release does not change it. -/
theorem sameSetup_releaseByUidImpl (s : IpAllocator) (u : UInt32) :
    SameSetup s (s.releaseByUidImpl u).2 := by
  cases hu : s.sessions.byUid.get u with
  | none =>
    rw [releaseByUidImpl_of_none hu]
    exact .refl s
  | some r =>
    rw [releaseByUidImpl_of_some hu]
    refine ⟨rfl, rfl, rfl, ?_⟩
    change Option.Rel _ s.dyn (if (s.sessions.obj r).fixed then s.dyn
      else s.dyn.map (·.release (s.sessions.obj r).ip))
    by_cases hfixed : (s.sessions.obj r).fixed = true
    · rw [if_pos hfixed]
      exact rel_sameRange_refl s.dyn
    · rw [if_neg hfixed]
      cases s.dyn with
      | none => exact .none
      | some p => exact .some (p.sameRange_release _)

/-- Only a reload changes the settings, and it changes the policy. -/
theorem sameSetup_step (h : s.step parse e = some s') :
    SameSetup s s' ∨ ∃ file, e = .reload file ∧ s' = (s.reloadPolicy parse file).2 := by
  cases step_cases h with
  | answered hacq => exact Or.inl (acquireEnter_cases hacq).sameSetup
  | rolledBack hacq =>
    exact Or.inl ((acquireEnter_cases hacq).sameSetup.trans (sameSetup_releaseByUidImpl _ _))
  | release => exact Or.inl (s.sameSetup_releaseByUidImpl _)
  | idle => exact Or.inl (.refl s)
  | sweep =>
    exact Or.inl (rel_sweep .refl (fun h h' => h.trans h') sameSetup_releaseByUidImpl s _ _ _)
  | reload => exact Or.inr ⟨_, rfl, rfl⟩

/-- Without a reload the setup stays. -/
theorem sameSetup_of_keepsPolicy (he : e.KeepsPolicy) (h : s.step parse e = some s') :
    SameSetup s s' := by
  rcases sameSetup_step h with hset | ⟨file, rfl, -⟩
  · exact hset
  · exact he.elim

end IpAllocator

end Cupp
