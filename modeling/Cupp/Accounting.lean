import Cupp.Sections

/-!
# Accounting under any interleaving

With memory at hand, one session name for each unique id, and a pool small enough for its
32-bit sizes, the bitmap, its counter and the two tables agree in every state that threads
can reach (`accounted_of_run`). A run in which each user's last login has been released, and
in which every call has returned, leaves nothing behind (`drained_of_run`).
-/

set_option linter.unusedSectionVars false

open Transition

namespace Cupp

variable {parse : CString → Option Host} {owner : UInt32 → CString} {policy : PolicyEngine}
  {poolName : Option CString} {leaseTimeout : UInt32} {calloc : Option (ℕ → UInt8)}
  {es : List CriticalSection} {w w' : World} {e : CriticalSection}

/-- The call finds memory, and its unique id goes with its session name. -/
def AcquireCall.Regular (owner : UInt32 → CString) (call : AcquireCall) : Prop :=
  call.mem = .ok ∧ call.OwnedBy owner

instance (call : AcquireCall) : Decidable (call.Regular owner) :=
  inferInstanceAs (Decidable (_ ∧ _))

/-- All calls to `acquire_address` are regular. -/
def Regular (owner : UInt32 → CString) (_ : List CriticalSection) (_ : World)
    (e : CriticalSection) : Prop :=
  e.OnAcquire (·.Regular owner)

instance (es : List CriticalSection) (w : World) (e : CriticalSection) :
    Decidable (Regular owner es w e) :=
  inferInstanceAs (Decidable (e.OnAcquire _))

theorem CriticalSection.OnAcquire.mono {P Q : AcquireCall → Prop} (hpq : ∀ call, P call → Q call)
    (h : e.OnAcquire P) : e.OnAcquire Q := by
  cases e with
  | acquire call => exact hpq call h
  | unbind | finish | reload => trivial

/-! ## The books -/

/-- The leases holding a pool address : filed and not fixed, or unbound and not fixed with
the pool release to come. -/
def World.holders (w : World) : Set LeaseRef :=
  w.alloc.holders w.pending

/-- The pool agrees with the leases, and the two tables agree with each other. -/
structure World.Accounted (w : World) : Prop where
  marked_iff : ∀ {p}, w.alloc.dyn = some p → ∀ i < p.capacity.toNat,
    (p.taken i = true ↔ ∃! r, r ∈ w.holders ∧ (w.alloc.sessions.obj r).ip = p.addr i)
  used_eq : ∀ {p}, w.alloc.dyn = some p →
    p.used.toNat = p.marked.card ∧ p.used.toNat = w.holders.ncard
  finite : w.holders.Finite
  noPool : w.alloc.dyn = none → w.holders = ∅
  byUid : ∀ {u r}, w.alloc.sessions.byUid.get u = some r →
    w.alloc.sessions.uid r = u ∧ w.alloc.sessions.byUser.get (w.alloc.sessions.user r) = some r
  byUser : ∀ {n r}, w.alloc.sessions.byUser.get n = some r →
    w.alloc.sessions.user r = n ∧ w.alloc.sessions.byUid.get (w.alloc.sessions.uid r) = some r

/-- The invariants of the critical sections make up the books. -/
theorem World.accounted (hok : w.alloc.Ok True w.pending) (hb : w.alloc.sessions.Bound owner) :
    w.Accounted := by
  refine ⟨fun {p} hp i hi => ?_, fun {p} hp => ?_, ?_, hok.lends.noPool, fun hu => ?_, fun hn => ?_⟩
  · have hlent := hok.lends.lent hp
    rw [(hlent.exact trivial).1.marked_iff hi]
    -- an owner's address is number `i` iff its slot is
    refine existsUnique_congr fun r => and_congr_right fun hr => ⟨fun hslot => ?_, fun hip => ?_⟩
    · rw [hlent.addr hr, hslot]
    · rw [hip, hlent.sized.slot_addr hi]
  · obtain ⟨hexact, hcount⟩ := (hok.lends.lent hp).exact trivial
    exact ⟨hcount, hcount.trans hexact.card_marked⟩
  · cases hd : w.alloc.dyn with
    | none =>
      rw [holders, hok.lends.noPool hd]
      exact Set.finite_empty
    | some p => exact (hok.lends.lent hd).held.finite
  · exact ⟨hb.paired.keyA_eq hu, hb.paired.toB hu⟩
  · exact ⟨hb.paired.keyB_eq hn, hb.paired.toA hn⟩

/-- What regular runs keep. -/
theorem World.regular_of_run (hfits : policy.active.PoolFits)
    (h : World.Run parse (Regular owner) (ipAllocatorCreate policy poolName leaseTimeout calloc) es
      w) : w.alloc.Ok True w.pending ∧ w.alloc.sessions.Bound owner := by
  constructor
  · exact ok_of_run (IpAllocator.ok_create policy poolName leaseTimeout calloc fun _ => hfits)
      (fun _ _ _ hg => hg.mono fun _ hc _ => hc.1) h
  · exact bound_of_run (IpAllocator.ok_create policy poolName leaseTimeout calloc False.elim)
      (SessionManager.bound_create owner) (fun _ _ _ hg => hg.mono fun _ hc => hc.2) h

/-- In every reachable state an address is marked iff exactly one lease holds it, `used` is
their number, and both tables file the same leases under their own keys. -/
theorem accounted_of_run (hfits : policy.active.PoolFits)
    (h : World.Run parse (Regular owner) (ipAllocatorCreate policy poolName leaseTimeout calloc) es
      w) : w.Accounted := by
  obtain ⟨hok, hb⟩ := World.regular_of_run hfits h
  exact World.accounted hok hb

theorem accounted_two_logins : ∃ w, World.Run (fun _ => none) (Regular oddEven)
    (smallAlloc (smallPolicy [] 1 3))
    [.acquire (login (letterSa 1 'a') 0) (.done (some (tenNet 1))),
      .acquire (login (letterSa 2 'b') 0) (.done (some (tenNet 2))), .unbind 1] w ∧
    w.Accounted := by
  obtain ⟨w, hw⟩ := Option.isSome_iff_exists.1 (by decide : (exec (World.step fun _ => none)
    (Regular oddEven) [] (.start (smallAlloc (smallPolicy [] 1 3)))
    [.acquire (login (letterSa 1 'a') 0) (.done (some (tenNet 1))),
      .acquire (login (letterSa 2 'b') 0) (.done (some (tenNet 2))), .unbind 1]).isSome = true)
  have hrun := Run.of_exec .nil hw
  exact ⟨w, hrun, accounted_of_run (by decide) hrun⟩

/-! ## Nothing is left behind -/

/-- The unique id of each user's last successful `acquire_address`, unless it has been
released since. -/
def outstanding (es : List CriticalSection) : List (CString × UInt32) :=
  es.foldl
    (fun last e =>
      match e with
      | .acquire call (.done (some _)) =>
        match call.ikeSa with
        | some ikeSa => (sessionName ikeSa, ikeSa.uniqueId) ::
            last.filter fun l => l.1 ≠ sessionName ikeSa
        | none => last
      | .unbind uid => last.filter fun l => l.2 ≠ uid
      | _ => last)
    []

/-- A login puts its SA in place of the user's earlier one. -/
theorem outstanding_acquire {call : AcquireCall} {ikeSa : IkeSa} (hsa : call.ikeSa = some ikeSa)
    (ip : Host) : outstanding (es ++ [.acquire call (.done (some ip))]) =
      (sessionName ikeSa, ikeSa.uniqueId) ::
        (outstanding es).filter fun l => l.1 ≠ sessionName ikeSa := by
  simp [outstanding, hsa]

/-- A release takes the unique id off the list. -/
theorem outstanding_unbind (uid : UInt32) : outstanding (es ++ [.unbind uid]) =
    (outstanding es).filter fun l => l.2 ≠ uid := by
  simp [outstanding]

/-- Other sections leave the list as it is. -/
theorem outstanding_quiet (he : (∀ call ip, e ≠ .acquire call (.done (some ip))) ∧
    ∀ uid, e ≠ .unbind uid) : outstanding (es ++ [e]) = outstanding es := by
  rw [outstanding, List.foldl_append]
  cases e with
  | acquire call answer =>
    rcases answer with (_ | ip) | _
    · rfl
    · exact absurd rfl (he.1 call ip)
    · rfl
  | unbind uid => exact absurd rfl (he.2 uid)
  | finish | reload => rfl

/-- Every lease in the tables is outstanding. -/
def World.Outstanding (es : List CriticalSection) (w : World) : Prop :=
  ∀ n r, w.alloc.sessions.byUser.get n = some r → (n, w.alloc.sessions.uid r) ∈ outstanding es

/-- A successful login is outstanding under the unique id it came with. -/
theorem World.Outstanding.acquire (ho : w.Outstanding es) {call : AcquireCall} {ikeSa : IkeSa}
    (hsa : call.ikeSa = some ikeSa) (ip : Host) {r : LeaseRef}
    (hr : w'.alloc.sessions.byUser.get (sessionName ikeSa) = some r)
    (huid : w'.alloc.sessions.uid r = ikeSa.uniqueId)
    (hold : ∀ n, n ≠ sessionName ikeSa → ∀ r', w'.alloc.sessions.byUser.get n = some r' →
      w.alloc.sessions.byUser.get n = some r' ∧
        w'.alloc.sessions.uid r' = w.alloc.sessions.uid r') :
    w'.Outstanding (es ++ [.acquire call (.done (some ip))]) := by
  intro n r' hr'
  rw [outstanding_acquire hsa]
  rcases eq_or_ne n (sessionName ikeSa) with rfl | hne
  · obtain rfl : r = r' := Option.some.inj (hr.symm.trans hr')
    simp [huid]
  · obtain ⟨hbefore, huid'⟩ := hold n hne r' hr'
    rw [huid']
    exact List.mem_cons_of_mem _ (List.mem_filter.2 ⟨ho n r' hbefore, by simpa using hne⟩)

/-- A section keeps the list of SAs with leases right. -/
theorem World.outstanding_step (hok : w.alloc.Ok True w.pending)
    (hb : w.alloc.sessions.Bound owner) (ho : w.Outstanding es)
    (hreg : e.OnAcquire (·.Regular owner)) (h : w.step parse e = some w') :
    w'.Outstanding (es ++ [e]) := by
  cases step_cases h with
  | @acquire call answer alloc hacq =>
    obtain ⟨hmem, -⟩ := hreg
    cases IpAllocator.acquireEnter_cases hacq with
    | skipped =>
      rw [Outstanding, outstanding_quiet (by simp)]
      exact ho
    | @reused ikeSa r hsa hr =>
      rw [hmem]
      refine World.Outstanding.acquire ho (IpAllocator.ikeSa_of_served hsa) _ hr ?_
        fun n hne r' hr' => ?_
      · simp [SessionManager.uid_moveLease]
      have hrr : r' ≠ r := by
        rintro rfl
        exact hne (hok.sessions.filed.eq_of_byB hr' hr)
      exact ⟨hr', by simp [SessionManager.uid_moveLease, hrr]⟩
    | refused =>
      rw [Outstanding, outstanding_quiet (by simp)]
      exact ho
    | @bound ikeSa ip isFixed dyn hsa hn =>
      rw [hmem]
      have hnext : (w.alloc.sessions.putLease (sessionName ikeSa) ikeSa.uniqueId ip isFixed
          call.now).byUser.get (sessionName ikeSa) = some w.alloc.sessions.next := by simp
      refine World.Outstanding.acquire ho (IpAllocator.ikeSa_of_served hsa) ip hnext ?_
        fun n hne r' hr' => ?_
      · simp [SessionManager.uid_putLease]
      have hold : w.alloc.sessions.byUser.get n = some r' := by simpa [hne] using hr'
      exact ⟨hold, by simp [SessionManager.uid_putLease, (hok.sessions.lt hold).ne]⟩
  | unbindNone hu =>
    intro n r hr
    rw [outstanding_unbind, List.mem_filter]
    refine ⟨ho n r hr, ?_⟩
    have hr' := hb.paired.toA hr
    simp only [ne_eq, decide_eq_true_eq]
    rintro rfl
    simp [hu] at hr'
  | @unbindSome uid r hu =>
    intro n r' hr'
    obtain ⟨hne, hold⟩ := SessionManager.byUser_of_removeLease hr'
    rw [outstanding_unbind, List.mem_filter]
    refine ⟨ho n r' hold, ?_⟩
    simp only [ne_eq, decide_eq_true_eq]
    -- a lease with the released unique id would be the one taken out
    rintro heq
    have hr'' := hb.paired.toA hold
    rw [show w.alloc.sessions.uid r' = uid from heq, hu] at hr''
    obtain rfl := Option.some.inj hr''
    exact hne (hok.sessions.user_eq hold).symm
  | finish =>
    rw [Outstanding, outstanding_quiet (by simp)]
    exact ho
  | reload =>
    rw [Outstanding, outstanding_quiet (by simp)]
    exact ho

/-- If the unique id of every user's last successful login has been released after it, then
once all calls have returned the tables are empty, every address is free and `used` is 0. -/
theorem drained_of_run (hfits : policy.active.PoolFits)
    (h : World.Run parse (Regular owner) (ipAllocatorCreate policy poolName leaseTimeout calloc) es
      w) (hout : outstanding es = []) (hreturned : w.pending = []) :
    w.alloc.sessions.byUid = ∅ ∧ w.alloc.sessions.byUser = ∅ ∧
      ∀ p, w.alloc.dyn = some p → (∀ i < p.capacity.toNat, p.taken i = false) ∧ p.used = 0 := by
  have hacc := accounted_of_run hfits h
  have ho : w.Outstanding es := by
    refine h.induction (P := fun es w => w.Outstanding es) ?_ fun es w e w' hr ho hg hs => ?_
    · intro n r hr
      simp [World.start, ipAllocatorCreate, SessionManager.create] at hr
    · obtain ⟨hok, hb⟩ := World.regular_of_run hfits hr
      exact World.outstanding_step hok hb ho hg hs
  have huser : ∀ n r, w.alloc.sessions.byUser.get n ≠ some r := by
    intro n r hr
    simpa [hout] using ho n r hr
  have hholders : w.holders = ∅ := by
    refine Set.eq_empty_of_forall_notMem fun r hr => ?_
    obtain ⟨⟨n, hn⟩ | hpend, -⟩ := hr
    · exact huser n r hn
    · simp [hreturned] at hpend
  refine ⟨Hashtable.ext_get ?_, Hashtable.ext_get ?_, fun p hp => ⟨fun i hi => ?_, ?_⟩⟩
  · funext u
    rw [Hashtable.get_empty]
    exact Option.eq_none_iff_forall_ne_some.2 fun r hr => huser _ r (hacc.byUid hr).2
  · funext n
    rw [Hashtable.get_empty]
    exact Option.eq_none_iff_forall_ne_some.2 fun r hr => huser n r hr
  · by_contra ht
    obtain ⟨r, ⟨hr, -⟩, -⟩ := (hacc.marked_iff hp i hi).1 (by simpa using ht)
    simp [hholders] at hr
  · have hcard := (hacc.used_eq hp).2
    rw [hholders, Set.ncard_empty] at hcard
    exact UInt32.toNat_inj.1 hcard

/-- A user logs in twice, and both unique ids are released. -/
theorem drained_two_logins : ∃ w, World.Run (fun _ => none) (Regular oddEven)
    (smallAlloc (smallPolicy [] 1 3))
    [.acquire (login (letterSa 1 'a') 0) (.done (some (tenNet 1))),
      .acquire (login (letterSa 3 'a') 5) (.done (some (tenNet 1))), .unbind 1, .unbind 3,
      .finish 0] w ∧ w.alloc.sessions.byUid = ∅ ∧ w.alloc.sessions.byUser = ∅ ∧
    ∀ p, w.alloc.dyn = some p → (∀ i < p.capacity.toNat, p.taken i = false) ∧ p.used = 0 := by
  obtain ⟨w, hrun, hp⟩ := Run.exists_of_exec (by decide : (exec (World.step fun _ => none)
    (Regular oddEven) [] (.start (smallAlloc (smallPolicy [] 1 3)))
    [.acquire (login (letterSa 1 'a') 0) (.done (some (tenNet 1))),
      .acquire (login (letterSa 3 'a') 5) (.done (some (tenNet 1))), .unbind 1, .unbind 3,
      .finish 0]).map World.pending = some [])
  exact ⟨w, hrun, drained_of_run (by decide) hrun (by decide) hp⟩

end Cupp
