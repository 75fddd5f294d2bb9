import Cupp.Bindings
import Cupp.OnePolicy
import Cupp.Server
import Cupp.SessionTable

/-!
# How many leases there are, and who is refused

As long as the policy is the one the plugin was loaded with, there are at most as many leases as
there are addresses in the pool and users in the fixed table, whatever names and unique ids the
calls come with, however they interleave, and whichever allocations fail (`sessions_bounded`).

If calls get their memory, a new login of a user without a fixed address is refused just if each
address of the pool is in a lease or on its way back (`login_refused_iff`). A user with a fixed
address depends on nobody : whatever others do, each login gets that address and leaves the pool
alone (`configured_undisturbed`).
-/

set_option linter.unusedSectionVars false

open Transition

namespace Cupp

variable {parse : CString → Option Host} {owner : UInt32 → CString} {policy : PolicyEngine}
  {poolName : Option CString} {leaseTimeout : UInt32} {calloc : Option (ℕ → UInt8)}
  {mem : ℕ → UInt8} {es : List CriticalSection} {w w' : World} {e : CriticalSection}
  {n : CString} {ip : Host} {call : AcquireCall} {answer : Option Host} {ikeSa : IkeSa}
  {pending : List LeaseRef} {s : IpAllocator} {p : DynamicPool}

/-! ## What a section does to the settings and to the book -/

/-- The section is not a reload. -/
def CriticalSection.KeepsPolicy : CriticalSection → Prop
  | reload _ => False
  | _ => True

instance : DecidablePred CriticalSection.KeepsPolicy
  | .reload _ => inferInstanceAs (Decidable False)
  | .acquire .. | .unbind _ | .finish _ => inferInstanceAs (Decidable True)

namespace World

theorem sameSetup_step (he : e.KeepsPolicy) (h : w.step parse e = some w') :
    IpAllocator.SameSetup w.alloc w'.alloc := by
  cases step_cases h with
  | acquire hacq => exact (IpAllocator.acquireEnter_cases hacq).sameSetup
  | unbindNone => exact .refl _
  | unbindSome => exact ⟨rfl, rfl, rfl, IpAllocator.rel_sameRange_refl _⟩
  | finish => exact ⟨rfl, rfl, rfl, w.alloc.rel_sameRange_releaseFinish _⟩
  | reload => exact he.elim

/-- A section brings at most one new lease into the book. -/
theorem book_step (hok : w.alloc.Ok False w.pending) (h : w.step parse e = some w') :
    w'.alloc.lease.Within w.alloc.lease ∨ ∃ call out l, e = .acquire call out ∧
      w.alloc.Enters call l ∧ w'.alloc.lease = w.alloc.lease.enter l := by
  cases step_cases h with
  | acquire hacq =>
    rcases (IpAllocator.acquireEnter_cases hacq).book hok with hw | ⟨l, hl, heq⟩
    · exact Or.inl hw
    · exact Or.inr ⟨_, _, l, rfl, hl, heq⟩
  | unbindNone => exact Or.inl (.refl _)
  | unbindSome => exact Or.inl (w.alloc.within_removeLease _ _)
  | finish => exact Or.inl (.refl _)
  | reload => exact Or.inl (.refl _)

/-- What holds of the address in each new lease of a user holds of all leases of the user. -/
theorem forall_lease_step {P : CString → Host → Bool → Prop} (hok : w.alloc.Ok False w.pending)
    (hP : ∀ n l, w.alloc.lease n = some l → P n l.ip l.fixed)
    (hnew : ∀ call out l, e = .acquire call out → w.alloc.Enters call l →
      P l.username l.ip l.fixed)
    (h : w.step parse e = some w') :
    ∀ n l, w'.alloc.lease n = some l → P n l.ip l.fixed := by
  intro n l' hl'
  rcases book_step hok h with hw | ⟨call, out, l, he, henter, heq⟩
  · obtain ⟨l, hl, hip, hfixed⟩ := hw n l' hl'
    rw [← hip, ← hfixed]
    exact hP n l hl
  · rw [heq] at hl'
    rcases eq_or_ne n l.username with rfl | hne
    · rw [Book.enter_self] at hl'
      obtain rfl := Option.some.inj hl'
      exact hnew call out l he henter
    · exact hP n l' ((Book.enter_of_ne hne).symm.trans hl')

/-! ## A bound on the number of leases -/

/-- What runs without a reload keep : the policy, the range of the pool, and that fixed leases are
of users of the fixed table. -/
structure UnderPolicy (policy : PolicyEngine) (w : World) : Prop where
  ok : w.alloc.Ok False w.pending
  policy_eq : w.alloc.policy = policy
  fixed : ∀ n l, w.alloc.lease n = some l → l.fixed = true → policy.lookupFixed n = some l.ip

/-- A section that is no reload keeps to the policy. -/
theorem UnderPolicy.step (h : w.UnderPolicy policy) (he : e.KeepsPolicy)
    (hs : w.step parse e = some w') : w'.UnderPolicy policy := by
  refine ⟨loose_step h.ok hs, (sameSetup_step he hs).policy.trans h.policy_eq, ?_⟩
  refine forall_lease_step (P := fun n ip fixed => fixed = true → policy.lookupFixed n = some ip)
    h.ok h.fixed ?_ hs
  rintro call out l - ⟨ikeSa, dyn, -, -, -, -, hnew⟩ hfixed
  rw [← h.policy_eq]
  rw [hfixed] at hnew
  cases hnew with
  | fixed _ hlookup => exact hlookup

/-- Runs without a reload keep to the policy. -/
theorem underPolicy_of_run {guard : List CriticalSection → World → CriticalSection → Prop}
    (hguard : ∀ es w e, guard es w e → e.KeepsPolicy)
    (h : World.Run parse guard (ipAllocatorCreate policy poolName leaseTimeout calloc) es w) :
    w.UnderPolicy policy := by
  refine h.invariant (I := fun w => w.UnderPolicy policy) ⟨?_, rfl, fun n l hl => ?_⟩
    fun es w e w' hu hg hs => hu.step (hguard es w e hg) hs
  · exact IpAllocator.ok_create policy poolName leaseTimeout calloc False.elim
  · simp [World.start, IpAllocator.lease_create] at hl

end World

/-- The users with a lease. -/
def IpAllocator.users (s : IpAllocator) : Finset CString :=
  s.sessions.byUser.keys

theorem IpAllocator.mem_users : n ∈ s.users ↔ ∃ l, s.lease n = some l := by
  rw [users, Finmap.mem_keys, ← Finmap.lookup_isSome, Option.isSome_iff_exists]
  constructor
  · rintro ⟨r, hr⟩
    exact ⟨_, lease_of_byUser hr⟩
  · rintro ⟨l, hl⟩
    obtain ⟨r, hr, -⟩ := lease_eq_some.1 hl
    exact ⟨r, hr⟩

/-- Those whose address is one of the pool. -/
def IpAllocator.poolUsers (s : IpAllocator) : Finset CString :=
  s.users.filter fun n => (s.lease n).map (·.fixed) = some false

theorem IpAllocator.mem_poolUsers :
    n ∈ s.poolUsers ↔ ∃ l, s.lease n = some l ∧ l.fixed = false := by
  rw [poolUsers, Finset.mem_filter, mem_users, Option.map_eq_some_iff]
  exact and_iff_right_of_imp fun ⟨l, hl, _⟩ => ⟨l, hl⟩

/-- Distinct users have distinct addresses of the pool. -/
theorem IpAllocator.Ok.card_poolUsers_le (h : s.Ok False pending) :
    s.poolUsers.card ≤ s.poolAddresses.length := by
  have hmaps (n : CString) (hn : n ∈ s.poolUsers) :
      (s.lease n).map Lease.ip ∈ (s.poolAddresses.map some).toFinset := by
    obtain ⟨l, hl, hfixed⟩ := mem_poolUsers.1 hn
    obtain ⟨p, hp, hlt, -, hip⟩ := h.lease_slot hl hfixed
    rw [hl, List.mem_toFinset, Option.map_some, hip, poolAddresses, hp]
    exact List.mem_map_of_mem (List.mem_map_of_mem (List.mem_range.2 hlt))
  have hinj : Set.InjOn (fun n => (s.lease n).map Lease.ip) s.poolUsers := by
    intro m hm n hn heq
    obtain ⟨l, hl, hfixed⟩ := mem_poolUsers.1 (Finset.mem_coe.1 hm)
    obtain ⟨l', hl', hfixed'⟩ := mem_poolUsers.1 (Finset.mem_coe.1 hn)
    simp only [hl, hl', Option.map_some, Option.some.injEq] at heq
    exact h.eq_of_ip hl hl' hfixed hfixed' heq
  calc s.poolUsers.card
      ≤ (s.poolAddresses.map some).toFinset.card := Finset.card_le_card_of_injOn _ hmaps hinj
    _ ≤ (s.poolAddresses.map some).length := List.toFinset_card_le _
    _ = s.poolAddresses.length := List.length_map _

/-- No more leases than addresses in the pool and users in the fixed table. -/
theorem World.UnderPolicy.card_users_le (h : w.UnderPolicy policy) :
    w.alloc.users.card ≤ w.alloc.poolAddresses.length + policy.active.fixed.users.keys.card := by
  have hfixed : w.alloc.users \ w.alloc.poolUsers ⊆ policy.active.fixed.users.keys := by
    intro n hn
    obtain ⟨hmem, hnot⟩ := Finset.mem_sdiff.1 hn
    obtain ⟨l, hl⟩ := IpAllocator.mem_users.1 hmem
    have hlookup := h.fixed n l hl (by simpa [IpAllocator.mem_poolUsers, hl] using hnot)
    exact Finmap.mem_keys.2 (Hashtable.mem_of_get hlookup)
  have hpool := h.ok.card_poolUsers_le
  have hle := Finset.card_le_card hfixed
  have hsub : w.alloc.poolUsers ⊆ w.alloc.users := Finset.filter_subset _ _
  have hsplit := Finset.card_sdiff_add_card_eq_card hsub
  omega

/-- Each entry of `by_uid` is of a user of its own. -/
theorem IpAllocator.Ok.card_uids_le (h : s.Ok False pending) :
    s.sessions.byUid.keys.card ≤ s.users.card := by
  have hfiled (u : UInt32) (hu : u ∈ s.sessions.byUid.keys) :
      ∃ r, s.sessions.byUid.get u = some r :=
    Option.isSome_iff_exists.1 (Finmap.lookup_isSome.2 (Finmap.mem_keys.1 hu))
  refine Finset.card_le_card_of_injOn (fun u => (s.sessions.byUid.get u).elim (.ofBytes [])
    s.sessions.user) (fun u hu => ?_) fun u hu u' hu' heq => ?_
  · obtain ⟨r, hr⟩ := hfiled u hu
    simp only [hr, Option.elim_some]
    exact Finmap.mem_keys.2 (Hashtable.mem_of_get (h.sessions.filed.toB hr))
  · obtain ⟨r, hr⟩ := hfiled u hu
    obtain ⟨r', hr'⟩ := hfiled u' hu'
    simp only [hr, hr', Option.elim_some] at heq
    have hrr := (h.sessions.filed.toB hr).symm.trans (heq ▸ h.sessions.filed.toB hr')
    rw [← h.sessions.uid_eq hr, ← h.sessions.uid_eq hr', Option.some.inj hrr]

/-- The count of a table that has been loaded is right. -/
theorem fixedCounted_of_load {file : PolicyFile} (h : policyEngineCreate parse file = some policy) :
    policy.active.fixed.Counted := by
  obtain ⟨snapshot, hload, rfl⟩ := Option.map_eq_some_iff.1 h
  cases file with
  | none => simp [snapshotLoad, yamlLoadPolicy] at hload
  | some events =>
    rw [snapshotLoad_some] at hload
    split_ifs at hload
    obtain rfl := Option.some.inj hload
    exact Snapshot.counted_putAll Snapshot.counted_empty _

/-- Under the policy the plugin was loaded with, `count` never exceeds the number of addresses in
the pool and of users in the fixed table, and no more users have a lease. -/
theorem sessions_bounded {file : PolicyFile} (hload : policyEngineCreate parse file = some policy)
    (h : World.Run parse (fun _ _ e => e.KeepsPolicy)
      (ipAllocatorCreate policy poolName leaseTimeout calloc) es w)
    {entries : List (Σ _ : UInt32, LeaseRef)}
    (hes : Hashtable.Enumerates entries w.alloc.sessions.byUid) :
    SessionManager.count entries ≤ w.alloc.users.card ∧
      w.alloc.users.card ≤ w.alloc.poolAddresses.length + policy.active.fixed.count := by
  have hu := World.underPolicy_of_run (fun _ _ _ hg => hg) h
  constructor
  · rw [SessionManager.count_eq_length, hes.length_eq]
    exact hu.ok.card_uids_le
  · rw [fixedCounted_of_load hload]
    exact hu.card_users_le

/-- A pool of one address, and a fixed one. All three users try. -/
theorem sessions_bounded_full : ∃ policy w entries,
    policyEngineCreate tenNetFromString (policyFile [('b', '9')] '1' '1') = some policy ∧
    World.Run tenNetFromString (fun _ _ e => e.KeepsPolicy)
      (ipAllocatorCreate policy none 0 (some fun _ => 0))
      [.acquire (login (letterSa 1 'a') 0) (.done (some (tenNet 1))),
        .acquire (login (letterSa 2 'b') 0) (.done (some (tenNet 9))),
        .acquire (login (letterSa 3 'c') 0) (.done none)] w ∧
    Hashtable.Enumerates entries w.alloc.sessions.byUid ∧
    SessionManager.count entries ≤ w.alloc.users.card ∧
    w.alloc.users.card ≤ w.alloc.poolAddresses.length + policy.active.fixed.count := by
  obtain ⟨policy, hpolicy, hsome⟩ := Option.map_eq_some_iff.1 (by decide :
    (policyEngineCreate tenNetFromString (policyFile [('b', '9')] '1' '1')).map (fun policy =>
      (exec (World.step tenNetFromString) (fun _ _ e => e.KeepsPolicy) []
        (.start (ipAllocatorCreate policy none 0 (some fun _ => 0)))
        [.acquire (login (letterSa 1 'a') 0) (.done (some (tenNet 1))),
          .acquire (login (letterSa 2 'b') 0) (.done (some (tenNet 9))),
          .acquire (login (letterSa 3 'c') 0) (.done none)]).isSome) = some true)
  obtain ⟨w, hw⟩ := Option.isSome_iff_exists.1 hsome
  have hrun := Run.of_exec .nil hw
  obtain ⟨entries, hes⟩ := Hashtable.exists_enumerates w.alloc.sessions.byUid
  exact ⟨policy, w, entries, hpolicy, hrun, hes, sessions_bounded hpolicy hrun hes⟩

/-! ## Who is refused -/

namespace World

/-- The server that the threads are for. -/
def server (w : World) : AddressServer where
  fixed := w.alloc.policy.lookupFixed
  range := w.alloc.poolAddresses
  poolName := w.alloc.poolName
  leaseTimeout := w.alloc.leaseTimeout
  book := w.alloc.lease
  returning := {ip | ∃ r ∈ w.pending, (w.alloc.sessions.obj r).fixed = false ∧
    (w.alloc.sessions.obj r).ip = ip}

theorem shows_server (w : World) : w.Shows w.server :=
  ⟨rfl, rfl, rfl, rfl, rfl, rfl⟩

end World

/-- All addresses of a pool are marked iff their number is that of the marks. -/
theorem DynamicPool.firstFree_eq_none_iff :
    p.firstFree = none ↔ p.marked.card = p.capacity.toNat := by
  have hsub : p.marked ⊆ Finset.range p.capacity.toNat := fun i hi =>
    Finset.mem_range.2 (mem_marked.1 hi).1
  have hall : p.firstFree = none ↔ Finset.range p.capacity.toNat ⊆ p.marked := by
    simp only [firstFree, List.find?_eq_none, List.mem_range, Finset.subset_iff, Finset.mem_range,
      mem_marked, Bool.not_eq_true', Bool.not_eq_false]
    exact forall₂_congr fun i hi => (and_iff_right hi).symm
  rw [hall]
  constructor
  · intro hsup
    rw [hsub.antisymm hsup, Finset.card_range]
  · intro hcard
    exact (Finset.eq_of_subset_of_card_le hsub (by rw [Finset.card_range, hcard])).ge

/-- A pool has no address to give iff it has as many holders as addresses. -/
theorem IpAllocator.Ok.acquire_eq_none (h : s.Ok True pending) :
    (s.dyn.bind fun p => (p.acquire true).1) = none ↔
      (s.holders pending).ncard = s.poolAddresses.length := by
  cases hd : s.dyn with
  | none => simp [poolAddresses, hd, h.lends.noPool hd]
  | some p =>
    obtain ⟨hexact, hcount⟩ := (h.lends.lent hd).exact trivial
    have hlen : s.poolAddresses.length = p.capacity.toNat := by
      simp [poolAddresses, hd, DynamicPool.addresses]
    rw [Option.bind_some, hcount.acquire_eq, Option.map_eq_none_iff,
      DynamicPool.firstFree_eq_none_iff, hlen, ← hexact.card_marked]
    rfl

/-- If calls get the memory they ask for, a login is refused iff the user has no lease and no fixed
address, and every address of the pool is in a lease or on its way back. -/
theorem login_refused_iff (hfits : policy.active.PoolFits)
    (h : World.Run parse (fun _ _ e => e.OnAcquire (·.mem = .ok))
      (ipAllocatorCreate policy poolName leaseTimeout calloc) es w)
    (hserved : w.alloc.served call = some ikeSa) (hmem : call.mem = .ok)
    (hs : w.step parse (.acquire call (.done answer)) = some w') :
    answer = none ↔ w.alloc.lease (sessionName ikeSa) = none ∧
      (isAnon (sessionName ikeSa) = true ∨
        w.alloc.policy.lookupFixed (sessionName ikeSa) = none) ∧
      w.holders.ncard = w.alloc.poolAddresses.length := by
  have hok : w.alloc.Ok True w.pending := World.ok_of_run
    (IpAllocator.ok_create policy poolName leaseTimeout calloc fun _ => hfits)
    (fun _ _ e he => he.mono fun _ hmem _ => hmem) h
  have hfull := hok.acquire_eq_none
  rw [← w.shows_server.firstFree_eq hok] at hfull
  cases World.step_cases hs with
  | acquire hacq =>
    obtain ⟨answer', t', heq, hanswer, -⟩ := w.shows_server.acquire hok hmem hacq
    obtain rfl := Acquired.done.inj heq
    rw [w.shows_server.acquire_eq hmem, hserved] at hanswer
    obtain rfl := (congrArg Prod.fst hanswer).symm
    have hbook : w.server.book = w.alloc.lease := rfl
    have hfixed : w.server.fixed = w.alloc.policy.lookupFixed := rfl
    rw [World.holders, ← hfull]
    simp only [AddressServer.login, AddressServer.newAddress, hbook, hfixed]
    -- the server looks for a lease, then for a fixed address, then for a free one
    cases w.alloc.lease (sessionName ikeSa) with
    | some l => simp
    | none =>
      cases isAnon (sessionName ikeSa) with
      | true => cases w.server.firstFree <;> simp
      | false =>
        cases w.alloc.policy.lookupFixed (sessionName ikeSa) with
        | some ip => simp
        | none => cases w.server.firstFree <;> simp

/-- The only address of the pool is on its way back from `a` when `b` tries. -/
theorem login_refused_of_pending : ∃ w w',
    World.Run (fun _ => none) (fun _ _ e => e.OnAcquire (·.mem = .ok))
      (smallAlloc (smallPolicy [] 1 1))
      [.acquire (login (letterSa 1 'a') 0) (.done (some (tenNet 1))), .unbind 1] w ∧
    w.step (fun _ => none) (.acquire (login (letterSa 2 'b') 0) (.done none)) = some w' ∧
    w.holders.ncard = w.alloc.poolAddresses.length := by
  obtain ⟨w, hrun, hfacts⟩ := Run.exists_of_exec (by decide : (exec (World.step fun _ => none)
    (fun _ _ e => e.OnAcquire (·.mem = .ok)) [] (.start (smallAlloc (smallPolicy [] 1 1)))
    [.acquire (login (letterSa 1 'a') 0) (.done (some (tenNet 1))), .unbind 1]).map (fun w =>
      (w.alloc.served (login (letterSa 2 'b') 0),
        (w.step (fun _ => none) (.acquire (login (letterSa 2 'b') 0) (.done none))).isSome)) =
      some (some (letterSa 2 'b'), true))
  obtain ⟨hserved, hstep⟩ := Prod.mk.inj hfacts
  obtain ⟨w', hs⟩ := Option.isSome_iff_exists.1 hstep
  exact ⟨w, w', hrun, hs, ((login_refused_iff (by decide) hrun hserved rfl hs).1 rfl).2.2⟩

/-! ## A user with a fixed address -/

/-- The policy stays, and the user's own logins have the memory to copy the address. -/
def CriticalSection.Undisturbed (n : CString) (e : CriticalSection) : Prop :=
  e.KeepsPolicy ∧ e.OnAcquire fun call =>
    ∀ ikeSa ∈ call.ikeSa, sessionName ikeSa = n → call.mem.fixedClone = true

instance : DecidablePred (CriticalSection.Undisturbed n) := fun e =>
  inferInstanceAs (Decidable (e.KeepsPolicy ∧ e.OnAcquire fun call =>
    ∀ ikeSa ∈ call.ikeSa, sessionName ikeSa = n → call.mem.fixedClone = true))

/-- A user with a fixed address has no lease on another one. -/
theorem World.ip_of_undisturbed (hanon : isAnon n = false) (hfixed : policy.lookupFixed n = some ip)
    (h : World.Run parse (fun _ _ e => e.Undisturbed n)
      (ipAllocatorCreate policy poolName leaseTimeout calloc) es w) :
    ∀ l, w.alloc.lease n = some l → l.ip = ip := by
  have hrun : ∀ m l, w.alloc.lease m = some l → m = n → l.ip = ip := by
    refine h.induction (P := fun _ w => ∀ m l, w.alloc.lease m = some l → m = n → l.ip = ip)
      (fun m l hl => ?_) fun es w e w' hrun ih he hs => ?_
    · simp [World.start, IpAllocator.lease_create] at hl
    · have hu := World.underPolicy_of_run (fun _ _ _ hg => hg.1) hrun
      refine forall_lease_step (P := fun m ip' _ => m = n → ip' = ip) hu.ok ih ?_ hs
      rintro call out l rfl ⟨ikeSa, dyn, hserved, huser, -, -, hnew⟩ rfl
      have hclone := he.2 ikeSa (IpAllocator.ikeSa_of_served hserved) huser.symm
      rw [← hu.policy_eq] at hfixed
      generalize l.fixed = isFixed at hnew
      cases hnew with
      | fixed _ hlookup => exact Option.some.inj (hlookup.symm.trans hfixed)
      | pool hnone => simp [hnone hanon hclone] at hfixed
  exact fun l hl => hrun n l hl rfl

/-- Whatever else goes on, a login of a user with a fixed address gets this address, and leaves the
pool as it is. -/
theorem configured_undisturbed (hanon : isAnon n = false) (hfixed : policy.lookupFixed n = some ip)
    (h : World.Run parse (fun _ _ e => e.Undisturbed n)
      (ipAllocatorCreate policy poolName leaseTimeout calloc) es w)
    (hserved : w.alloc.served call = some ikeSa) (hname : sessionName ikeSa = n)
    (hmem : call.mem = .ok) (hs : w.step parse (.acquire call (.done answer)) = some w') :
    answer = some ip ∧ w'.alloc.dyn = w.alloc.dyn := by
  have hu := World.underPolicy_of_run (fun _ _ _ hg => hg.1) h
  have hip := World.ip_of_undisturbed hanon hfixed h
  rw [← hu.policy_eq] at hfixed
  subst hname
  cases World.step_cases hs with
  | @acquire _ _ alloc hacq =>
    generalize hout : Acquired.done answer = out at hacq
    have hclone : call.mem.fixedClone = true := by rw [hmem]; rfl
    -- the fixed table is asked first
    have hnew {ip' : Option Host} {isFixed : Bool} {dyn : Option DynamicPool}
        (hnew : IpAllocator.NewAddress w.alloc (sessionName ikeSa) call.mem ip' isFixed dyn) :
        ip' = some ip ∧ dyn = w.alloc.dyn := by
      cases hnew with
      | fixed _ hlookup => exact ⟨hlookup.symm.trans hfixed, rfl⟩
      | noPool hnone => simp [hnone hanon hclone] at hfixed
      | pool hnone => simp [hnone hanon hclone] at hfixed
    have hsame {ikeSa' : IkeSa} (hserved' : w.alloc.served call = some ikeSa') :
        ikeSa' = ikeSa :=
      Option.some.inj (hserved'.symm.trans hserved)
    cases IpAllocator.acquireEnter_cases hacq with
    | skipped hskip => simp [hserved] at hskip
    | reused hserved' hr =>
      obtain rfl := hsame hserved'
      have hlip := hip _ (IpAllocator.lease_of_byUser hr)
      rw [hmem] at hout
      obtain rfl := Acquired.done.inj hout
      exact ⟨congrArg some hlip, rfl⟩
    | refused hserved' hn hnew' hwhy =>
      obtain rfl := hsame hserved'
      obtain ⟨rfl, -⟩ := hnew hnew'
      simp [hmem, Alloc.ok] at hwhy
    | bound hserved' hn hnew' =>
      obtain rfl := hsame hserved'
      obtain ⟨hans, hdyn⟩ := hnew hnew'
      rw [hmem] at hout
      obtain rfl := Acquired.done.inj hout
      exact ⟨hans, hdyn⟩

/-- The others take the whole pool, under the unique id of `b` too. -/
theorem configured_undisturbed_full : ∃ w w' answer,
    World.Run (fun _ => none) (fun _ _ e => e.Undisturbed (letter 'b'))
      (smallAlloc (smallPolicy [(letter 'b', tenNet 9)] 1 1))
      [.acquire (login (letterSa 2 'b') 0) (.done (some (tenNet 9))),
        .acquire (login (letterSa 2 'a') 0) (.done (some (tenNet 1))), .unbind 2,
        .acquire (login (letterSa 1 'c') 0) (.done none)] w ∧
    w.step (fun _ => none) (.acquire (login (letterSa 4 'b') 0) (.done answer)) = some w' ∧
    answer = some (tenNet 9) ∧ w'.alloc.dyn = w.alloc.dyn := by
  obtain ⟨w, hrun, hfacts⟩ := Run.exists_of_exec (by decide : (exec (World.step fun _ => none)
    (fun _ _ e => e.Undisturbed (letter 'b')) []
    (.start (smallAlloc (smallPolicy [(letter 'b', tenNet 9)] 1 1)))
    [.acquire (login (letterSa 2 'b') 0) (.done (some (tenNet 9))),
      .acquire (login (letterSa 2 'a') 0) (.done (some (tenNet 1))), .unbind 2,
      .acquire (login (letterSa 1 'c') 0) (.done none)]).map (fun w =>
      (w.alloc.served (login (letterSa 4 'b') 0), (w.step (fun _ => none)
        (.acquire (login (letterSa 4 'b') 0) (.done (some (tenNet 9))))).isSome)) =
      some (some (letterSa 4 'b'), true))
  obtain ⟨hserved, hstep⟩ := Prod.mk.inj hfacts
  obtain ⟨w', hs⟩ := Option.isSome_iff_exists.1 hstep
  have hfixed : (PolicyEngine.mk (smallPolicy [(letter 'b', tenNet 9)] 1 1)).lookupFixed
      (letter 'b') = some (tenNet 9) := by decide
  exact ⟨w, w', _, hrun, hs, configured_undisturbed (by decide) hfixed hrun hserved rfl rfl hs⟩

end Cupp
