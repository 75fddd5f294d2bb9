import Cupp.Operations

/-!
# A user keeps the address

From a successful `acquire_address` on, a user's lease keeps its address through
everything but a release of the unique id the user came with last : logins of others,
logins of the user with other unique ids, releases of the earlier ones, reloads, and sweeps
that find the last one (`lease_stable`). What carries this is that the lease records the
last unique id throughout.
-/

set_option linter.unusedSectionVars false

open Transition

namespace Cupp

variable {parse : CString → Option Host} {owner : UInt32 → CString} {policy : PolicyEngine}
  {poolName : Option CString} {leaseTimeout : UInt32} {calloc : Option (ℕ → UInt8)}
  {es es₀ : List Operation} {e : Operation} {s₀ s t t' : IpAllocator} {n : CString}
  {call : AcquireCall} {ip : Host} {fixed : Bool} {ikeSa : IkeSa} {u : UInt32}

/-- The unique id `n` came with last, after `u`. -/
def lastUid (s : IpAllocator) (n : CString) (u : UInt32) (es : List Operation) : UInt32 :=
  es.foldl
    (fun last e =>
      match e with
      | .acquire call _ =>
        match s.served call with
        | some ikeSa => if sessionName ikeSa = n then ikeSa.uniqueId else last
        | none => last
      | _ => last)
    u

/-- The operation leaves the last unique id of `n` alone. Each unique id goes with one
name. -/
def Operation.Leaves (owner : UInt32 → CString) (last : UInt32) : Operation → Prop
  | .acquire call _ => call.OwnedBy owner
  | .sweep _ alive _ => last ∈ alive
  | e => e.released ≠ some last

instance (last : UInt32) : DecidablePred (Operation.Leaves owner last)
  | .acquire call _ => inferInstanceAs (Decidable (call.OwnedBy owner))
  | .sweep _ alive _ => inferInstanceAs (Decidable (last ∈ alive))
  | .releaseAddress .. | .ikeUpdown .. | .reload _ =>
    inferInstanceAs (Decidable (_ ≠ some last))

theorem Operation.Leaves.onAcquire {last : UInt32} (h : e.Leaves owner last) :
    e.OnAcquire (·.OwnedBy owner) := by
  cases e with
  | acquire => exact h
  | releaseAddress | ikeUpdown | sweep | reload => trivial

/-- A login of the user has the last unique id. -/
theorem lastUid_served (hserved : s.served call = some ikeSa) (answer : Option Host) :
    lastUid s n u (es ++ [.acquire call answer]) =
      if sessionName ikeSa = n then ikeSa.uniqueId else lastUid s n u es := by
  simp [lastUid, hserved]

theorem lastUid_unserved (hserved : s.served call = none) (answer : Option Host) :
    lastUid s n u (es ++ [.acquire call answer]) = lastUid s n u es := by
  simp [lastUid, hserved]

theorem lastUid_quiet (he : ∀ call answer, e ≠ .acquire call answer) :
    lastUid s n u (es ++ [e]) = lastUid s n u es := by
  cases e with
  | acquire call answer => exact absurd rfl (he call answer)
  | releaseAddress | ikeUpdown | sweep | reload => simp [lastUid]

/-- Every login of `n` was answered with `ip`, unless the answer found no memory. -/
def AnswersSame (s : IpAllocator) (n : CString) (ip : Host) (es : List Operation) : Prop :=
  ∀ call answer ikeSa, .acquire call answer ∈ es → s.served call = some ikeSa →
    sessionName ikeSa = n → call.mem.result = true → answer = some ip

/-- The answers stay the same if the next one is. -/
theorem AnswersSame.snoc (h : AnswersSame s n ip es)
    (he : ∀ call answer ikeSa, e = .acquire call answer → s.served call = some ikeSa →
      sessionName ikeSa = n → call.mem.result = true → answer = some ip) :
    AnswersSame s n ip (es ++ [e]) := by
  intro call answer ikeSa hmem
  rcases List.mem_append.1 hmem with hmem | hmem
  · exact h call answer ikeSa hmem
  · exact he call answer ikeSa (List.mem_singleton.1 hmem).symm

/-- The lease of `n` is as it was, but for the last unique id. -/
structure Keeping (s : IpAllocator) (n : CString) (u : UInt32) (ip : Host) (fixed : Bool)
    (es : List Operation) (t : IpAllocator) : Prop where
  poolName : t.poolName = s.poolName
  lease : ∃ l, t.lease n = some l ∧ l.ip = ip ∧ l.fixed = fixed ∧ l.uniqueId = lastUid s n u es
  answers : AnswersSame s n ip es

theorem Keeping.served (h : Keeping s n u ip fixed es t) (call : AcquireCall) :
    t.served call = s.served call := by
  simp only [IpAllocator.served, IpAllocator.poolsInclude, h.poolName]

/-- An operation other than a login keeps what it does not strike out. -/
theorem Keeping.quiet (h : Keeping s n u ip fixed es t) (hname : t'.poolName = t.poolName)
    (he : ∀ call answer, e ≠ .acquire call answer) (hlease : t'.lease n = t.lease n) :
    Keeping s n u ip fixed (es ++ [e]) t' := by
  refine ⟨hname.trans h.poolName, ?_, h.answers.snoc fun call answer _ heq => ?_⟩
  · rw [hlease, lastUid_quiet he]
    exact h.lease
  · exact absurd heq (he call answer)

/-- A login of another user changes nothing for `n`. -/
theorem Keeping.other (h : Keeping s n u ip fixed es t) (hname : t'.poolName = t.poolName)
    (hother : ∀ ikeSa, s.served call = some ikeSa → sessionName ikeSa ≠ n) {answer : Option Host}
    (hlease : t'.lease n = t.lease n) :
    Keeping s n u ip fixed (es ++ [.acquire call answer]) t' := by
  have hlast : lastUid s n u (es ++ [.acquire call answer]) = lastUid s n u es := by
    cases hserved : s.served call with
    | none => exact lastUid_unserved hserved answer
    | some ikeSa => rw [lastUid_served hserved, if_neg (hother ikeSa hserved)]
  refine ⟨hname.trans h.poolName, ?_, h.answers.snoc fun call' answer' ikeSa heq hserved hn => ?_⟩
  · rw [hlease, hlast]
    exact h.lease
  · obtain ⟨rfl, -⟩ := Operation.acquire.inj heq
    exact absurd hn (hother ikeSa hserved)

/-- Each operation that leaves the last unique id alone keeps the lease. -/
theorem keeping_step {tight : Prop} (hok : t.Ok tight []) (hb : t.sessions.Bound owner)
    (hkeep : Keeping s n u ip fixed es t) (hleave : e.Leaves owner (lastUid s n u es))
    (h : t.step parse e = some t') : Keeping s n u ip fixed (es ++ [e]) t' := by
  obtain ⟨l, hl, hip, hfixed, huid⟩ := hkeep.lease
  have hname : t'.poolName = t.poolName := by
    rcases IpAllocator.sameSetup_step h with hset | ⟨file, -, rfl⟩
    · exact hset.poolName
    · rfl
  have hstep := IpAllocator.book_step hok hb hleave.onAcquire h
  generalize hbook : t'.lease = b at hstep
  cases hstep with
  | refused hnone =>
    refine hkeep.other hname (fun ikeSa hserved heq => ?_) (by rw [hbook])
    have hnone' := hnone ikeSa ((hkeep.served _).trans hserved)
    simp [heq, hl] at hnone'
  | @renewed call ikeSa l' hserved hl' =>
    rw [hkeep.served] at hserved
    rcases eq_or_ne (sessionName ikeSa) n with rfl | hne
    · obtain rfl := Option.some.inj (hl.symm.trans hl')
      refine ⟨hname.trans hkeep.poolName, ?_, hkeep.answers.snoc ?_⟩
      · rw [hbook, Book.renew_self, hl, lastUid_served hserved, if_pos rfl]
        exact ⟨_, rfl, hip, hfixed, rfl⟩
      · intro call' answer' ikeSa' heq _ _ hres
        obtain ⟨rfl, rfl⟩ := Operation.acquire.inj heq
        rw [if_pos hres, hip]
    · refine hkeep.other hname (fun ikeSa' hserved' => ?_)
        (by rw [hbook, Book.renew_of_ne hne.symm])
      obtain rfl := Option.some.inj (hserved.symm.trans hserved')
      exact hne
  | @entered call ikeSa ip' isFixed dyn hserved hnone =>
    rw [hkeep.served] at hserved
    have hne : n ≠ sessionName ikeSa := by
      rintro rfl
      simp [hl] at hnone
    refine hkeep.other hname (fun ikeSa' hserved' => ?_) (by rw [hbook, Book.enter_of_ne hne])
    obtain rfl := Option.some.inj (hserved.symm.trans hserved')
    exact hne.symm
  | @struck e v hv =>
    refine hkeep.quiet hname (fun call answer heq => ?_) ?_
    · subst heq
      simp [Operation.released] at hv
    · rw [hbook, hl]
      refine Book.strike_eq_some.2 ⟨hl, ?_⟩
      -- the release is of another unique id than the one recorded
      rintro rfl
      rw [huid] at hv
      cases e with
      | acquire | sweep => simp [Operation.released] at hv
      | releaseAddress | ikeUpdown | reload => exact hleave hv
  | idle he =>
    refine hkeep.quiet hname (fun call answer heq => ?_) (by rw [hbook])
    subst heq
    exact he.elim
  | expired =>
    refine hkeep.quiet hname (by simp) ?_
    rw [hbook, hl]
    refine Book.expire_eq_some.2 ⟨hl, Or.inl ?_⟩
    rw [huid]
    exact decide_eq_true hleave
  | reload => exact hkeep.quiet hname (by simp) (by rw [hbook])

/-- From an answer on, as long as the last unique id of the user is left alone, the lease
keeps its address and its flag, every login of the user is answered with the address, and
the bit of an address of the pool stays set. -/
theorem lease_stable
    (h₀ : IpAllocator.Run parse (fun _ _ e => e.OnAcquire (·.OwnedBy owner))
      (ipAllocatorCreate policy poolName leaseTimeout calloc) es₀ s₀)
    (hown : call.OwnedBy owner) (hacq : s₀.step parse (.acquire call (some ip)) = some s)
    (hsa : call.ikeSa = some ikeSa)
    (h : IpAllocator.Run parse
      (fun es _ e => e.Leaves owner (lastUid s (sessionName ikeSa) ikeSa.uniqueId es)) s es t) :
    ∃ fixed, (∃ l, s.lease (sessionName ikeSa) = some l ∧ l.ip = ip ∧ l.fixed = fixed) ∧
      (∃ l, t.lease (sessionName ikeSa) = some l ∧ l.ip = ip ∧ l.fixed = fixed) ∧
      AnswersSame s (sessionName ikeSa) ip es ∧
      (fixed = false → ∃ p, t.dyn = some p ∧ p.slot ip < p.capacity.toNat ∧
        p.taken (p.slot ip) = true ∧ ip = p.addr (p.slot ip)) := by
  have hcreate := IpAllocator.ok_create policy poolName leaseTimeout calloc False.elim
  have hok₀ := IpAllocator.loose_of_run hcreate h₀
  have hb₀ := IpAllocator.bound_of_run hcreate (SessionManager.bound_create owner)
    (fun _ _ _ hg => hg) h₀
  have hok := IpAllocator.loose_step hok₀ hacq
  have hb := IpAllocator.bound_step (e := .acquire call (some ip)) hok₀ hb₀ hown hacq
  obtain ⟨l, hl, hip, huid⟩ := IpAllocator.lease_of_answer hok₀ hacq hsa
  have hkeep : Keeping s (sessionName ikeSa) ikeSa.uniqueId ip l.fixed es t := by
    refine h.induction (P := Keeping s (sessionName ikeSa) ikeSa.uniqueId ip l.fixed)
      ⟨rfl, ⟨l, hl, hip, rfl, huid⟩, fun _ _ _ hmem => nomatch hmem⟩ fun es t e t' hr hk hg hs => ?_
    have hbt := IpAllocator.bound_of_run hok hb (fun _ _ _ hg => hg.onAcquire) hr
    exact keeping_step (IpAllocator.loose_of_run hok hr) hbt hk hg hs
  have hokt := IpAllocator.loose_of_run hok h
  obtain ⟨l', hl', hip', hfixed', -⟩ := hkeep.lease
  refine ⟨l.fixed, ⟨l, hl, hip, rfl⟩, ⟨l', hl', hip', hfixed'⟩, hkeep.answers, fun hfixed => ?_⟩
  obtain ⟨p, hp, hslot⟩ := hokt.lease_slot hl' (hfixed'.trans hfixed)
  exact ⟨p, hp, hip' ▸ hslot⟩

/-- User `a` logs in again, and the first SA goes down twice. -/
theorem lease_stable_second_login : ∃ s t, (smallAlloc (smallPolicy [] 1 3)).step (fun _ => none)
      (.acquire (login (letterSa 1 'a') 0) (some (tenNet 1))) = some s ∧
    IpAllocator.Run (fun _ => none)
      (fun es _ e => e.Leaves oddEven (lastUid s (sessionName (letterSa 1 'a')) 1 es)) s
      [.acquire (login (letterSa 3 'a') 0) (some (tenNet 1)),
        .ikeUpdown (some (letterSa 1 'a')) false,
        .releaseAddress none none (some (letterSa 1 'a'))] t ∧
    ∃ l, t.lease (sessionName (letterSa 1 'a')) = some l ∧ l.ip = tenNet 1 := by
  obtain ⟨s, hs, ht⟩ := Option.map_eq_some_iff.1 (by decide :
    ((smallAlloc (smallPolicy [] 1 3)).step (fun _ => none)
      (.acquire (login (letterSa 1 'a') 0) (some (tenNet 1)))).map (fun s =>
        (exec (IpAllocator.step fun _ => none)
          (fun es _ e => e.Leaves oddEven (lastUid s (sessionName (letterSa 1 'a')) 1 es)) [] s
          [.acquire (login (letterSa 3 'a') 0) (some (tenNet 1)),
            .ikeUpdown (some (letterSa 1 'a')) false,
            .releaseAddress none none (some (letterSa 1 'a'))]).isSome) = some true)
  obtain ⟨t, ht⟩ := Option.isSome_iff_exists.1 ht
  have hrun := Run.of_exec .nil ht
  obtain ⟨-, -, ⟨l, hl, hip, -⟩, -⟩ := lease_stable .nil (by decide) hs rfl hrun
  exact ⟨s, t, hs, hrun, l, hl, hip⟩

end Cupp
