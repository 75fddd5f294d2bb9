import Mathlib.Data.List.ReduceOption
import Cupp.Sections
import Cupp.Book

/-!
# From identities to fixed addresses

A user should be known by the first of the four identities of the IKE_SA that is a name, and a
user of the policy should get the address that is configured there. Neither always happens.
`identity_get_username` settles on the first identity that is present before it looks whether
this is a name, so an identity that is no name hides the ones behind it
(`identity_fallback_iff`). `acquire_address` takes a name that begins with `anon-` for a
placeholder, and does not look it up (`configured_user_iff`).
-/

set_option linter.unusedSectionVars false

open Transition

namespace Cupp

/-! ## Identities -/

/-- A non-empty string. -/
def Identification.IsName (id : Identification) : Prop :=
  id.encoding ≠ [] ∧ id.type.isString = true

instance : DecidablePred Identification.IsName :=
  fun id => inferInstanceAs (Decidable (id.encoding ≠ [] ∧ id.type.isString = true))

namespace IkeSa

variable {ikeSa : IkeSa}

/-- The identities that are present, in the order in which they are asked for. -/
def identities (ikeSa : IkeSa) : List Identification :=
  List.reduceOption [ikeSa.authCfg.bind (·.eapIdentity), ikeSa.otherEapId,
    ikeSa.authCfg.bind (·.identity), ikeSa.otherId]

/-- The identity the user should be known by. -/
def firstName (ikeSa : IkeSa) : Option Identification :=
  ikeSa.identities.find? (·.IsName)

/-- The user name is the first name there is. Without one there is no user name, and the
session goes by the placeholder. -/
structure FallsBack (ikeSa : IkeSa) : Prop where
  username : (identityGetUsername ikeSa).map (·.bytes) = ikeSa.firstName.map (·.encoding)
  placeholder : ikeSa.firstName = none → sessionName ikeSa = anonName ikeSa.uniqueId

/-- The strings contain no NUL. -/
def NulFree (ikeSa : IkeSa) : Prop :=
  ∀ id ∈ ikeSa.identities, id.type.isString = true → 0 ∉ id.encoding

instance (ikeSa : IkeSa) : Decidable ikeSa.NulFree :=
  inferInstanceAs (Decidable (∀ id ∈ ikeSa.identities, _))

theorem head?_reduceOption_cons {α : Type*} (a : Option α) (l : List (Option α)) :
    (a :: l).reduceOption.head? = a.or l.reduceOption.head? := by
  cases a with
  | none => rw [List.reduceOption_cons_of_none, Option.none_or]
  | some a => rw [List.reduceOption_cons_of_some, List.head?_cons, Option.some_or]

/-- The identity that is settled on is the first one present. -/
theorem selectedId_eq (ikeSa : IkeSa) : ikeSa.selectedId = ikeSa.identities.head? := by
  unfold selectedId identities
  simp only [head?_reduceOption_cons, List.reduceOption_nil, List.head?_nil, Option.or_none,
    Option.or_assoc]

/-- The user name is read off the first identity, whatever follows. -/
theorem identityGetUsername_of_isName {id : Identification}
    (h : ikeSa.identities.head? = some id) (hname : id.IsName) :
    identityGetUsername ikeSa = some (.ofBytes id.encoding) := by
  rw [identityGetUsername, selectedId_eq, h]
  simp [hname.1, hname.2]

/-- If that one is no name, there is no username. -/
theorem identityGetUsername_of_notName {id : Identification}
    (h : ikeSa.identities.head? = some id) (hname : ¬id.IsName) :
    identityGetUsername ikeSa = none := by
  rw [identityGetUsername, selectedId_eq, h]
  by_cases hempty : id.encoding = []
  · simp [hempty]
  · have htype : id.type.isString = false := by
      simpa using fun ht => hname ⟨hempty, ht⟩
    simp [htype]

theorem firstName_eq_none : ikeSa.firstName = none ↔ ¬∃ id ∈ ikeSa.identities, id.IsName := by
  rw [firstName, List.find?_eq_none]
  simp

/-- NULL is right if there is no name. -/
theorem fallsBack_of_none (h : identityGetUsername ikeSa = none) :
    ikeSa.FallsBack ↔ ¬∃ id ∈ ikeSa.identities, id.IsName := by
  rw [← firstName_eq_none]
  constructor
  · intro hback
    have hmap := hback.username
    rw [h] at hmap
    exact Option.map_eq_none_iff.1 hmap.symm
  · intro hnone
    exact ⟨by rw [h, hnone]; rfl, fun _ => by rw [sessionName, h, Option.getD_none]⟩

end IkeSa

/-- The user name is the first name of the IKE_SA just if the first identity is a name, or
none is. -/
theorem identity_fallback_iff {ikeSa : IkeSa} (hnul : ikeSa.NulFree) :
    ikeSa.FallsBack ↔
      ((∃ id ∈ ikeSa.identities, id.IsName) → ∃ id ∈ ikeSa.identities.head?, id.IsName) := by
  cases hhead : ikeSa.identities.head? with
  | none =>
    have hempty := List.head?_eq_none_iff.1 hhead
    have hname : identityGetUsername ikeSa = none := by
      rw [identityGetUsername, IkeSa.selectedId_eq, hhead]
    rw [IkeSa.fallsBack_of_none hname, hempty]
    simp
  | some id =>
    obtain ⟨rest, hids⟩ := List.head?_eq_some_iff.1 hhead
    by_cases hid : id.IsName
    · have hfirst : ikeSa.firstName = some id := by simp [IkeSa.firstName, hids, hid]
      have hbytes := CString.ofBytes_of_noNul (hnul id (by simp [hids]) hid.2)
      refine iff_of_true ⟨?_, fun hnone => by simp [hfirst] at hnone⟩ fun _ => ⟨id, rfl, hid⟩
      rw [IkeSa.identityGetUsername_of_isName hhead hid, hfirst, Option.map_some, Option.map_some,
        hbytes]
    · -- the code does not look behind `id`
      have hnot : ¬∃ id' ∈ some id, id'.IsName := by simpa using hid
      rw [IkeSa.fallsBack_of_none (IkeSa.identityGetUsername_of_notName hhead hid),
        imp_iff_not hnot]

theorem identity_fallback_of_letter : (letterSa 1 'a').FallsBack := by
  have hnul : (letterSa 1 'a').NulFree := by decide
  exact (identity_fallback_iff hnul).2 (by decide)

/-- An IPv4 address as the EAP identity hides the FQDN. -/
theorem not_identity_fallback : ¬∀ ikeSa : IkeSa, ikeSa.NulFree → ikeSa.FallsBack := by
  intro hall
  have hback := hall ⟨1, none, some ⟨.other 1, [10, 0, 0, 9]⟩, some ⟨.fqdn, ascii ['a']⟩⟩
    (by decide)
  exact absurd hback.username (by decide)

namespace IpAllocator

variable {s : IpAllocator} {pending : List LeaseRef} {call : AcquireCall} {ikeSa : IkeSa}
  {n : CString} {ip : Host}

/-! ## Configured users -/

/-- The login answers with `ip` and files a fixed lease of it, and leaves the pool and the leases
of other users alone. -/
structure GetsConfigured (s : IpAllocator) (call : AcquireCall) (n : CString) (u : UInt32)
    (ip : Host) : Prop where
  answer : (s.acquireAddress call).1 = some ip
  lease : (s.acquireAddress call).2.lease = s.lease.enter ⟨n, u, ip, true, call.now⟩
  filed : ∃ r, (s.acquireAddress call).2.sessions.byUser.get n = some r ∧
    (s.acquireAddress call).2.sessions.byUid.get u = some r
  dyn : (s.acquireAddress call).2.dyn = s.dyn

/-- A new login with the memory it needs. -/
theorem acquireAddress_new (hserved : s.served call = some ikeSa) (hmem : call.mem = .ok)
    (hnone : s.sessions.byUser.get (sessionName ikeSa) = none) : ∃ ip isFixed dyn,
    NewAddress s (sessionName ikeSa) .ok ip isFixed dyn ∧
      s.acquireAddress call = (ip, { s with
        dyn := dyn
        sessions := ip.elim s.sessions fun ip =>
          s.sessions.putLease (sessionName ikeSa) ikeSa.uniqueId ip isFixed call.now }) := by
  cases hacq : s.acquireEnter call with
  | mk out s' =>
    cases acquireEnter_cases hacq with
    | skipped hno => simp [hserved] at hno
    | reused hserved' hr =>
      obtain rfl := Option.some.inj (hserved.symm.trans hserved')
      simp [hnone] at hr
    | @refused ikeSa' ip isFixed dyn hserved' _ hnew hwhy =>
      obtain rfl := Option.some.inj (hserved.symm.trans hserved')
      obtain rfl : ip = none := hwhy.resolve_right (by simp [hmem, Alloc.ok])
      exact ⟨none, isFixed, dyn, hmem ▸ hnew, acquireAddress_of_done hacq⟩
    | @bound ikeSa' ip isFixed dyn hserved' _ hnew =>
      obtain rfl := Option.some.inj (hserved.symm.trans hserved')
      have hdone : (if call.mem.result then Acquired.done (some ip) else .rollback) =
          .done (some ip) := by
        rw [hmem]
        rfl
      rw [hdone] at hacq
      exact ⟨some ip, isFixed, dyn, hmem ▸ hnew, acquireAddress_of_done hacq⟩

end IpAllocator

/-- In every reachable state, a user of the policy without a lease gets the configured address
just if the name does not begin with `anon-`. -/
theorem configured_user_iff {parse : CString → Option Host} {policy : PolicyEngine}
    {poolName : Option CString} {leaseTimeout : UInt32} {calloc : Option (ℕ → UInt8)}
    {es : List CriticalSection} {w : World}
    (h : World.Run parse (fun _ _ _ => True)
      (ipAllocatorCreate policy poolName leaseTimeout calloc) es w)
    {call : AcquireCall} {ikeSa : IkeSa} {n : CString} {ip : Host} (hsa : call.ikeSa = some ikeSa)
    (hname : identityGetUsername ikeSa = some n)
    (hpools : w.alloc.poolsInclude call.pools = true) (hmem : call.mem = .ok)
    (hfixed : w.alloc.policy.lookupFixed n = some ip)
    (hnone : w.alloc.sessions.lookupByUser n = none) :
    w.alloc.GetsConfigured call n ikeSa.uniqueId ip ↔ isAnon n = false := by
  have hok := World.loose_of_create h
  have hserved : w.alloc.served call = some ikeSa := by
    simp [IpAllocator.served, hsa, hpools, hname, Option.filter]
  obtain rfl : sessionName ikeSa = n := by rw [sessionName, hname, Option.getD_some]
  obtain ⟨ip', isFixed, dyn, hnew, hcall⟩ := IpAllocator.acquireAddress_new hserved hmem hnone
  constructor
  · intro hgets
    cases hnew with
    | fixed hanon => exact hanon
    | noPool =>
      have hanswer := hgets.answer
      rw [hcall] at hanswer
      simp at hanswer
    | pool =>
      -- the lease would be of an address of the pool
      have hanswer := hgets.answer
      have hlease := congrFun hgets.lease (sessionName ikeSa)
      rw [hcall] at hanswer hlease
      obtain rfl : _ = some ip := hanswer
      rw [Option.elim_some, IpAllocator.lease_putLease hok, Book.enter, Book.enter] at hlease
      simp at hlease
  · intro hanon
    cases hnew with
    | fixed _ hlookup =>
      obtain rfl := Option.some.inj (hfixed.symm.trans hlookup)
      refine ⟨by rw [hcall], ?_, ⟨w.alloc.sessions.next, ?_, ?_⟩, by rw [hcall]⟩ <;> rw [hcall]
      · exact IpAllocator.lease_putLease hok ip true call.now w.alloc.dyn
      · simp
      · simp
    | noPool hno => simp [hno hanon rfl] at hfixed
    | pool hno => simp [hno hanon rfl] at hfixed

/-- `a` gets the configured address, though the pool has free ones. -/
theorem configured_user_of_letter : ∃ w, World.Run (fun _ => none) (fun _ _ _ => True)
      (smallAlloc (smallPolicy [(letter 'a', tenNet 9)] 1 3))
      [.acquire (login (letterSa 2 'b') 0) (.done (some (tenNet 1)))] w ∧
    w.alloc.GetsConfigured (login (letterSa 1 'a') 5) (letter 'a') 1 (tenNet 9) := by
  obtain ⟨w, hrun, hfacts⟩ := Run.exists_of_exec (by decide :
    (exec (World.step fun _ => none) (fun _ _ _ => True) []
      (.start (smallAlloc (smallPolicy [(letter 'a', tenNet 9)] 1 3)))
      [.acquire (login (letterSa 2 'b') 0) (.done (some (tenNet 1)))]).map
      (fun w => (w.alloc.poolsInclude (login (letterSa 1 'a') 5).pools,
        w.alloc.policy.lookupFixed (letter 'a'),
        w.alloc.sessions.lookupByUser (letter 'a'))) = some (true, some (tenNet 9), none))
  simp only [Prod.mk.injEq] at hfacts
  obtain ⟨hpools, hfixed, hnone⟩ := hfacts
  have hname : identityGetUsername (letterSa 1 'a') = some (letter 'a') := by decide
  exact ⟨w, hrun, (configured_user_iff hrun rfl hname hpools rfl hfixed hnone).2 (by decide)⟩

/-- The user `anon-5` of the policy gets an address of the pool. -/
theorem not_configured_user : ¬∀ (policy : PolicyEngine) (call : AcquireCall) (ikeSa : IkeSa)
    (n : CString) (ip : Host), call.ikeSa = some ikeSa → identityGetUsername ikeSa = some n →
      (ipAllocatorCreate policy none 0 (some fun _ => 0)).poolsInclude call.pools = true →
      call.mem = .ok → policy.lookupFixed n = some ip →
      (ipAllocatorCreate policy none 0 (some fun _ => 0)).GetsConfigured call n ikeSa.uniqueId
        ip := by
  intro hall
  have hgets := hall ⟨smallPolicy [(anonName 5, tenNet 9)] 1 3⟩
    (login ⟨1, none, none, some ⟨.fqdn, (anonName 5).bytes⟩⟩ 0)
    ⟨1, none, none, some ⟨.fqdn, (anonName 5).bytes⟩⟩ (anonName 5) (tenNet 9) rfl (by decide)
    (by decide) rfl (by decide)
  exact absurd hgets.answer (by decide)

end Cupp
