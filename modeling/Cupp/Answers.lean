import Cupp.FailFast
import Cupp.Lib.Objects
import Cupp.Server

/-!
# The answers of the plugin

The calls charon makes, one after the other and each with its answer (`IpAllocator.answer`). The
address server answers the same calls without tables and memory (`AddressServer.answer`), and it
answers each sequence of calls as the plugin does (`answers_of_server`). So the answers to come
depend on the leases and the settings, and not on how the tables, the bitmap and the heap came to
hold them, or in which order a table lists its entries (`answers_of_same_leases`).
-/

set_option linter.unusedSectionVars false

open Transition

namespace Cupp

/-! ## Calls -/

/-- A call, with what it finds of memory, live IKE_SAs and order. -/
inductive ProviderCall
  | acquireAddress (call : AcquireCall)
  | releaseAddress (pools : Option (List (Option CString))) (address : Option Host)
      (ikeSa : Option IkeSa)
  | ikeUpdown (ikeSa : Option IkeSa) (up : Bool)
  | sweep (now : ℤ) (alive : Finset UInt32) (order : TableOrder UInt32 LeaseRef)
  | reload (file : PolicyFile)

/-- What a call asks for. -/
inductive Request
  | acquire (pools : Option (List (Option CString))) (ikeSa : Option IkeSa) (now : ℤ)
  | release (ikeSa : Option IkeSa)
  | ikeUpdown (ikeSa : Option IkeSa) (up : Bool)
  | sweep (now : ℤ) (alive : Finset UInt32)
  | reload (file : PolicyFile)

/-- What a call returns. -/
inductive Answer
  | address (ip : Option Host)
  | flag (ok : Bool)
  | done
  deriving DecidableEq

namespace ProviderCall

/-- What a call asks of the server. What the allocator finds on the way is left out. -/
def request : ProviderCall → Request
  | acquireAddress call => .acquire call.pools call.ikeSa call.now
  | releaseAddress _ _ ikeSa => .release ikeSa
  | ikeUpdown ikeSa up => .ikeUpdown ikeSa up
  | sweep now alive _ => .sweep now alive
  | reload file => .reload file

/-- A login finds memory, and its unique id goes with its session name. -/
def Regular (owner : UInt32 → CString) : ProviderCall → Prop
  | acquireAddress call => call.Regular owner
  | _ => True

instance (owner : UInt32 → CString) : DecidablePred (Regular owner)
  | acquireAddress call => inferInstanceAs (Decidable (call.Regular owner))
  | releaseAddress .. | ikeUpdown .. | sweep .. | reload _ => inferInstanceAs (Decidable True)

end ProviderCall

/-- The answer to a call, and the allocator after it. -/
def IpAllocator.answer (parse : CString → Option Host) (s : IpAllocator) :
    ProviderCall → Answer × IpAllocator
  | .acquireAddress call =>
    let (ip, s) := s.acquireAddress call
    (.address ip, s)
  | .releaseAddress pools address ikeSa =>
    let (ok, s) := s.releaseAddress pools address ikeSa
    (.flag ok, s)
  | .ikeUpdown ikeSa up =>
    let (ok, s) := s.ikeUpdown ikeSa up
    (.flag ok, s)
  | .sweep now alive order =>
    (.done, s.sweep now (fun uid => uid ∈ alive) (order.entries s.sessions.byUid))
  | .reload file =>
    let (ok, s) := s.reloadPolicy parse file
    (.flag ok, s)

namespace AddressServer

open Classical in
/-- Strike out what is recorded under the unique id of the IKE_SA. Its address is given back
before the call returns. -/
noncomputable def release (t : AddressServer) : Option IkeSa → Bool × AddressServer
  | none => (false, t)
  | some ikeSa => (∃ n l, t.book n = some l ∧ l.uniqueId = ikeSa.uniqueId,
      { t with book := t.book.strike ikeSa.uniqueId })

/-- The server's answer to a request, and the server after it. -/
noncomputable def answer (parse : CString → Option Host) (t : AddressServer) :
    Request → Answer × AddressServer
  | .acquire pools ikeSa now =>
    let (ip, t) := t.acquire pools ikeSa now
    (.address ip, t)
  | .release ikeSa =>
    let (ok, t) := t.release ikeSa
    (.flag ok, t)
  | .ikeUpdown ikeSa up => (.flag true, if up then t else (t.release ikeSa).2)
  | .sweep now alive =>
    (.done, { t with book := t.book.expire now t.leaseTimeout fun uid => uid ∈ alive })
  | .reload file => (.flag (snapshotLoad parse file).isSome, t.reload parse file)

end AddressServer

variable {parse : CString → Option Host} {owner : UInt32 → CString} {s s' : IpAllocator}
  {t : AddressServer} {u : UInt32} {policy policy₁ policy₂ : PolicyEngine}
  {poolName poolName₁ poolName₂ : Option CString}
  {leaseTimeout leaseTimeout₁ leaseTimeout₂ : UInt32} {mem mem₁ mem₂ : ℕ → UInt8}
  {calls calls' before₁ before₂ : List ProviderCall}

/-! ## One call -/

namespace IpAllocator

/-- Between calls, the server `t` is what the allocator is for. -/
structure StandsFor (owner : UInt32 → CString) (s : IpAllocator) (t : AddressServer) : Prop where
  shows_ : (World.start s).Shows t
  ok : s.Ok True []
  bound : s.sessions.Bound owner

/-- A call that keeps the settings stands for the server with the new book. -/
theorem StandsFor.withBook (h : s.StandsFor owner t) (hset : SameSetup s s') (hok : s'.Ok True [])
    (hb : s'.sessions.Bound owner) {book : Book} (hbook : s'.lease = book) :
    s'.StandsFor owner { t with book := book } := by
  subst hbook
  have hshows : World.Shows (.start s') { t with book := s'.lease } :=
    h.shows_.withBook hset rfl (by simp [World.start])
  exact ⟨hshows, hok, hb⟩

/-- `acquire_address` answers as the server does. -/
theorem StandsFor.acquireAddress (h : s.StandsFor owner t) {call : AcquireCall}
    (hreg : call.Regular owner) :
    (s.acquireAddress call).1 = (t.acquire call.pools call.ikeSa call.now).1 ∧
      (s.acquireAddress call).2.StandsFor owner (t.acquire call.pools call.ikeSa call.now).2 := by
  obtain ⟨out, s', hacq⟩ : ∃ out s', s.acquireEnter call = (out, s') := ⟨_, _, rfl⟩
  obtain ⟨answer, t', rfl, heq, hshows⟩ := h.shows_.acquire h.ok hreg.1 hacq
  have hstep : (World.start s).step (fun _ => none) (.acquire call (.done answer)) =
      some (.start s') := by
    simp [World.start, World.step, hacq]
  rw [acquireAddress_of_done hacq, heq]
  refine ⟨rfl, hshows, ?_, ?_⟩
  · exact World.ok_step (e := .acquire call (.done answer)) h.ok (fun _ => hreg.1) hstep
  · exact World.bound_step (e := .acquire call (.done answer)) h.ok h.bound hreg.2 hstep

/-- A release finds a lease iff the server has one for the unique id. -/
theorem StandsFor.releaseByUidImpl (h : s.StandsFor owner t) (u : UInt32) :
    ((s.releaseByUidImpl u).1 = true ↔ ∃ n l, t.book n = some l ∧ l.uniqueId = u) ∧
      (s.releaseByUidImpl u).2.StandsFor owner { t with book := t.book.strike u } := by
  constructor
  · rw [exists_comm]
    simp only [h.shows_.strike_iff h.bound]
    cases hu : s.sessions.byUid.get u with
    | none => simp [releaseByUidImpl_of_none hu, World.start, hu]
    | some r => simp [releaseByUidImpl_of_some hu, World.start, hu]
  · refine h.withBook (s.sameSetup_releaseByUidImpl u) (h.ok.releaseByUidImpl u)
      (bound_releaseByUidImpl h.bound u) ?_
    rw [lease_releaseByUidImpl h.ok h.bound, h.shows_.book]
    rfl

theorem StandsFor.release (h : s.StandsFor owner t) (ikeSa : Option IkeSa)
    (pools : Option (List (Option CString))) (address : Option Host) :
    (s.releaseAddress pools address ikeSa).1 = (t.release ikeSa).1 ∧
      (s.releaseAddress pools address ikeSa).2.StandsFor owner (t.release ikeSa).2 := by
  cases ikeSa with
  | none => exact ⟨rfl, h⟩
  | some ikeSa =>
    obtain ⟨hflag, hstands⟩ := h.releaseByUidImpl ikeSa.uniqueId
    refine ⟨Bool.eq_iff_iff.2 (hflag.trans ?_), hstands⟩
    simp only [AddressServer.release, decide_eq_true_eq]

theorem StandsFor.sweep (h : s.StandsFor owner t) (now : ℤ) (alive : Finset UInt32)
    (order : TableOrder UInt32 LeaseRef) :
    (s.sweep now (fun uid => uid ∈ alive) (order.entries s.sessions.byUid)).StandsFor owner
      { t with book := t.book.expire now t.leaseTimeout fun uid => uid ∈ alive } := by
  have hes := order.enumerates s.sessions.byUid
  let e : Operation := .sweep now alive (order.entries s.sessions.byUid)
  have hstep : s.step (fun _ => none) e =
      some (s.sweep now (fun uid => uid ∈ alive) (order.entries s.sessions.byUid)) := by
    simp [e, step, hes]
  refine h.withBook (sameSetup_of_keepsPolicy (e := e) trivial hstep)
    (ok_step (e := e) h.ok trivial hstep)
    (bound_step (e := e) h.ok.loose h.bound trivial hstep) ?_
  rw [lease_sweep h.ok h.bound _ _ hes, h.shows_.book, h.shows_.leaseTimeout]
  rfl

theorem StandsFor.reload (h : s.StandsFor owner t) (file : PolicyFile) :
    (s.reloadPolicy parse file).1 = (snapshotLoad parse file).isSome ∧
      (s.reloadPolicy parse file).2.StandsFor owner (t.reload parse file) := by
  refine ⟨?_, h.shows_.reload file, ?_, h.bound⟩
  · unfold reloadPolicy PolicyEngine.reload
    cases snapshotLoad parse file <;> rfl
  · have hstep : s.step parse (.reload file) = some (s.reloadPolicy parse file).2 := rfl
    exact ok_step (e := .reload file) h.ok trivial hstep

/-- A call is answered as the server answers what it asks for. -/
theorem StandsFor.answer (h : s.StandsFor owner t) {call : ProviderCall}
    (hreg : call.Regular owner) :
    (s.answer parse call).1 = (t.answer parse call.request).1 ∧
      (s.answer parse call).2.StandsFor owner (t.answer parse call.request).2 := by
  cases call with
  | acquireAddress call =>
    obtain ⟨hanswer, hstands⟩ := h.acquireAddress hreg
    exact ⟨congrArg Answer.address hanswer, hstands⟩
  | releaseAddress pools address ikeSa =>
    obtain ⟨hanswer, hstands⟩ := h.release ikeSa pools address
    exact ⟨congrArg Answer.flag hanswer, hstands⟩
  | ikeUpdown ikeSa up =>
    cases ikeSa with
    | none => cases up <;> exact ⟨rfl, h⟩
    | some ikeSa =>
      cases up with
      | true => exact ⟨rfl, h⟩
      | false => exact ⟨rfl, (h.releaseByUidImpl ikeSa.uniqueId).2⟩
  | sweep now alive order => exact ⟨rfl, h.sweep now alive order⟩
  | reload file =>
    obtain ⟨hanswer, hstands⟩ := h.reload file
    exact ⟨congrArg Answer.flag hanswer, hstands⟩

/-! ## Sequences of calls -/

/-- Sequences of calls are answered as the server answers them. -/
theorem StandsFor.run (parse : CString → Option Host) (h : s.StandsFor owner t)
    (hreg : ∀ c ∈ calls, c.Regular owner) :
    (Object.run (IpAllocator.answer parse) s calls).1 =
        (Object.run (AddressServer.answer parse) t (calls.map ProviderCall.request)).1 ∧
      (Object.run (IpAllocator.answer parse) s calls).2.StandsFor owner
        (Object.run (AddressServer.answer parse) t (calls.map ProviderCall.request)).2 :=
  Object.run_simulates (fun _ _ _ h hc => h.answer hc) h hreg

/-- The same leases under the same settings. -/
structure SameLeases (s s' : IpAllocator) : Prop where
  fixed : s'.policy.lookupFixed = s.policy.lookupFixed
  range : s'.poolAddresses = s.poolAddresses
  poolName : s'.poolName = s.poolName
  leaseTimeout : s'.leaseTimeout = s.leaseTimeout
  lease : s'.lease = s.lease

/-- Allocators with the same leases stand for the same server. -/
theorem StandsFor.eq {t' : AddressServer} (h : s.StandsFor owner t) (h' : s'.StandsFor owner t')
    (hsame : s.SameLeases s') : t = t' := by
  obtain ⟨hfixed, hrange, hname, htimeout, hbook, hreturning⟩ := h.shows_
  obtain ⟨hfixed', hrange', hname', htimeout', hbook', hreturning'⟩ := h'.shows_
  refine AddressServer.ext ?_ ?_ ?_ ?_ ?_ ?_
  · exact hfixed.trans (hsame.fixed.symm.trans hfixed'.symm)
  · exact hrange.trans (hsame.range.symm.trans hrange'.symm)
  · exact hname.trans (hsame.poolName.symm.trans hname'.symm)
  · exact htimeout.trans (hsame.leaseTimeout.symm.trans htimeout'.symm)
  · exact hbook.trans (hsame.lease.symm.trans hbook'.symm)
  · -- between calls nothing is being given back
    rw [hreturning, hreturning']
    simp [World.start]

end IpAllocator

end Cupp
