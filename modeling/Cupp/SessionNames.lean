import Cupp.Operations

/-!
# What a session name says about the identity

Leases and fixed addresses are looked up by the session name. A name is the encoding of a
string identity up to the first NUL, or the placeholder of an SA without one. So two SAs
with one name have one identity (`SharesIdentity`) just if their names are apart otherwise :
encodings that differ do so before the first NUL, and none reads like the placeholder of the
other SA (`sharesIdentity_iff`). Then they find no lease in common either, unless they have
one identity. Nothing in the code sees to either condition (`not_sharesIdentity`).
-/

set_option linter.unusedSectionVars false

namespace Cupp

variable {sa sa' : IkeSa} {enc enc' : List UInt8}

/-- Both SAs have a string identity, and the encodings are equal. -/
def SameIdentity (sa sa' : IkeSa) : Prop :=
  ∃ enc, sa.usableEncoding = some enc ∧ sa'.usableEncoding = some enc

/-- If the SAs have one session name, it comes from string identities with one encoding. -/
def SharesIdentity (sa sa' : IkeSa) : Prop :=
  sessionName sa = sessionName sa' → SameIdentity sa sa'

/-- If one lease is found for both SAs, they have string identities with one encoding. -/
def IpAllocator.SharesLease (s : IpAllocator) (sa sa' : IkeSa) : Prop :=
  ∀ r, s.sessions.lookupByUser (sessionName sa) = some r →
    s.sessions.lookupByUser (sessionName sa') = some r → SameIdentity sa sa'

/-- The part of an encoding before its first NUL. -/
def beforeNul (enc : List UInt8) : List UInt8 :=
  enc.takeWhile (· ≠ 0)

/-- The encoding of `sa` does not read like the placeholder of `sa'`, if that has no string
identity. -/
def NotPlaceholder (sa sa' : IkeSa) : Prop :=
  sa'.usableEncoding = none → ∀ enc ∈ sa.usableEncoding,
    beforeNul enc ≠ ascii ['a', 'n', 'o', 'n', '-'] ++ ascii (Nat.toDigits 10 sa'.uniqueId.toNat)

/-- Encodings that differ do so before their first NUL, and neither reads like a
placeholder. -/
structure NamesApart (sa sa' : IkeSa) : Prop where
  encodings : ∀ enc ∈ sa.usableEncoding, ∀ enc' ∈ sa'.usableEncoding, enc ≠ enc' →
    beforeNul enc ≠ beforeNul enc'
  left : NotPlaceholder sa sa'
  right : NotPlaceholder sa' sa

theorem bytes_sessionName (h : sa.usableEncoding = some enc) :
    (sessionName sa).bytes = beforeNul enc := by
  rw [sessionName_of_encoding h]
  rfl

/-- Two names are equal iff their bytes are. -/
theorem sessionName_eq_iff : sessionName sa = sessionName sa' ↔
    (sessionName sa).bytes = (sessionName sa').bytes :=
  ⟨congrArg CString.bytes, CString.ext⟩

theorem bytes_sessionName_of_none (h : sa.usableEncoding = none) : (sessionName sa).bytes =
    ascii ['a', 'n', 'o', 'n', '-'] ++ ascii (Nat.toDigits 10 sa.uniqueId.toNat) := by
  rw [sessionName_of_none h, bytes_anonName]

/-- Two SAs, at most one of which has a string identity, share no name iff the identity does
not read like the placeholder. -/
theorem sessionName_ne_iff (h : sa.usableEncoding = some enc) (h' : sa'.usableEncoding = none) :
    sessionName sa ≠ sessionName sa' ↔ NotPlaceholder sa sa' := by
  rw [Ne, sessionName_eq_iff, bytes_sessionName h, bytes_sessionName_of_none h']
  constructor
  · intro hne _ enc' henc'
    obtain rfl := Option.some.inj (h.symm.trans henc')
    exact hne
  · intro hnot
    exact hnot h' enc h

/-- SAs whose names stay apart share a session only by their identity. -/
theorem sharesIdentity_of_namesApart (hne : sa.uniqueId ≠ sa'.uniqueId) (h : NamesApart sa sa') :
    SharesIdentity sa sa' := by
  intro hname
  cases he : sa.usableEncoding with
  | none =>
    cases he' : sa'.usableEncoding with
    | none =>
      rw [sessionName_of_none he, sessionName_of_none he'] at hname
      exact absurd (anonName_injective hname) hne
    | some enc' => exact absurd hname.symm ((sessionName_ne_iff he' he).2 h.right)
  | some enc =>
    cases he' : sa'.usableEncoding with
    | none => exact absurd hname ((sessionName_ne_iff he he').2 h.left)
    | some enc' =>
      have hbytes := sessionName_eq_iff.1 hname
      rw [bytes_sessionName he, bytes_sessionName he'] at hbytes
      by_cases heq : enc = enc'
      · exact ⟨enc, he, heq ▸ he'⟩
      · exact absurd hbytes (h.encodings enc he enc' he' heq)

theorem SharesIdentity.symm (h : SharesIdentity sa sa') : SharesIdentity sa' sa := by
  intro hname
  obtain ⟨enc, he, he'⟩ := h hname.symm
  exact ⟨enc, he', he⟩

/-- An SA without a string identity shares its placeholder with no one. -/
theorem SharesIdentity.notPlaceholder (h : SharesIdentity sa sa') : NotPlaceholder sa sa' := by
  intro he' enc he
  refine (sessionName_ne_iff he he').1 (fun hname => ?_) he' enc he
  obtain ⟨enc', -, hsome⟩ := h hname
  simp [he'] at hsome

/-- The condition keeps the names apart. -/
theorem SharesIdentity.namesApart (h : SharesIdentity sa sa') : NamesApart sa sa' where
  encodings enc he enc' he' hne hbytes := by
    rw [← bytes_sessionName he, ← bytes_sessionName he'] at hbytes
    obtain ⟨enc₁, h₁, h₁'⟩ := h (sessionName_eq_iff.2 hbytes)
    exact hne (Option.some.inj (he.symm.trans (h₁.trans (h₁'.symm.trans he'))))
  left := h.notPlaceholder
  right := h.symm.notPlaceholder

/-- SAs that find one lease have one session name. -/
theorem SharesIdentity.sharesLease {tight : Prop} {s : IpAllocator} {pending : List LeaseRef}
    (h : SharesIdentity sa sa') (hok : s.Ok tight pending) : s.SharesLease sa sa' :=
  fun _ hr hr' => h (hok.sessions.filed.eq_of_byB hr hr')

/-- Two SAs with one session name have one identity, and so have two SAs that find one lease in
some run, iff their names are apart otherwise. -/
theorem sharesIdentity_iff (parse : CString → Option Host)
    (guard : List Operation → IpAllocator → Operation → Prop) (hne : sa.uniqueId ≠ sa'.uniqueId) :
    (SharesIdentity sa sa' ∧ ∀ policy poolName leaseTimeout calloc es s,
      IpAllocator.Run parse guard (ipAllocatorCreate policy poolName leaseTimeout calloc) es s →
        s.SharesLease sa sa') ↔ NamesApart sa sa' := by
  constructor
  · rintro ⟨h, -⟩
    exact h.namesApart
  · intro h
    have hshare := sharesIdentity_of_namesApart hne h
    refine ⟨hshare, fun policy poolName leaseTimeout calloc es s hrun => ?_⟩
    exact hshare.sharesLease
      (IpAllocator.loose_of_run (IpAllocator.ok_create _ _ _ _ False.elim) hrun)

/-- An FQDN of some bytes. -/
def fqdnSa (uid : UInt32) (encoding : List UInt8) : IkeSa :=
  ⟨uid, none, none, some ⟨.fqdn, encoding⟩⟩

/-- Two letters are apart. -/
theorem sharesIdentity_letters : SharesIdentity (letterSa 1 'a') (letterSa 2 'b') :=
  ((sharesIdentity_iff (fun _ => none) (fun _ _ _ => True) (by decide)).2
    ⟨by decide, fun h => absurd h (by decide), fun h => absurd h (by decide)⟩).1

/-- A byte behind a NUL gets lost, and a user may call himself `anon-1`. -/
theorem not_sharesIdentity :
    ¬ SharesIdentity (fqdnSa 1 [97, 0, 98]) (letterSa 2 'a') ∧
    ¬ SharesIdentity ⟨1, none, none, none⟩ (fqdnSa 2 (ascii ['a', 'n', 'o', 'n', '-', '1'])) := by
  constructor
  · intro h
    obtain ⟨enc, he, he'⟩ := h (by decide)
    have hab : enc = [97, 0, 98] := (Option.some.inj he).symm
    have ha : enc = [97] := (Option.some.inj he').symm
    simp [hab] at ha
  · intro h
    obtain ⟨enc, he, -⟩ := h (by decide)
    exact absurd he nofun

end Cupp
