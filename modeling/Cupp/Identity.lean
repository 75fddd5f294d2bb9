import Cupp.Basic

/-!
# Identities and session names

`identityGetUsername` reads a user name off an IKE_SA : the first identity present among
the EAP identity of the auth config, the EAP identity of the SA, the identity of the auth
config and the identity of the SA, if it is a non-empty string identity. The encoding is
copied with `strndup`, so the name ends at its first NUL. An SA without a user name goes
by the placeholder `anon-<unique_id>` (`anonName`), a string like any other. `sessionName`
is the name `acquire_address` looks leases and fixed addresses up by.
-/

namespace Cupp

/-- `id_type_t`, with the types the plugin does not tell apart by their number. -/
inductive IdType
  | fqdn
  | rfc822Addr
  | keyId
  | other (n : ℕ)
  deriving DecidableEq

/-- The types whose encoding is a string : `ID_FQDN`, `ID_RFC822_ADDR`, `ID_KEY_ID`. -/
def IdType.isString : IdType → Bool
  | fqdn | rfc822Addr | keyId => true
  | other _ => false

/-- An `identification_t`. A NULL or zero-length encoding is the empty list. -/
structure Identification where
  type : IdType
  encoding : List UInt8
  deriving DecidableEq

/-- The two rules of an `auth_cfg_t` the plugin reads. -/
structure AuthCfg where
  eapIdentity : Option Identification
  identity : Option Identification
  deriving DecidableEq

/-- What the plugin reads of an `ike_sa_t`. -/
structure IkeSa where
  uniqueId : UInt32
  authCfg : Option AuthCfg
  otherEapId : Option Identification
  otherId : Option Identification
  deriving DecidableEq

/-- The identity `identity_get_username` settles on : the first one that is present. -/
def IkeSa.selectedId (ikeSa : IkeSa) : Option Identification :=
  let ac := ikeSa.authCfg
  let id := ac.bind (·.eapIdentity)
  let id := id.or ikeSa.otherEapId
  let id := id.or (ac.bind (·.identity))
  id.or ikeSa.otherId

/-- The user name of an IKE_SA, `none` if it has no usable string identity. -/
def identityGetUsername (ikeSa : IkeSa) : Option CString :=
  match ikeSa.selectedId with
  | none => none
  | some id =>
    if id.encoding = [] then none
    else if id.type.isString then some (.ofBytes id.encoding)
    else none

/-- `snprintf("anon-%u", uid)`. -/
def anonName (uid : UInt32) : CString :=
  .ofBytes (ascii (['a', 'n', 'o', 'n', '-'] ++ Nat.toDigits 10 uid.toNat))

/-- The name of an IKE_SA's session : its user name, or the placeholder. -/
def sessionName (ikeSa : IkeSa) : CString :=
  (identityGetUsername ikeSa).getD (anonName ikeSa.uniqueId)

/-- `strncmp(username, "anon-", 5) == 0`. -/
def isAnon (username : CString) : Bool :=
  (ascii ['a', 'n', 'o', 'n', '-']).isPrefixOf username.bytes

/-! ## Encodings -/

/-- The encoding the user name of an IKE_SA is copied from. -/
def IkeSa.usableEncoding (ikeSa : IkeSa) : Option (List UInt8) :=
  (ikeSa.selectedId.filter fun id => id.encoding ≠ [] ∧ id.type.isString).map (·.encoding)

/-- The name is the usable encoding, up to its first NUL. -/
theorem identityGetUsername_eq (ikeSa : IkeSa) :
    identityGetUsername ikeSa = ikeSa.usableEncoding.map CString.ofBytes := by
  unfold identityGetUsername IkeSa.usableEncoding
  cases ikeSa.selectedId with
  | none => rfl
  | some id =>
    by_cases he : id.encoding = []
    · simp [he, Option.filter]
    · by_cases ht : id.type.isString <;> simp [he, ht, Option.filter]

/-- An SA with a usable encoding has the session name of it. -/
theorem sessionName_of_encoding {ikeSa : IkeSa} {enc : List UInt8}
    (h : ikeSa.usableEncoding = some enc) : sessionName ikeSa = .ofBytes enc := by
  simp [sessionName, identityGetUsername_eq, h]

/-- Without one the session name is a placeholder of the unique id. -/
theorem sessionName_of_none {ikeSa : IkeSa} (h : ikeSa.usableEncoding = none) :
    sessionName ikeSa = anonName ikeSa.uniqueId := by
  simp [sessionName, identityGetUsername_eq, h]

/-! ## Placeholders -/

theorem ascii_append (cs ds : List Char) : ascii (cs ++ ds) = ascii cs ++ ascii ds :=
  List.map_append

/-- ASCII text is recovered from its bytes. -/
theorem ascii_injOn {cs ds : List Char} (hc : ∀ c ∈ cs, c.toNat < 128)
    (hd : ∀ d ∈ ds, d.toNat < 128) (h : ascii cs = ascii ds) : cs = ds := by
  induction cs generalizing ds with
  | nil => exact (List.map_eq_nil_iff.1 h.symm).symm
  | cons c cs ih =>
    cases ds with
    | nil => simp [ascii] at h
    | cons d ds =>
      have hc' := hc c (by simp)
      have hd' := hd d (by simp)
      obtain ⟨hcd, hrest⟩ := List.cons.inj h
      have hn : c.toNat = d.toNat := by
        have hn := congrArg UInt8.toNat hcd
        simp only [UInt8.toNat_ofNat'] at hn
        omega
      rw [Char.toNat_inj.1 hn, ih (fun x hx => hc x (by simp [hx]))
        (fun x hx => hd x (by simp [hx])) hrest]

theorem isDigit_toNat {c : Char} (h : c.isDigit) : 48 ≤ c.toNat ∧ c.toNat ≤ 57 := by
  simp only [Char.isDigit, Bool.and_eq_true, decide_eq_true_eq] at h
  exact h

theorem digit_of_mem_toDigits {n : ℕ} {c : Char} (h : c ∈ Nat.toDigits 10 n) :
    48 ≤ c.toNat ∧ c.toNat ≤ 57 :=
  isDigit_toNat (Nat.isDigit_of_mem_toDigits (by decide) (by decide) h)

theorem zero_notMem_ascii {cs : List Char} (h : ∀ c ∈ cs, c.toNat ≠ 0 ∧ c.toNat < 128) :
    0 ∉ ascii cs := by
  simp only [ascii, List.mem_map, not_exists, not_and]
  intro c hc h0
  have hn := congrArg UInt8.toNat h0
  obtain ⟨hne, hlt⟩ := h c hc
  simp only [UInt8.toNat_ofNat', UInt8.toNat_zero] at hn
  omega

/-- A placeholder has no NUL in it. -/
theorem anonName_text (uid : UInt32) :
    ∀ c ∈ ['a', 'n', 'o', 'n', '-'] ++ Nat.toDigits 10 uid.toNat, c.toNat ≠ 0 ∧ c.toNat < 128 := by
  intro c hc
  rcases List.mem_append.1 hc with hc | hc
  · exact (by simp : ∀ c ∈ ['a', 'n', 'o', 'n', '-'], c.toNat ≠ 0 ∧ c.toNat < 128) c hc
  · have hd := digit_of_mem_toDigits hc
    omega

/-- The placeholder holds no NUL, so no byte of it is lost. -/
theorem bytes_anonName (uid : UInt32) : (anonName uid).bytes =
    ascii ['a', 'n', 'o', 'n', '-'] ++ ascii (Nat.toDigits 10 uid.toNat) := by
  rw [anonName, CString.ofBytes_of_noNul (zero_notMem_ascii (anonName_text uid)), ascii_append]

/-- Different SAs have different placeholders. -/
theorem anonName_injective : Function.Injective anonName := by
  intro u v h
  have hb := congrArg CString.bytes h
  rw [bytes_anonName, bytes_anonName] at hb
  have hdig := ascii_injOn (fun c hc => by have := digit_of_mem_toDigits hc; omega)
    (fun c hc => by have := digit_of_mem_toDigits hc; omega) (List.append_cancel_left hb)
  have hn := congrArg (fun ds => Nat.ofDigitChars 10 ds 0) hdig
  exact UInt32.toNat_inj.1 (by simpa using hn)

/-- A placeholder is never looked up in the fixed table. -/
theorem isAnon_anonName (uid : UInt32) : isAnon (anonName uid) = true := by
  rw [isAnon, bytes_anonName, List.isPrefixOf_iff_prefix]
  exact List.prefix_append _ _

end Cupp
