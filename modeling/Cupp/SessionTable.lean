import Cupp.Sections

/-!
# The session table under arbitrary calls

Here the session manager stands alone, and its three updates are called with any names and
any unique ids (`SessionCall`). `Indexed` is what a table of two indices promises : they
file the same leases, so that a user who is found is counted, can be unbound, and is seen
by `foreach_expiring`.

`put` under a unique id that is in use drops the entry of another user and leaves that
user's lease in `by_user`. A call keeps the promise iff it does not do this
(`session_table_of_run`).
-/

set_option linter.unusedSectionVars false

open Transition

namespace Cupp

/-- A call that changes the session table, with memory at hand. -/
inductive SessionCall
  | bind (username : CString) (uniqueId : UInt32) (ip : Host) (fixed : Bool) (now : ℤ)
  | migrate (username : CString) (newUniqueId : UInt32) (now : ℤ)
  | unbind (uniqueId : UInt32)
  deriving DecidableEq

namespace SessionManager

variable {m m' : SessionManager} {n : CString} {u : UInt32} {r r' : LeaseRef} {e : SessionCall}
  {ip : Host} {fixed : Bool} {now : ℤ}

/-- One call of the manager, with memory for it. -/
def call (m : SessionManager) : SessionCall → SessionManager
  | .bind username uniqueId ip fixed now => (m.bindLease username uniqueId ip fixed now true).2
  | .migrate username newUniqueId now => (m.migrate username newUniqueId now).2
  | .unbind uniqueId => (m.unbind uniqueId).2

/-- Runs of calls on a new table. -/
abbrev Run (guard : List SessionCall → SessionManager → SessionCall → Prop) :
    List SessionCall → SessionManager → Prop :=
  Transition.Run (fun m e m' => m.call e = m') guard .create

/-- The two indices are in one-to-one correspondence, and whoever goes through one of them
meets every lease. -/
structure Indexed (m : SessionManager) : Prop where
  byUser : ∀ n r, m.byUser.get n = some r → m.user r = n ∧ m.byUid.get (m.uid r) = some r
  byUid : ∀ u r, m.byUid.get u = some r → m.uid r = u ∧ m.byUser.get (m.user r) = some r
  injUser : ∀ n n' r, m.byUser.get n = some r → m.byUser.get n' = some r → n = n'
  injUid : ∀ u u' r, m.byUid.get u = some r → m.byUid.get u' = some r → u = u'
  count_eq : ∀ entries, Hashtable.Enumerates entries m.byUid →
    count entries = {n | (m.lookupByUser n).isSome = true}.ncard
  removable : ∀ n r, m.lookupByUser n = some r → (m.unbind (m.uid r)).1 = some r ∧
    (m.unbind (m.uid r)).2.lookupByUser n = none ∧
    (m.unbind (m.uid r)).2.byUid.get (m.uid r) = none
  seen : ∀ entries, Hashtable.Enumerates entries m.byUid → ∀ n r, m.lookupByUser n = some r →
    ∀ now timeout, r ∈ m.expiring now timeout entries ↔ (m.obj r).expired now timeout = true

/-- The call takes no unique id from another user. -/
def FreeUid (m : SessionManager) : SessionCall → Prop
  | .bind n u _ _ _ => ∀ r ∈ m.byUid.get u, m.user r = n
  | .migrate n u _ => (m.byUser.get n).isSome = true → ∀ r ∈ m.byUid.get u, m.user r = n
  | .unbind _ => True

instance (m : SessionManager) : DecidablePred m.FreeUid
  | .bind _ _ _ _ _ => inferInstanceAs (Decidable (∀ r ∈ _, _))
  | .migrate _ _ _ => inferInstanceAs (Decidable (_ → _))
  | .unbind _ => inferInstanceAs (Decidable True)

/-! ## The correspondence is all it takes -/

/-- Both tables file the same leases under the leases' own keys. -/
abbrev Paired (m : SessionManager) : Prop :=
  TwoIndex.Paired m.byUid.get m.byUser.get m.uid m.user

theorem count_eq_length (entries : List (Σ _ : UInt32, LeaseRef)) :
    count entries = entries.length := by
  have hfold : ∀ c, entries.foldl (fun c _ => c + 1) c = c + entries.length := by
    induction entries with
    | nil => simp
    | cons e entries ih =>
      intro c
      rw [List.foldl_cons, ih, List.length_cons]
      omega
  simp [count, hfold]

/-- In a paired table `count` is the number of users with a lease. -/
theorem Paired.count_eq (h : m.Paired) {entries : List (Σ _ : UInt32, LeaseRef)}
    (hes : Hashtable.Enumerates entries m.byUid) :
    count entries = {n | (m.lookupByUser n).isSome = true}.ncard := by
  have hnodup : (entries.map fun e => m.user e.2).Nodup := by
    refine List.Nodup.map_on ?_ hes.nodup
    rintro ⟨u, r⟩ he ⟨u', r'⟩ he' huser
    have hr := (hes.mem_iff u r).1 he
    have hr' := (hes.mem_iff u' r').1 he'
    -- one user has one lease, and a lease one unique id
    obtain rfl : r = r' := by
      have hb : m.byUser.get (m.user r) = some r' := by
        rw [show m.user r = m.user r' from huser]
        exact h.toB hr'
      exact Option.some.inj ((h.toB hr).symm.trans hb)
    obtain rfl : u = u' := (h.keyA_eq hr).symm.trans (h.keyA_eq hr')
    rfl
  have hset : {n | (m.lookupByUser n).isSome = true} =
      ((entries.map fun e => m.user e.2).toFinset : Set CString) := by
    ext n
    simp only [Set.mem_ofPred_eq, List.coe_toFinset, List.mem_map, Option.isSome_iff_exists]
    constructor
    · rintro ⟨r, hr⟩
      exact ⟨⟨m.uid r, r⟩, (hes.mem_iff _ r).2 (h.toA hr), h.keyB_eq hr⟩
    · rintro ⟨⟨u, r⟩, he, rfl⟩
      exact ⟨r, h.toB ((hes.mem_iff u r).1 he)⟩
  rw [hset, Set.ncard_coe_finset, List.toFinset_card_of_nodup hnodup, List.length_map,
    count_eq_length]

/-- In a paired table the user's lease can be removed by its unique id. -/
theorem Paired.removable (h : m.Paired) (hr : m.byUser.get n = some r) :
    (m.unbind (m.uid r)).1 = some r ∧ (m.unbind (m.uid r)).2.lookupByUser n = none ∧
      (m.unbind (m.uid r)).2.byUid.get (m.uid r) = none := by
  rw [unbind_of_some _ _ _ (h.toA hr)]
  refine ⟨rfl, ?_, ?_⟩
  · change (m.removeLease (m.uid r) r).byUser.get n = none
    rw [byUser_removeLease, h.keyB_eq hr, Function.update_self]
  · rw [byUid_removeLease, Function.update_self]

/-- In a paired table the enumeration sees the user's lease when it is expired. -/
theorem Paired.seen (h : m.Paired) {entries : List (Σ _ : UInt32, LeaseRef)}
    (hes : Hashtable.Enumerates entries m.byUid) (hr : m.byUser.get n = some r) (now : ℤ)
    (timeout : UInt32) :
    r ∈ m.expiring now timeout entries ↔ (m.obj r).expired now timeout = true := by
  rw [expiring, List.mem_filter, and_iff_right_iff_imp]
  exact fun _ => List.mem_map.2 ⟨⟨m.uid r, r⟩, (hes.mem_iff _ r).2 (h.toA hr), rfl⟩

/-- The correspondence is the pairing, from which all else follows. -/
theorem indexed_iff : m.Indexed ↔ m.Paired := by
  constructor
  · intro h
    exact ⟨⟨fun hu => (h.byUid _ _ hu).1, fun hn => (h.byUser _ _ hn).1,
      fun hu => (h.byUid _ _ hu).2⟩, fun hn => (h.byUser _ _ hn).2⟩
  · intro h
    exact
      { byUser := fun _ _ hn => ⟨h.keyB_eq hn, h.toA hn⟩
        byUid := fun _ _ hu => ⟨h.keyA_eq hu, h.toB hu⟩
        injUser := fun _ _ _ hn hn' => (h.keyB_eq hn).symm.trans (h.keyB_eq hn')
        injUid := fun _ _ _ hu hu' => (h.keyA_eq hu).symm.trans (h.keyA_eq hu')
        count_eq := fun _ hes => h.count_eq hes
        removable := fun _ _ hr => h.removable hr
        seen := fun _ hes _ _ hr => h.seen hes hr }

/-- A lease whose unique id is filed for another lease is in one index only. -/
theorem not_paired_of_taken (hkeep : m'.byUser.get n = some r ∧ m'.uid r = u)
    (hne : m'.byUid.get u ≠ some r) : ¬m'.Paired := by
  intro h'
  have htoA := h'.toA hkeep.1
  rw [hkeep.2] at htoA
  exact hne htoA

/-! ## One call -/

/-- `bind_lease` first takes out the lease that the user has. -/
theorem bindLease_spec (hok : m.Ok) (h : m.Paired) (n : CString) (u : UInt32) (ip : Host)
    (fixed : Bool) (now : ℤ) : ∃ m₁ : SessionManager,
      (m.bindLease n u ip fixed now true).2 = m₁.putLease n u ip fixed now ∧ m₁.Ok ∧ m₁.Paired ∧
      m₁.byUser.get n = none ∧ m₁.obj = m.obj ∧
      ∀ u r, m₁.byUid.get u = some r ↔ m.byUid.get u = some r ∧ m.user r ≠ n := by
  cases hn : m.byUser.get n with
  | none =>
    refine ⟨m, by rw [bindLease_of_none _ _ _ _ _ _ hn]; rfl, hok, h, hn, rfl, fun u r => ?_⟩
    refine (and_iff_left_of_imp fun hu => ?_).symm
    rintro rfl
    simp [h.toB hu] at hn
  | some r =>
    have hr := h.toA hn
    have huser := h.keyB_eq hn
    have hnone : (m.removeLease (m.uid r) r).byUser.get n = none := by
      rw [byUser_removeLease, huser, Function.update_self]
    refine ⟨(m.removeLease (m.uid r) r).leaseDestroy r, ?_, ?_, ?_, hnone, rfl, fun u r' => ?_⟩
    · unfold bindLease
      rw [hn]
      rfl
    · refine (hok.removeLease hr).leaseDestroy (hok.lt hn) fun n' hn' => ?_
      obtain ⟨hne, hn'⟩ := byUser_of_removeLease hn'
      exact hne (h.keyB_eq hn').symm
    · change TwoIndex.Paired (m.removeLease (m.uid r) r).byUid.get
        (m.removeLease (m.uid r) r).byUser.get m.uid m.user
      rw [byUid_removeLease, byUser_removeLease]
      exact h.remove hr
    · change (m.removeLease (m.uid r) r).byUid.get u = some r' ↔ _
      rw [byUid_removeLease]
      constructor
      · intro hu
        rcases eq_or_ne u (m.uid r) with rfl | hne
        · simp at hu
        · rw [Function.update_of_ne hne] at hu
          refine ⟨hu, fun huser' => hne ?_⟩
          obtain rfl : r = r' := Option.some.inj (hn.symm.trans (huser' ▸ h.toB hu))
          exact (h.keyA_eq hu).symm
      · rintro ⟨hu, huser'⟩
        rw [Function.update_of_ne]
        · exact hu
        · rintro rfl
          obtain rfl := Option.some.inj (hr.symm.trans hu)
          exact huser' huser

/-- When `bind_lease` keeps the tables paired. -/
theorem paired_bind_iff (hok : m.Ok) (h : m.Paired) :
    (m.bindLease n u ip fixed now true).2.Paired ↔ ∀ r ∈ m.byUid.get u, m.user r = n := by
  obtain ⟨m₁, heq, hok₁, h₁, hn, hobj, hold⟩ := bindLease_spec hok h n u ip fixed now
  have huser : m₁.user = m.user := by
    funext r
    rw [user, hobj]
    rfl
  rw [heq]
  constructor
  · intro hput r hr
    by_contra hne
    have hr₁ := (hold u r).2 ⟨hr, hne⟩
    have hlt : r < m₁.next := hok₁.lt (h₁.toB hr₁)
    refine not_paired_of_taken (n := m₁.user r) (r := r) (u := u) ⟨?_, ?_⟩ ?_ hput
    · rw [byUser_putLease, Function.update_of_ne (by rwa [huser])]
      exact h₁.toB hr₁
    · rw [uid_putLease, Function.update_of_ne hlt.ne]
      exact h₁.keyA_eq hr₁
    · rw [byUid_putLease, Function.update_self]
      exact fun h => hlt.ne (Option.some.inj h).symm
  · intro hfree
    have hu : m₁.byUid.get u = none := by
      refine Option.eq_none_iff_forall_ne_some.2 fun r hr => ?_
      obtain ⟨hr, hne⟩ := (hold u r).1 hr
      exact hne (hfree r hr)
    rw [Paired, uid_putLease, user_putLease, byUid_putLease, byUser_putLease]
    exact h₁.insert hok₁.fresh_next hn hu

/-- When `migrate` keeps them paired. -/
theorem paired_migrate_iff (h : m.Paired) : (m.migrate n u now).2.Paired ↔
    ((m.byUser.get n).isSome = true → ∀ r ∈ m.byUid.get u, m.user r = n) := by
  cases hn : m.byUser.get n with
  | none =>
    have heq : m.migrate n u now = (none, m) := by
      unfold migrate
      rw [hn]
    rw [heq]
    exact iff_of_true h (by simp)
  | some r =>
    rw [migrate_of_some _ _ _ _ hn]
    simp only [Option.isSome_some, forall_const]
    constructor
    · intro hmove r' hr'
      by_contra hne
      have hrr : r' ≠ r := fun heq => hne (heq ▸ h.keyB_eq hn)
      refine not_paired_of_taken (n := m.user r') (r := r') (u := u) ⟨?_, ?_⟩ ?_ hmove
      · exact h.toB hr'
      · rw [uid_moveLease, Function.update_of_ne hrr]
        exact h.keyA_eq hr'
      · rw [byUid_moveLease, Function.update_self]
        exact fun h => hrr (Option.some.inj h).symm
    · intro hfree
      rw [Paired, uid_moveLease, user_moveLease, byUid_moveLease, byUser_moveLease]
      refine h.rekey hn fun r' hr' => ?_
      exact Option.some.inj ((hfree r' hr' ▸ h.toB hr').symm.trans hn)

/-- `unbind` always keeps them paired. -/
theorem paired_unbind (h : m.Paired) (u : UInt32) : (m.unbind u).2.Paired := by
  cases hu : m.byUid.get u with
  | none => rwa [unbind_of_none _ _ hu]
  | some r =>
    rw [unbind_of_some _ _ _ hu]
    change TwoIndex.Paired (m.removeLease u r).byUid.get (m.removeLease u r).byUser.get m.uid m.user
    rw [byUid_removeLease, byUser_removeLease]
    exact h.remove hu

/-- When a call keeps them paired. -/
theorem paired_call_iff (hok : m.Ok) (h : m.Paired) (e : SessionCall) :
    (m.call e).Paired ↔ m.FreeUid e := by
  cases e with
  | bind => exact paired_bind_iff hok h
  | migrate => exact paired_migrate_iff h
  | unbind u => exact iff_of_true (paired_unbind h u) trivial

/-- A call keeps paired tables in order. -/
theorem ok_call (hok : m.Ok) (h : m.Paired) (e : SessionCall) : (m.call e).Ok := by
  cases e with
  | bind n u ip fixed now =>
    obtain ⟨m₁, heq, hok₁, -, hn, -⟩ := bindLease_spec hok h n u ip fixed now
    rw [call, heq]
    exact hok₁.putLease hn
  | migrate n u now =>
    rw [call]
    cases hn : m.byUser.get n with
    | none =>
      unfold migrate
      rwa [hn]
    | some r =>
      rw [migrate_of_some _ _ _ _ hn]
      exact hok.moveLease hn
  | unbind u =>
    rw [call]
    cases hu : m.byUid.get u with
    | none => rwa [unbind_of_none _ _ hu]
    | some r =>
      rw [unbind_of_some _ _ _ hu]
      exact hok.removeLease hu

end SessionManager

/-- As long as no call takes a unique id from another user, the two indices correspond. A
further call keeps them so iff it does not either. -/
theorem session_table_of_run {es : List SessionCall} {m : SessionManager}
    (h : SessionManager.Run (fun _ m e => m.FreeUid e) es m) :
    m.Indexed ∧ ∀ e, (m.call e).Indexed ↔ m.FreeUid e := by
  obtain ⟨hok, hp⟩ : m.Ok ∧ m.Paired := by
    refine h.invariant (I := fun m => m.Ok ∧ m.Paired)
      ⟨SessionManager.ok_create, (SessionManager.bound_create fun _ => .ofBytes []).paired⟩ ?_
    rintro es m e m' ⟨hok, hp⟩ hfree rfl
    exact ⟨SessionManager.ok_call hok hp e, (SessionManager.paired_call_iff hok hp e).2 hfree⟩
  refine ⟨SessionManager.indexed_iff.2 hp, fun e => ?_⟩
  rw [SessionManager.indexed_iff]
  exact SessionManager.paired_call_iff hok hp e

/-- `a` and `b` get leases, `a` moves to another unique id, and `b` to the one `a` had. -/
theorem session_table_of_swap : ∃ m, SessionManager.Run (fun _ m e => m.FreeUid e)
      [.bind (letter 'a') 1 (tenNet 1) false 0, .bind (letter 'b') 2 (tenNet 2) false 0,
        .migrate (letter 'a') 3 0, .migrate (letter 'b') 1 0] m ∧
    m.Indexed ∧ ¬(m.call (.migrate (letter 'b') 3 0)).Indexed := by
  have hlogins : SessionManager.Run (fun _ m e => m.FreeUid e)
      [.bind (letter 'a') 1 (tenNet 1) false 0, .bind (letter 'b') 2 (tenNet 2) false 0] _ :=
    .snoc (.snoc .nil (by decide) rfl) (by decide) rfl
  have hrun : SessionManager.Run (fun _ m e => m.FreeUid e)
      [.bind (letter 'a') 1 (tenNet 1) false 0, .bind (letter 'b') 2 (tenNet 2) false 0,
        .migrate (letter 'a') 3 0, .migrate (letter 'b') 1 0] _ :=
    .snoc (.snoc hlogins (by decide) rfl) (by decide) rfl
  exact ⟨_, hrun, (session_table_of_run hrun).1,
    fun h => absurd (((session_table_of_run hrun).2 _).1 h) (by decide)⟩

/-- Two users with one unique id. -/
theorem not_session_table : ¬∀ (es : List SessionCall) (m : SessionManager),
    SessionManager.Run (fun _ _ _ => True) es m → m.Indexed := by
  intro hall
  have hrun : SessionManager.Run (fun _ _ _ => True)
      [.bind (letter 'a') 1 (tenNet 1) false 0, .bind (letter 'b') 1 (tenNet 2) false 0] _ :=
    .snoc (.snoc .nil trivial rfl) trivial rfl
  have hfiled := ((hall _ _ hrun).byUser (letter 'a') 0 (by decide)).2
  exact absurd hfiled (by decide)

end Cupp
