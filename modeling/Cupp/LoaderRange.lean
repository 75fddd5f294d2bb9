import Cupp.LoaderExact

/-!
# The policies that there are files for

Whatever events a file has, a snapshot that is loaded from it is well formed : names have at most
255 bytes, addresses are those of some text, and the count is right. And each well-formed snapshot
is loaded from the documents that have its users and endpoints written out, in any order
(`loadable_iff`).
-/

namespace Cupp

variable (parse : CString → Option Host)

/-- The address has a text. -/
def Host.HasText (ip : Host) : Prop :=
  ∃ text, parse text = some ip

/-- What a snapshot has that is loaded from a file. -/
structure Snapshot.WellFormed (s : Snapshot) : Prop where
  names : ∀ {n ip}, s.fixed.lookup n = some ip → n.bytes.length ≤ 255
  texts : ∀ {n ip}, s.fixed.lookup n = some ip → ip.HasText parse
  start : ∀ ip ∈ s.poolStart, ip.HasText parse
  stop : ∀ ip ∈ s.poolEnd, ip.HasText parse
  counted : s.fixed.Counted

/-! ## What is loaded is well formed -/

/-- The same for what one event puts in. -/
def Binding.WellFormed : Binding → Prop
  | user name ip => name.bytes.length ≤ 255 ∧ ip.HasText parse
  | poolStart ip | poolEnd ip => ∀ h ∈ ip, h.HasText parse

variable {parse} {s : Snapshot} {b : Binding} {c : Cursor} {e : YamlEvent}

/-- A well-formed binding leaves the snapshot well formed. -/
theorem Snapshot.WellFormed.put (h : s.WellFormed parse) (hb : b.WellFormed parse) :
    (s.put b).WellFormed parse := by
  cases b with
  | user name ip =>
    have hlookup {n : CString} {ip' : Host}
        (hn : (s.put (.user name ip)).fixed.lookup n = some ip') :
        n = name ∧ ip' = ip ∨ s.fixed.lookup n = some ip' := by
      rw [lookup_put] at hn
      rcases eq_or_ne name n with rfl | hne
      · exact Or.inl ⟨rfl, by simpa [Binding.addressOf, eq_comm] using hn⟩
      · exact Or.inr (by simpa [Binding.addressOf, hne] using hn)
    refine ⟨fun hn => ?_, fun hn => ?_, h.start, h.stop, h.counted.add name ip⟩
    · rcases hlookup hn with ⟨rfl, rfl⟩ | hn
      · exact hb.1
      · exact h.names hn
    · rcases hlookup hn with ⟨rfl, rfl⟩ | hn
      · exact hb.2
      · exact h.texts hn
  | poolStart ip => exact ⟨h.names, h.texts, hb, h.stop, h.counted⟩
  | poolEnd ip => exact ⟨h.names, h.texts, h.start, hb, h.counted⟩

theorem Snapshot.WellFormed.putAll {bs : List Binding} (h : s.WellFormed parse)
    (hbs : ∀ b ∈ bs, b.WellFormed parse) : (s.putAll bs).WellFormed parse := by
  induction bs generalizing s with
  | nil => exact h
  | cons b bs ih =>
    have hput := h.put (hbs b (List.mem_cons_self ..))
    exact ih hput fun b' hb' => hbs b' (List.mem_cons_of_mem _ hb')

theorem Snapshot.wellFormed_empty : Snapshot.empty.WellFormed parse :=
  ⟨by simp [empty, FixedPool.create, FixedPool.lookup],
    by simp [empty, FixedPool.create, FixedPool.lookup], by simp [empty], by simp [empty],
    counted_empty⟩

theorem CString.length_ofBytes_le (buffer : List UInt8) :
    (ofBytes buffer).bytes.length ≤ buffer.length := by
  rw [bytes_ofBytes]
  exact (List.takeWhile_sublist _).length_le

/-- The name that users are filed under has room for 255 bytes. -/
theorem Cursor.length_next (h : c.curUser.bytes.length ≤ 255) (e : YamlEvent) :
    (c.next e).curUser.bytes.length ≤ 255 := by
  cases e with
  | mappingStart =>
    simp only [Cursor.next]
    split
    · exact h
    · exact (CString.length_ofBytes_le _).trans (List.length_take_le _ _)
    · exact h
  | mappingEnd =>
    simp only [Cursor.next]
    split
    · exact (CString.length_ofBytes_le _).trans (Nat.zero_le _)
    · exact h
    · exact h
    · exact h
  | _ => exact h

/-- What the loader binds is well formed. -/
theorem Cursor.wellFormed_emit (h : c.curUser.bytes.length ≤ 255) (hb : c.emit parse e = some b) :
    b.WellFormed parse := by
  cases e with
  | scalar value =>
    obtain ⟨key, -, hbind⟩ := Option.bind_eq_some_iff.1 hb
    unfold Cursor.bind at hbind
    split at hbind
    · split_ifs at hbind
      obtain ⟨ip, hip, rfl⟩ := Option.map_eq_some_iff.1 hbind
      exact ⟨h, _, hip⟩
    · split_ifs at hbind
      · obtain rfl := Option.some.inj hbind
        exact fun ip hip => ⟨_, hip⟩
      · obtain rfl := Option.some.inj hbind
        exact fun ip hip => ⟨_, hip⟩
    · simp at hbind
  | _ => simp [Cursor.emit] at hb

/-- What is loaded is well formed, from whatever events. -/
theorem wellFormed_of_load {file : PolicyFile} (h : snapshotLoad parse file = some s) :
    s.WellFormed parse := by
  cases file with
  | none => exact absurd h (by simp [snapshotLoad, yamlLoadPolicy])
  | some events =>
    rw [snapshotLoad_some] at h
    split_ifs at h
    obtain rfl := Option.some.inj h
    exact Snapshot.wellFormed_empty.putAll (Emitter.forall_emitted
      (I := fun c : Cursor => c.curUser.bytes.length ≤ 255) (fun c e hc => Cursor.length_next hc e)
      (fun c e b hc hb => Cursor.wellFormed_emit hc hb) (Nat.zero_le _))

/-! ## A well-formed snapshot written out -/

/-- The endpoints with their keys. -/
def Snapshot.endpoints (s : Snapshot) (print : Host → CString) : ScalarPairs :=
  s.poolStart.toList.map (fun ip => (ascii ['s', 't', 'a', 'r', 't'], (print ip).bytes)) ++
    s.poolEnd.toList.map fun ip => (ascii ['e', 'n', 'd'], (print ip).bytes)

/-- The users with their addresses. -/
def userEntries (print : Host → CString) (entries : List (Σ _ : CString, Host)) :
    List (List UInt8 × UserValue) :=
  entries.map fun entry => (entry.1.bytes, .mapping [(ascii ['i', 'p'], (print entry.2).bytes)])

/-- The document has the snapshot written out, with `print` for addresses : a section with the users
and one with the endpoints. The order of sections, users and endpoints is open. -/
def Snapshot.WrittenAs (s : Snapshot) (print : Host → CString) (document : PolicyDocument) : Prop :=
  ∃ entries ends, Hashtable.Enumerates entries s.fixed.users ∧ ends.Perm (s.endpoints print) ∧
    document.Perm [.users (userEntries print entries), .pool ends]

variable {print : Host → CString} {entries : List (Σ _ : CString, Host)}
  {document : PolicyDocument}

theorem CString.ofBytes_bytes (text : CString) : ofBytes text.bytes = text :=
  CString.ext (ofBytes_of_noNul text.noNul)

/-- A well-formed snapshot is written with short names. -/
theorem Snapshot.WellFormed.shortNames (h : s.WellFormed parse)
    (hdoc : s.WrittenAs print document) : document.ShortNames := by
  obtain ⟨entries, ends, hentries, -, hperm⟩ := hdoc
  intro name hname
  have hname' := (List.Perm.flatMap_right _ hperm).mem_iff.1 hname
  obtain ⟨⟨n, ip⟩, hmem, rfl⟩ : ∃ entry ∈ entries, entry.1.bytes = name := by
    simpa [userEntries] using hname'
  exact ⟨n.noNul, h.names ((hentries.mem_iff n ip).1 hmem)⟩

/-- A list with at most one value, perhaps repeated. -/
theorem getLast?_eq_of_mem_iff {l : List Host} {o : Option Host} (h : ∀ ip, ip ∈ l ↔ o = some ip) :
    l.getLast? = o := by
  cases hlast : l.getLast? with
  | none =>
    obtain rfl := List.getLast?_eq_none_iff.1 hlast
    exact (Option.eq_none_iff_forall_ne_some.2 fun ip ho => by simpa using (h ip).2 ho).symm
  | some ip => exact ((h ip).1 (List.mem_of_getLast? hlast)).symm

/-- The values that are written for a name are those that it has in the table. -/
theorem Snapshot.WrittenAs.mem_ipValues (hdoc : s.WrittenAs print document)
    (hprint : ∀ {n : CString} {ip : Host}, s.fixed.lookup n = some ip → parse (print ip) = some ip)
    (name : CString) (ip : Host) :
    ip ∈ (document.ipValues isAsCString name).filterMap (parseValue parse) ↔
      s.fixed.lookup name = some ip := by
  obtain ⟨entries, ends, hentries, -, hperm⟩ := hdoc
  have hkey : isAsCString (ascii ['i', 'p']) (ascii ['i', 'p']) = true := by decide
  have hvalues : (document.ipValues isAsCString name).Perm (entries.flatMap fun entry =>
      if entry.1 = name then [(print entry.2).bytes] else []) := by
    refine (List.Perm.flatMap_right _ hperm).trans (List.Perm.of_eq ?_)
    simp [userEntries, List.flatMap_map, UserValue.pairs, hkey, ← CString.ext_iff]
  rw [List.mem_filterMap]
  simp only [hvalues.mem_iff, List.mem_flatMap, List.mem_ite_nil_right, List.mem_singleton]
  constructor
  · rintro ⟨value, ⟨⟨n, ip'⟩, hmem, rfl, rfl⟩, hparse⟩
    have hlookup := (hentries.mem_iff n ip').1 hmem
    rw [parseValue, CString.ofBytes_bytes, hprint hlookup] at hparse
    exact hlookup.trans hparse
  · intro hlookup
    refine ⟨_, ⟨⟨name, ip⟩, (hentries.mem_iff name ip).2 hlookup, rfl, rfl⟩, ?_⟩
    rw [parseValue, CString.ofBytes_bytes, hprint hlookup]

/-- The values that are written for an endpoint, of which there is at most one. -/
theorem Snapshot.WrittenAs.poolValues (hdoc : s.WrittenAs print document) (key : List UInt8) :
    (document.poolValues isAsCString key).Perm
      (((s.endpoints print).filter fun p => isAsCString p.1 key).map Prod.snd) := by
  obtain ⟨entries, ends, -, hends, hperm⟩ := hdoc
  refine (List.Perm.flatMap_right _ hperm).trans ?_
  simpa using (hends.filter fun p => isAsCString p.1 key).map Prod.snd

/-- The value is read as the endpoint that it is written for. -/
theorem bind_parseValue_of_perm {o : Option Host} {values : List (List UInt8)}
    (hvalues : values.Perm (o.toList.map fun ip => (print ip).bytes))
    (hprint : ∀ ip ∈ o, parse (print ip) = some ip) :
    values.getLast?.bind (parseValue parse) = o := by
  cases o with
  | none =>
    obtain rfl := hvalues.eq_nil
    rfl
  | some ip =>
    obtain rfl := hvalues.eq_singleton
    simp [parseValue, CString.ofBytes_bytes, hprint ip rfl]

/-- The first address is read back. -/
theorem Snapshot.WrittenAs.poolStart (hdoc : s.WrittenAs print document)
    (hprint : ∀ ip ∈ s.poolStart, parse (print ip) = some ip) :
    (document.poolValues isAsCString (ascii ['s', 't', 'a', 'r', 't'])).getLast?.bind
      (parseValue parse) = s.poolStart := by
  have hstart : isAsCString (ascii ['s', 't', 'a', 'r', 't']) (ascii ['s', 't', 'a', 'r', 't']) =
      true := by
    decide
  have hend : isAsCString (ascii ['e', 'n', 'd']) (ascii ['s', 't', 'a', 'r', 't']) = false := by
    decide
  refine bind_parseValue_of_perm ((hdoc.poolValues _).trans (List.Perm.of_eq ?_)) hprint
  unfold endpoints
  cases s.poolStart <;> cases s.poolEnd <;> simp [hstart, hend]

/-- The last address is read back. -/
theorem Snapshot.WrittenAs.poolEnd (hdoc : s.WrittenAs print document)
    (hprint : ∀ ip ∈ s.poolEnd, parse (print ip) = some ip) :
    (document.poolValues isAsCString (ascii ['e', 'n', 'd'])).getLast?.bind (parseValue parse) =
      s.poolEnd := by
  have hstart : isAsCString (ascii ['s', 't', 'a', 'r', 't']) (ascii ['e', 'n', 'd']) = false := by
    decide
  have hend : isAsCString (ascii ['e', 'n', 'd']) (ascii ['e', 'n', 'd']) = true := by
    decide
  refine bind_parseValue_of_perm ((hdoc.poolValues _).trans (List.Perm.of_eq ?_)) hprint
  unfold endpoints
  cases s.poolStart <;> cases s.poolEnd <;> simp [hstart, hend]

/-- A count is that of its table. -/
theorem FixedPool.Counted.ext {fixed fixed' : FixedPool} (h : fixed.Counted) (h' : fixed'.Counted)
    (hlookup : ∀ n, fixed.lookup n = fixed'.lookup n) : fixed = fixed' := by
  have husers : fixed.users = fixed'.users := Hashtable.ext_get (funext hlookup)
  have hcount : fixed.count = fixed'.count := by rw [h, h', husers]
  cases fixed
  cases fixed'
  congr

theorem Snapshot.ext {s' : Snapshot} (hfixed : s.fixed = s'.fixed)
    (hstart : s.poolStart = s'.poolStart) (hstop : s.poolEnd = s'.poolEnd) : s = s' := by
  cases s
  cases s'
  congr

/-- What is written out is loaded again. -/
theorem load_written (h : s.WellFormed parse)
    (hprint : ∀ {ip : Host}, ip.HasText parse → parse (print ip) = some ip)
    (hdoc : s.WrittenAs print document) :
    snapshotLoad parse (some document.node.stream) = some s := by
  have hlookup (name : CString) := getLast?_eq_of_mem_iff
    (hdoc.mem_ipValues (fun hn => hprint (h.texts hn)) name)
  rw [snapshotLoad_stream]
  refine congrArg some (Snapshot.ext ?_ ?_ ?_)
  · refine (Snapshot.counted_putAll Snapshot.counted_empty _).ext h.counted fun name => ?_
    rw [lookup_document parse (h.shortNames hdoc), hlookup]
  · rw [poolStart_document]
    exact hdoc.poolStart fun ip hip => hprint (h.start ip hip)
  · rw [poolEnd_document]
    exact hdoc.poolEnd fun ip hip => hprint (h.stop ip hip)

/-- Every snapshot can be written out. -/
theorem exists_writtenAs (s : Snapshot) (print : Host → CString) :
    ∃ document, s.WrittenAs print document := by
  obtain ⟨entries, hentries⟩ := Hashtable.exists_enumerates s.fixed.users
  exact ⟨_, entries, s.endpoints print, hentries, .refl _, .refl _⟩

variable (parse) in
/-- There is a text for each address that has one. -/
theorem exists_print : ∃ print : Host → CString, ∀ ip, ip.HasText parse →
    parse (print ip) = some ip := by
  have htext (ip : Host) : ∃ text, ip.HasText parse → parse text = some ip := by
    by_cases hip : ip.HasText parse
    · exact hip.imp fun _ htext _ => htext
    · exact ⟨.ofBytes [], fun h => absurd h hip⟩
  exact Classical.skolem.1 htext

variable (parse s) in
/-- The snapshots that there are files for. Each is loaded again from the documents that have it
written out. -/
theorem loadable_iff : ((∃ file, snapshotLoad parse file = some s) ↔ s.WellFormed parse) ∧
    (s.WellFormed parse → ∀ print : Host → CString,
      (∀ ip, ip.HasText parse → parse (print ip) = some ip) →
        ∀ document, s.WrittenAs print document →
          snapshotLoad parse (some document.node.stream) = some s) := by
  refine ⟨⟨?_, fun h => ?_⟩, fun h print hprint document hdoc => load_written h (hprint _) hdoc⟩
  · rintro ⟨file, hload⟩
    exact wellFormed_of_load hload
  · obtain ⟨print, hprint⟩ := exists_print parse
    obtain ⟨document, hdoc⟩ := exists_writtenAs s print
    exact ⟨_, load_written h (hprint _) hdoc⟩

end Cupp
