/-
  What is read from an object is determined by its members, not by how they are written.

  * `Member.name`, `valuesOf`: the name of a member, and the values that an object has under a name;
  * `Draft.take`: a draft after one more member; `readMember_entry`: this is what reading an entry
    does;
  * `readMembers_entries`, `readObject_entries`: entries one after the other, and their end;
  * `parse_of_isJson_object`: a document is read from an object by taking its members in turn.
-/
import OtaPack.Proofs.Json.Skip
import OtaPack.Proofs.Json.Typed
import OtaPack.Transfer.Parse

namespace OtaPack.Transfer

open Json

/-! ## Members -/

/-- The name of a member. -/
def Member.name : Member → String
  | .binary => "binary"
  | .chunkSize => "chunk_size"
  | .delay => "delay"

theorem Member.ofName?_eq_some_iff {name : String} {m : Member} :
    Member.ofName? name = some m ↔ name = m.name := by
  constructor
  · intro h
    unfold Member.ofName? at h
    split at h <;> cases h <;> rfl
  · rintro rfl
    cases m <;> rfl

/-- The values of the members of a name, in the order in which they come. -/
def valuesOf (name : String) (ms : List (String × Value)) : List Value :=
  (ms.filter fun m => m.1 = name).map Prod.snd

/-- A draft with the value of one more field. -/
def Draft.put (d : Draft) (m : Member) (v : Value) : Except Problem Draft :=
  match m with
  | .binary => (orMismatch v.text?).map fun s => { d with binary := some s }
  | .chunkSize => (orMismatch v.word32?).map fun w => { d with chunkSize := some w }
  | .delay => (orMismatch v.word32?).map fun w => { d with delay := some w }

/-- A draft after one more member. -/
def Draft.take (d : Draft) : String × Value → Except Problem Draft
  | (name, v) =>
    match Member.ofName? name with
    | some m => if d.has m then .error .mismatch else d.put m v
    | none => .ok d

/-! ## Reading entries -/

section
variable {d : Draft} {e : Json.Entry} {entries : List Json.Entry} {ws cs rest : List Char}
  {v : Value}

theorem readValue_of_isText (d : Draft) (m : Member) (hws : Blanks ws) (h : IsText v cs)
    (hv : v.InRange) (hrest : EndsNumber rest) :
    d.readValue m (ws ++ (cs ++ rest)) = (d.put m v).map fun d => (d, rest) := by
  cases m with
  | binary =>
    rw [Draft.readValue, readText_of_isText hws h hv hrest, Draft.put]
    cases v.text? <;> rfl
  | chunkSize =>
    rw [Draft.readValue, readWord32_of_isText hws h hv hrest, Draft.put]
    cases v.word32? <;> rfl
  | delay =>
    rw [Draft.readValue, readWord32_of_isText hws h hv hrest, Draft.put]
    cases v.word32? <;> rfl

/-- An entry can be read: the value of a field is no number beyond the range of a double. -/
structure Readable (e : Json.Entry) : Prop where
  spaced : e.Spaced
  isText : IsText e.item.value e.item.text
  inRange : ∀ m : Member, e.name = m.name → e.item.value.InRange

theorem readMember_blanks (hws : Blanks ws) (d : Draft) (cs : List Char) :
    d.readMember (ws ++ cs) = d.readMember cs := by
  rw [Draft.readMember, hws.skipBlanks_append, ← Draft.readMember]

/-- An entry is read up to the blanks behind its value. -/
theorem readMember_entry (d : Draft) (he : Readable e) (hrest : EndsNumber rest) :
    d.readMember (e.chars ++ rest) =
      (d.take e.member).map fun d => (d, e.item.after ++ rest) := by
  obtain ⟨hspaced, htext, hrange⟩ := he
  have hend := hspaced.item.after.endsNumber hrest
  have hcolon : readColon (e.gap ++ ':' :: (e.item.chars ++ rest)) =
      .ok (e.item.before ++ (e.item.text ++ (e.item.after ++ rest))) := by
    rw [readColon, hspaced.gap.skipBlanks_append, skipBlanks_of_not_blank (by decide),
      e.item.chars_append]
    rfl
  have hname : d.readMember (e.chars ++ rest) =
      d.readAfterName e.name (e.gap ++ ':' :: (e.item.chars ++ rest)) := by
    rw [e.chars_append, readMember_blanks hspaced.margin, Draft.readMember,
      skipBlanks_of_not_blank (by decide)]
    simp only [↓reduceIte, readQuoted_of_spells hspaced.spells, String.ofList_toList]
  rw [hname, Draft.readAfterName, Json.Entry.member, Draft.take]
  cases hm : Member.ofName? e.name with
  | none =>
    simp only [hcolon, skipValue_of_isText hspaced.item.before htext hend]
    rfl
  | some m =>
    have hinRange := hrange m (Member.ofName?_eq_some_iff.1 hm)
    simp only [hcolon, readValue_of_isText d m hspaced.item.before htext hinRange hend]
    split_ifs <;> rfl

theorem readMembers_step (d : Draft) (cs : List Char) :
    readMembers d cs =
      match skipBlanks cs with
      | [] => .error .endOfText
      | c :: rest =>
        if c = '\x7d' then d.complete.map fun document => (document, rest)
        else if c = ',' then d.readMember rest >>= fun (d, after) => readMembers d after
        else .error .malformed := by
  rw [readMembers]
  split <;> rename_i h <;> rw [h]
  dsimp only
  cases d.readMember _ <;> rfl

theorem readMembers_blanks (hws : Blanks ws) (d : Draft) (cs : List Char) :
    readMembers d (ws ++ cs) = readMembers d cs := by
  rw [readMembers_step, hws.skipBlanks_append, ← readMembers_step]

theorem readMembers_brace (d : Draft) (rest : List Char) :
    readMembers d ('\x7d' :: rest) = d.complete.map fun document => (document, rest) := by
  rw [readMembers_step, skipBlanks_of_not_blank (by decide)]
  rfl

theorem readMembers_comma (d : Draft) (cs : List Char) :
    readMembers d (',' :: cs) = d.readMember cs >>= fun (d, after) => readMembers d after := by
  rw [readMembers_step, skipBlanks_of_not_blank (by decide)]
  rfl

/-- What follows an entry, and the closing brace, is read by taking the members in turn. -/
theorem readMembers_entries (hentries : ∀ e ∈ entries, Readable e) (d : Draft)
    (rest : List Char) :
    readMembers d (commas (entries.map Json.Entry.chars) ++ '\x7d' :: rest) =
      ((entries.map Json.Entry.member).foldlM Draft.take d >>= Draft.complete).map
        fun document => (document, rest) := by
  induction entries generalizing d with
  | nil => exact readMembers_brace d rest
  | cons e entries ih =>
    obtain ⟨he, hentries⟩ := List.forall_mem_cons.1 hentries
    have hend : EndsNumber (commas (entries.map Json.Entry.chars) ++ '\x7d' :: rest) :=
      endsNumber_commas _ .object rest
    have hsplit : commas ((e :: entries).map Json.Entry.chars) ++ '\x7d' :: rest =
        ',' :: (e.chars ++ (commas (entries.map Json.Entry.chars) ++ '\x7d' :: rest)) := by
      rw [List.map_cons, commas, List.flatMap_cons, List.append_assoc]
      rfl
    rw [hsplit, readMembers_comma, readMember_entry d he hend, List.map_cons, List.foldlM_cons]
    cases d.take e.member with
    | error => rfl
    | ok d' =>
      show readMembers d' _ = _
      rw [readMembers_blanks he.spaced.item.after, ih hentries]
      rfl

/-- An object is read by taking its members in turn. -/
theorem readObject_entries (hne : entries ≠ []) (hentries : ∀ e ∈ entries, Readable e)
    (rest : List Char) :
    readObject (separated (entries.map Json.Entry.chars) ++ '\x7d' :: rest) =
      ((entries.map Json.Entry.member).foldlM Draft.take {} >>= Draft.complete).map
        fun document => (document, rest) := by
  obtain ⟨e, entries, rfl⟩ := List.exists_cons_of_ne_nil hne
  obtain ⟨he, hentries⟩ := List.forall_mem_cons.1 hentries
  have hend : EndsNumber (commas (entries.map Json.Entry.chars) ++ '\x7d' :: rest) :=
    endsNumber_commas _ .object rest
  have hfirst := readMember_entry {} he hend
  rw [e.chars_append, readMember_blanks he.spaced.margin] at hfirst
  have hbrace : ¬ '"' = '\x7d' := by decide
  rw [List.map_cons, separated, List.append_assoc, e.chars_append, readObject,
    he.spaced.margin.skipBlanks_append, skipBlanks_of_not_blank (by decide), List.map_cons,
    List.foldlM_cons]
  simp only [if_neg hbrace, hfirst]
  cases Draft.take {} e.member with
  | error => rfl
  | ok d =>
    show readMembers d _ = _
    rw [readMembers_blanks he.spaced.item.after, readMembers_entries hentries]
    rfl

theorem readObject_empty (hws : Blanks ws) (rest : List Char) :
    readObject (ws ++ '\x7d' :: rest) = .error .mismatch := by
  rw [readObject, hws.skipBlanks_append, skipBlanks_of_not_blank (by decide)]
  rfl

theorem readDocument_brace (hws : Blanks ws) (cs : List Char) :
    readDocument (ws ++ '\x7b' :: cs) = readObject cs := by
  have hlexeme : readLexeme (ws ++ '\x7b' :: cs) = .ok (.openObject, cs) := by
    rw [readLexeme_blanks hws]
    rfl
  rw [readDocument, hlexeme]

/-- Only blanks stand behind a document. -/
theorem parse_of_readDocument {text : String} {x : Except Problem Document} (hws : Blanks ws)
    (h : readDocument text.toList = x.map fun document => (document, ws)) :
    Document.parse text = x := by
  rw [Document.parse, h]
  cases x with
  | error => rfl
  | ok => exact if_pos hws.skipBlanks_eq_nil

end

theorem mem_valuesOf {name : String} {v : Value} {ms : List (String × Value)} :
    v ∈ valuesOf name ms ↔ (name, v) ∈ ms := by
  simp [valuesOf]

/-- **An object is read** by taking its members in turn, however it is written. -/
theorem parse_of_isJson_object {ms : List (String × Value)} {text : String}
    (h : IsJson (.object ms) text) (hrange : ∀ m : Member, ∀ v ∈ valuesOf m.name ms, v.InRange) :
    Document.parse text = ms.foldlM Draft.take {} >>= Draft.complete := by
  obtain ⟨hchars, hbefore, htext, hafter⟩ := h
  refine parse_of_readDocument hafter ?_
  rw [hchars]
  cases htext with
  | emptyObject hws =>
    rw [List.cons_append, readDocument_brace hbefore, List.append_assoc]
    exact readObject_empty hws _
  | @object entries hne hspaced htext =>
    have hentries (e : Json.Entry) (he : e ∈ entries) : Readable e := by
      refine ⟨hspaced e he, htext e he, ?_⟩
      rintro m hm
      refine hrange m _ (mem_valuesOf.2 ?_)
      rw [← hm]
      exact List.mem_map_of_mem he
    rw [List.cons_append, readDocument_brace hbefore, List.append_assoc]
    exact readObject_entries hne hentries _

end OtaPack.Transfer
