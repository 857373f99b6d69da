/-
  Documents that are cut off.

  * `endsEarly_member`: a member does not end before what follows it;
  * `endsEarly_members`, `endsEarly_document`: nor do all members, nor the object of them;
  * `document_cut_off`: so a document that is cut off is never read, in whatever way it is written.
-/
import OtaPack.Proofs.Json.Truncation
import OtaPack.Proofs.Transfer.RoundTrip

namespace OtaPack.Transfer

open Json

/-! ## Members -/

/-- What has been read, and all members behind it. -/
def andMembers (x : Except Problem (Draft × List Char)) : Except Problem (Document × List Char) :=
  x >>= fun (d, rest) => readMembers d rest

section
variable {d d' : Draft} {m : Member} {v : Value} {e : Json.Entry} {entries : List Json.Entry}
  {cs ws tail part : List Char}

theorem readMembers_nil (d : Draft) : readMembers d [] = .error .endOfText := by
  rw [readMembers_step]
  rfl

/-- A member is a string or a word. -/
theorem text_or_word_of_put (h : d.put m v = .ok d') :
    (m = .binary ∧ ∃ s, v = .text s) ∨ (m ≠ .binary ∧ ∃ w, IsWord w v) := by
  cases m with
  | binary =>
    obtain ⟨s, hs, -⟩ := map_orMismatch_eq_ok_iff.1 h
    exact .inl ⟨rfl, s, text?_eq_some_iff.1 hs⟩
  | chunkSize | delay =>
    obtain ⟨w, hw, -⟩ := map_orMismatch_eq_ok_iff.1 h
    exact .inr ⟨by decide, w, word32?_eq_some_iff.1 hw⟩

theorem inRange_of_put (h : d.put m v = .ok d') : v.InRange := by
  rcases text_or_word_of_put h with ⟨-, s, rfl⟩ | ⟨-, w, hw⟩
  · rintro n ⟨⟩
  · exact hw.inRange

/-- Nothing is left behind the value of a member that is cut off. -/
theorem readValue_of_cutOff (hput : d.put m v = .ok d') (h : IsText v cs)
    (hpart : CutOff part cs) :
    d.readValue m part = .error .endOfText ∨ ∃ d'', d.readValue m part = .ok (d'', []) := by
  rcases text_or_word_of_put hput with ⟨rfl, s, rfl⟩ | ⟨hm, w, hw⟩
  · refine .inl ?_
    rw [Draft.readValue, endsEarly_readText h part hpart]
    rfl
  · cases m with
    | binary => exact absurd rfl hm
    | chunkSize | delay =>
      rw [Draft.readValue]
      rcases exists_readWord32_of_cutOff hw h hpart with hread | ⟨w', hread⟩
      · rw [hread]
        exact .inl rfl
      · rw [hread]
        exact .inr ⟨_, rfl⟩

theorem readValue_blanks (hws : Blanks ws) (d : Draft) (m : Member) (cs : List Char) :
    d.readValue m (ws ++ cs) = d.readValue m cs := by
  cases m <;> simp only [Draft.readValue, readText, readWord32, readLexeme_blanks hws]

/-- A value does not end before what follows it, and the blanks around it. -/
theorem endsEarly_value (hput : d.put m v = .ok d') (h : IsText v cs) (hend : EndsNumber tail)
    (htail : EndsEarly (readMembers d') tail) :
    EndsEarly (fun cs => andMembers (d.readValue m cs)) (cs ++ tail) := by
  refine .append (fun part hpart => ?_) (fun part hpart => ?_) htail
  · rcases readValue_of_cutOff hput h hpart with hread | ⟨d'', hread⟩
    · rw [hread]
      rfl
    · rw [hread]
      exact readMembers_nil d''
  · have hread := readValue_of_isText d m blanks_nil h (inRange_of_put hput) (hpart.endsNumber hend)
    rw [List.nil_append, hput] at hread
    rw [hread]
    rfl

/-- What follows a name does not end before its value. -/
theorem endsEarly_afterName {name : String} (hname : Member.ofName? name = some m)
    (hnew : d.has m = false) (hws : Blanks ws)
    (h : EndsEarly (fun cs => andMembers (d.readValue m cs)) cs) :
    EndsEarly (fun cs => andMembers (d.readAfterName name cs)) (ws ++ ':' :: cs) := by
  have hafter (cs : List Char) : d.readAfterName name cs = readColon cs >>= d.readValue m := by
    rw [Draft.readAfterName, hname]
    dsimp only
    rw [hnew]
    cases readColon cs <;> rfl
  have hcolon {ws : List Char} (hws : Blanks ws) (cs : List Char) :
      readColon (ws ++ cs) = readColon cs := by
    rw [readColon, hws.skipBlanks_append, readColon]
  simp only [hafter]
  exact .blanks rfl (fun hws cs => by rw [hcolon hws]) hws (.cons rfl (fun _ => rfl) h)

/-- A name, and what follows it, does not end before its value. -/
theorem endsEarly_name {s spelling : List Char} (hspells : Spells s spelling)
    (h : EndsEarly (fun cs => andMembers (d.readAfterName (String.ofList s) cs)) cs) :
    EndsEarly (fun cs => andMembers (d.readMember cs)) ('"' :: (spelling ++ '"' :: cs)) := by
  have hquote (cs : List Char) : d.readMember ('"' :: cs) =
      readQuoted cs >>= fun name => d.readAfterName name.1 name.2 := by
    rw [Draft.readMember, skipBlanks_of_not_blank (by decide)]
    dsimp only
    cases readQuoted cs <;> rfl
  have hsplit : spelling ++ '"' :: cs = (spelling ++ ['"']) ++ cs := by
    rw [List.append_assoc]
    rfl
  rw [hsplit]
  refine EndsEarly.cons rfl (fun part => congrArg andMembers (hquote part)) ?_
  refine EndsEarly.append (fun part hpart => ?_) (fun part _ => ?_) h
  · rw [endsEarly_readQuoted hspells part hpart]
    rfl
  · rw [List.append_assoc, List.singleton_append, readQuoted_of_spells hspells]
    rfl

/-- **A member does not end** before what follows it. -/
theorem endsEarly_member (he : Readable e) (hname : e.name = m.name)
    (htake : d.take e.member = .ok d') (hend : EndsNumber tail)
    (htail : EndsEarly (readMembers d') tail) :
    EndsEarly (fun cs => andMembers (d.readMember cs))
      ('"' :: (e.spelling ++ '"' :: (e.gap ++ ':' :: (e.item.chars ++ tail)))) := by
  obtain ⟨hspaced, htext, -⟩ := he
  have hm := Member.ofName?_eq_some_iff.2 hname
  obtain ⟨hnew, hput⟩ : d.has m = false ∧ d.put m e.item.value = .ok d' := by
    rw [Json.Entry.member, Draft.take, hm] at htake
    dsimp only at htake
    split_ifs at htake with hhas
    exact ⟨Bool.eq_false_iff.2 hhas, htake⟩
  have hafter : EndsEarly (readMembers d') (e.item.after ++ tail) :=
    .blanks (readMembers_nil d') (fun hws cs => readMembers_blanks hws d' cs) hspaced.item.after
      htail
  have hvalue := endsEarly_value hput htext (hspaced.item.after.endsNumber hend) hafter
  have hblanks {ws : List Char} (hws : Blanks ws) (cs : List Char) :
      andMembers (d.readValue m (ws ++ cs)) = andMembers (d.readValue m cs) :=
    congrArg andMembers (readValue_blanks hws d m cs)
  have hnil : andMembers (d.readValue m []) = .error .endOfText := by
    cases m <;> rfl
  refine endsEarly_name hspaced.spells ?_
  rw [String.ofList_toList, e.item.chars_append]
  exact endsEarly_afterName hm hnew hspaced.gap (.blanks hnil hblanks hspaced.item.before hvalue)

/-- Members, and the closing brace behind them, do not end before it. -/
theorem endsEarly_members (hentries : ∀ e ∈ entries, Readable e)
    (hnames : ∀ e ∈ entries, ∃ m : Member, e.name = m.name)
    (htake : (entries.map Json.Entry.member).foldlM Draft.take d = .ok d') :
    EndsEarly (readMembers d) (commas (entries.map Json.Entry.chars) ++ ['\x7d']) := by
  induction entries generalizing d with
  | nil => exact endsEarly_singleton (readMembers_nil d)
  | cons e entries ih =>
    obtain ⟨he, hentries⟩ := List.forall_mem_cons.1 hentries
    obtain ⟨⟨m, hname⟩, hnames⟩ := List.forall_mem_cons.1 hnames
    rw [List.map_cons, List.foldlM_cons] at htake
    obtain ⟨d₁, hfirst, htake⟩ := exists_of_bind_eq_ok htake
    have hmember := endsEarly_member he hname hfirst (endsNumber_commas _ .object [])
      (ih hentries hnames htake)
    have hsplit : commas ((e :: entries).map Json.Entry.chars) ++ ['\x7d'] =
        ',' :: (e.chars ++ (commas (entries.map Json.Entry.chars) ++ ['\x7d'])) := by
      rw [List.map_cons, commas, List.flatMap_cons, List.append_assoc]
      rfl
    rw [hsplit, e.chars_append]
    refine .cons (readMembers_nil d) (fun part => readMembers_comma d part) ?_
    exact .blanks rfl (fun hws cs => congrArg andMembers (readMember_blanks hws d cs))
      he.spaced.margin hmember

/-- **A document does not end** before its closing brace. -/
theorem endsEarly_document (hws : Blanks ws) (hne : entries ≠ [])
    (hentries : ∀ e ∈ entries, Readable e)
    (hnames : ∀ e ∈ entries, ∃ m : Member, e.name = m.name)
    (htake : (entries.map Json.Entry.member).foldlM Draft.take {} = .ok d) :
    EndsEarly readDocument
      (ws ++ '\x7b' :: (separated (entries.map Json.Entry.chars) ++ ['\x7d'])) := by
  obtain ⟨e, entries, rfl⟩ := List.exists_cons_of_ne_nil hne
  obtain ⟨he, hentries⟩ := List.forall_mem_cons.1 hentries
  obtain ⟨⟨m, hname⟩, hnames⟩ := List.forall_mem_cons.1 hnames
  rw [List.map_cons, List.foldlM_cons] at htake
  obtain ⟨d₁, hfirst, htake⟩ := exists_of_bind_eq_ok htake
  have hmember := endsEarly_member he hname hfirst (endsNumber_commas _ .object [])
    (endsEarly_members hentries hnames htake)
  have hdocument {ws : List Char} (hws : Blanks ws) (cs : List Char) :
      readDocument (ws ++ cs) = readDocument cs := by
    rw [readDocument, readLexeme_blanks hws, readDocument]
  have hobject {ws : List Char} (hws : Blanks ws) (cs : List Char) :
      readObject (ws ++ cs) = readObject cs := by
    rw [readObject, hws.skipBlanks_append, readObject]
  have hquote (part : List Char) :
      readObject ('"' :: part) = andMembers (Draft.readMember {} ('"' :: part)) := by
    rw [readObject, skipBlanks_of_not_blank (by decide)]
    dsimp only
    rw [if_neg (by decide), andMembers]
    cases Draft.readMember {} ('"' :: part) <;> rfl
  rw [List.map_cons, separated, List.append_assoc, e.chars_append]
  refine .blanks rfl hdocument hws (.cons rfl (fun part => readDocument_brace blanks_nil part) ?_)
  refine .blanks rfl hobject he.spaced.margin fun part hpart => ?_
  rcases cutOff_cons.1 hpart with rfl | ⟨rest, rfl, -⟩
  · rfl
  · rw [hquote]
    exact hmember _ hpart

end

/-! ## Documents -/

section
variable {ms : List (String × Value)} {document : Document} {text : String}
  {ws cs part more : List Char}

/-- An object ends with its closing brace. -/
theorem not_blanks_of_object (h : IsText (.object ms) cs) (hsplit : ws ++ cs = part ++ more)
    (hmore : more ≠ []) : ¬ Blanks more := by
  have hlast : cs.getLast? = some '\x7d' := by
    cases h with
    | emptyObject | object =>
      rw [List.getLast?_cons, List.getLast?_append]
      rfl
  have hend := congrArg List.getLast? hsplit
  rw [List.getLast?_append, List.getLast?_append, hlast,
    List.getLast?_eq_some_getLast hmore] at hend
  have hbrace : '\x7d' ∈ more := Option.some.inj hend ▸ List.getLast_mem hmore
  intro hblanks
  exact absurd (hblanks _ hbrace) (by decide)

/-- An object with the members of a document is cut off, or nothing but blanks is. -/
theorem parse_of_cutOff (hms : Describes ms document)
    (hnames : ∀ member ∈ ms, ∃ m : Member, member.1 = m.name) (hws : Blanks ws)
    (h : IsText (.object ms) cs) (hpart : CutOff part (ws ++ cs)) :
    Document.parse (String.ofList part) = .error .endOfText := by
  have htake := foldlM_take_eq_ok_iff.2 (filled_iff_describes.2 hms)
  suffices hread : readDocument part = .error .endOfText by
    rw [Document.parse, String.toList_ofList, hread]
  cases h with
  | emptyObject => cases htake
  | @object entries hne hspaced htext =>
    have hentries (e : Json.Entry) (he : e ∈ entries) : Readable e := by
      refine ⟨hspaced e he, htext e he, fun m hm => hms.inRange m _ (mem_valuesOf.2 ?_)⟩
      rw [← hm]
      exact List.mem_map_of_mem he
    have hnames' (e : Json.Entry) (he : e ∈ entries) : ∃ m : Member, e.name = m.name :=
      hnames e.member (List.mem_map_of_mem he)
    exact endsEarly_document hws hne hentries hnames' htake part hpart

/-- **The front of a document** is read if nothing but blanks is cut off, and ends too early
    otherwise. -/
theorem parse_of_front (h : IsJson (.object ms) text) (hms : Describes ms document)
    (hnames : ∀ member ∈ ms, ∃ m : Member, member.1 = m.name)
    (hpart : text.toList = part ++ more) :
    Document.parse (String.ofList part) =
      if Blanks more then .ok document else .error .endOfText := by
  obtain @⟨before, cs, after, hchars, hbefore, htext, hafter⟩ := h
  rw [hpart, ← List.append_assoc] at hchars
  have hread {kept : List Char} (hkept : part = before ++ cs ++ kept)
      (hrest : after = kept ++ more) :
      Document.parse (String.ofList part) =
        if Blanks more then .ok document else .error .endOfText := by
    have hafter' := hrest ▸ hafter
    have hblanks : Blanks more := fun c hc => hafter' c (List.mem_append_right _ hc)
    have hblanks' : Blanks kept := fun c hc => hafter' c (List.mem_append_left _ hc)
    rw [if_pos hblanks]
    refine parse_of_describes (.intro ?_ hbefore htext hblanks') hms
    rw [String.toList_ofList, hkept, List.append_assoc]
  rcases List.append_eq_append_iff.1 hchars with ⟨cut, hcut, hmore⟩ | ⟨kept, hkept, hrest⟩
  · cases cut with
    | nil =>
      have hnone : after = [] ++ more := hmore.symm
      exact hread (by rw [hcut, List.append_nil, List.append_nil]) hnone
    | cons c cut =>
      have hnot := not_blanks_of_object htext hcut (List.cons_ne_nil c cut)
      rw [parse_of_cutOff hms hnames hbefore htext ⟨c, cut, hcut⟩, if_neg]
      rw [hmore]
      exact fun hblanks => hnot fun d hd => hblanks d (List.mem_append_left _ hd)
  · exact hread hkept hrest

end

/-- Every document has a name for each of its members. -/
theorem exists_name_of_mem_entries (d : Document) :
    ∀ member ∈ d.entries.map Json.Entry.member, ∃ m : Member, member.1 = m.name := by
  simp only [Document.entries, List.map_cons, List.map_nil, List.forall_mem_cons]
  exact ⟨⟨.binary, rfl⟩, ⟨.chunkSize, rfl⟩, ⟨.delay, rfl⟩, by simp⟩

/-- **A document that is cut off** is never read: its text ends too early then, wherever it is cut
    off, be it within an escape or within a number.  The same holds of every other text of the same
    three members, in any order, with any blanks and escapes, until only blanks are cut off. -/
theorem document_cut_off (d : Document) :
    (∀ n, Document.parse (String.ofList (d.render.toList.take n)) =
      if d.render.length ≤ n then .ok d else .error .endOfText) ∧
    ∀ (ms : List (String × Value)) (text : String) (part more : List Char),
      IsJson (.object ms) text → Describes ms d →
        (∀ member ∈ ms, ∃ m : Member, member.1 = m.name) → text.toList = part ++ more →
          Document.parse (String.ofList part) =
            if Blanks more then .ok d else .error .endOfText := by
  refine ⟨fun n => ?_, fun ms text part more h hms hnames hpart =>
    parse_of_front h hms hnames hpart⟩
  have hsplit : d.render.toList = d.render.toList.take n ++ d.render.toList.drop n :=
    (List.take_append_drop n _).symm
  rw [parse_of_front (isJson_render d) (describes_entries d) (exists_name_of_mem_entries d) hsplit]
  refine if_congr ?_ rfl rfl
  rw [← String.length_toList, ← List.drop_eq_nil_iff]
  constructor
  · intro hblanks
    by_contra hmore
    exact not_blanks_of_object (isText_render d) (List.nil_append _ |>.trans hsplit) hmore hblanks
  · intro hnil
    rw [hnil]
    exact blanks_nil

/-- Members in another order and a blank behind them: cut off within an escape, within a number, and
    behind the brace. -/
theorem document_cut_off_reordered :
    Document.parse "\x7b\"delay\":7,\"binary\":\"\\" = .error .endOfText ∧
      Document.parse "\x7b\"delay\":7,\"binary\":\"\\n\",\"chunk_size\":25" = .error .endOfText ∧
      Document.parse "\x7b\"delay\":7,\"binary\":\"\\n\",\"chunk_size\":256\x7d" =
        .ok ⟨"\n", 256, 7⟩ := by
  have hbinary : IsText (.text "\n") "\"\\n\"".toList := isText_quote "\n"
  have hobject : IsText (.object [("delay", .number (.ofWhole [7])), ("binary", .text "\n"),
      ("chunk_size", .number (.ofWhole [2, 5, 6]))])
      "\x7b\"delay\":7,\"binary\":\"\\n\",\"chunk_size\":256\x7d".toList := by
    refine @IsText.object [writtenEntry "delay" (.number (.ofWhole [7])) ['7'],
      writtenEntry "binary" (.text "\n") "\"\\n\"".toList,
      writtenEntry "chunk_size" (.number (.ofWhole [2, 5, 6])) ['2', '5', '6']] (by simp) ?_ ?_
    · simp only [List.forall_mem_cons]
      exact ⟨spaced_writtenEntry (by decide) _ _, spaced_writtenEntry (by decide) _ _,
        spaced_writtenEntry (by decide) _ _, by simp⟩
    · simp only [List.forall_mem_cons]
      exact ⟨isText_wordValue 7, hbinary, isText_wordValue 256, by simp⟩
  have hblank : Blanks [' '] := by decide
  have hfront (part more : String)
      (hpart : "\x7b\"delay\":7,\"binary\":\"\\n\",\"chunk_size\":256\x7d " = part ++ more) :
      Document.parse part =
        if Blanks more.toList then .ok ⟨"\n", 256, 7⟩ else .error .endOfText := by
    conv_lhs => rw [← String.ofList_toList (s := part)]
    refine (document_cut_off ⟨"\n", 256, 7⟩).2 _ _ _ _ (.intro rfl blanks_nil hobject hblank)
      ⟨?_, ?_, ?_⟩ ?_ ((congrArg String.toList hpart).trans String.toList_append)
    · simp [valuesOf]
    · exact ⟨_, @IsWord.intro 256 [2, 5, 6] rfl, by simp [valuesOf]⟩
    · exact ⟨_, @IsWord.intro 7 [7] rfl, by simp [valuesOf]⟩
    · simp only [List.forall_mem_cons]
      exact ⟨⟨.delay, rfl⟩, ⟨.binary, rfl⟩, ⟨.chunkSize, rfl⟩, by simp⟩
  refine ⟨?_, ?_, ?_⟩
  · exact (hfront _ "n\",\"chunk_size\":256\x7d " rfl).trans (if_neg (by decide))
  · exact (hfront _ "6\x7d " rfl).trans (if_neg (by decide))
  · exact (hfront _ " " rfl).trans (if_pos hblank)

end OtaPack.Transfer
