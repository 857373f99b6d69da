/-
  All texts of a document are read alike.

  * `readFirstLead_item`, `readNextLead_item`: up to a value in an array;
  * `parse_of_isJson_array`: a document is read from the array of its three values;
  * `document_texts`: from every object with its members, from the array and from the text that is
    written for it; an object that has a member not once is refused.
-/
import OtaPack.Proofs.Transfer.RoundTrip

namespace OtaPack.Transfer

open Json

/-! ## Arrays -/

section
variable {i : Item} {ws rest : List Char} {v v' : Value} {text : String} {d : Document}

theorem skipBlanks_item (hi : i.Spaced) (htext : IsText i.value i.text) (rest : List Char) :
    ∃ c cs, skipBlanks (i.chars ++ rest) = c :: cs ∧ c ≠ ']' ∧
      i.text ++ (i.after ++ rest) = c :: cs := by
  obtain ⟨c, cs, hcs, hblank, hclosing⟩ := htext.exists_cons
  refine ⟨c, cs ++ (i.after ++ rest), ?_, hclosing .array, ?_⟩
  · rw [i.chars_append, hi.before.skipBlanks_append, hcs, List.cons_append,
      skipBlanks_of_not_blank hblank]
  · rw [hcs, List.cons_append]

theorem readFirstLead_item (hi : i.Spaced) (htext : IsText i.value i.text) (rest : List Char) :
    readFirstLead (i.chars ++ rest) = .ok (i.text ++ (i.after ++ rest)) := by
  obtain ⟨c, cs, hskip, hc, hcs⟩ := skipBlanks_item hi htext rest
  rw [readFirstLead, hskip, hcs]
  exact if_neg hc

theorem readNextLead_item (hws : Blanks ws) (hi : i.Spaced) (htext : IsText i.value i.text)
    (rest : List Char) :
    readNextLead (ws ++ ',' :: (i.chars ++ rest)) = .ok (i.text ++ (i.after ++ rest)) := by
  obtain ⟨c, cs, hskip, hc, hcs⟩ := skipBlanks_item hi htext rest
  have hcomma : ¬ ',' = ']' := by decide
  rw [readNextLead, hws.skipBlanks_append, skipBlanks_of_not_blank (by decide), hcs]
  simp only [if_neg hcomma, ↓reduceIte, hskip]
  exact if_neg hc

theorem readArrayEnd_bracket (hws : Blanks ws) (rest : List Char) :
    readArrayEnd (ws ++ ']' :: rest) = .ok rest := by
  rw [readArrayEnd, hws.skipBlanks_append, skipBlanks_of_not_blank (by decide)]
  rfl

theorem readDocument_bracket (hws : Blanks ws) (cs : List Char) :
    readDocument (ws ++ '[' :: cs) = readArray cs := by
  have hlexeme : readLexeme (ws ++ '[' :: cs) = .ok (.openArray, cs) := by
    rw [readLexeme_blanks hws]
    rfl
  rw [readDocument, hlexeme]

theorem readText_item (hi : i.Spaced) (htext : IsText i.value i.text) {s : String}
    (hs : i.value = .text s) (hrest : EndsNumber rest) :
    readText (i.text ++ (i.after ++ rest)) = .ok (s, i.after ++ rest) := by
  have hrange : i.value.InRange := by
    rintro n hn
    rw [hs] at hn
    cases hn
  have hread := readText_of_isText blanks_nil htext hrange (hi.after.endsNumber hrest)
  rw [text?_eq_some_iff.2 hs] at hread
  exact hread

theorem readWord32_item (hi : i.Spaced) (htext : IsText i.value i.text) {w : UInt32}
    (hw : IsWord w i.value) (hrest : EndsNumber rest) :
    readWord32 (i.text ++ (i.after ++ rest)) = .ok (w, i.after ++ rest) := by
  have hread := readWord32_of_isText blanks_nil htext hw.inRange (hi.after.endsNumber hrest)
  rw [word32?_eq_some_iff.2 hw] at hread
  exact hread

/-- Three values of the right types are read one after the other. -/
theorem readArray_items {i j k : Item} (hspaced : ∀ l ∈ [i, j, k], l.Spaced)
    (htext : ∀ l ∈ [i, j, k], IsText l.value l.text) (hi : i.value = .text d.binary)
    (hj : IsWord d.chunkSize j.value) (hk : IsWord d.delay k.value) (rest : List Char) :
    readArray (separated ([i, j, k].map Item.chars) ++ ']' :: rest) = .ok (d, rest) := by
  simp only [List.forall_mem_cons] at hspaced htext
  obtain ⟨hispaced, hjspaced, hkspaced, -⟩ := hspaced
  obtain ⟨hitext, hjtext, hktext, -⟩ := htext
  have hsplit : separated ([i, j, k].map Item.chars) ++ ']' :: rest =
      i.chars ++ ',' :: (j.chars ++ ',' :: (k.chars ++ ']' :: rest)) := by
    simp only [separated, commas, List.map_cons, List.map_nil, List.flatMap_cons,
      List.flatMap_nil, List.append_assoc, List.cons_append, List.append_nil]
  have hcomma (cs : List Char) : EndsNumber (',' :: cs) := endsNumber_of_not_digit (by decide) cs
  have hbracket : EndsNumber (']' :: rest) := endsNumber_of_not_digit (by decide) rest
  rw [hsplit, readArray]
  simp only [readFirstLead_item hispaced hitext, ok_bind,
    readText_item hispaced hitext hi (hcomma _),
    readNextLead_item hispaced.after hjspaced hjtext,
    readWord32_item hjspaced hjtext hj (hcomma _),
    readNextLead_item hjspaced.after hkspaced hktext,
    readWord32_item hkspaced hktext hk hbracket, readArrayEnd_bracket hkspaced.after]
  rfl

/-- A document is read from the array of its values. -/
theorem parse_of_isJson_array (h : IsJson (.array [.text d.binary, v, v']) text)
    (hv : IsWord d.chunkSize v) (hv' : IsWord d.delay v') : Document.parse text = .ok d := by
  obtain ⟨hchars, hbefore, htext, hafter⟩ := h
  refine parse_of_readDocument hafter ?_
  rw [hchars]
  generalize hvs : [Value.text d.binary, v, v'] = vs at htext
  cases htext with
  | emptyArray => cases hvs
  | @array items _ hspaced htext =>
    obtain ⟨i, _, rfl, hi, hvs₁⟩ := List.map_eq_cons_iff.1 hvs.symm
    obtain ⟨j, _, rfl, rfl, hvs₂⟩ := List.map_eq_cons_iff.1 hvs₁
    obtain ⟨k, _, rfl, rfl, hvs₃⟩ := List.map_eq_cons_iff.1 hvs₂
    obtain rfl := List.map_eq_nil_iff.1 hvs₃
    rw [List.cons_append, readDocument_bracket hbefore, List.append_assoc]
    exact readArray_items hspaced htext hi hv hv' _

end

/-! ## Documents -/

/-- **All texts of a document are read alike**: every object that has its members, each once, in any
    order and among any others, the array of its values, and the text that is written for it.  An
    object in which a member is missing or comes twice is refused. -/
theorem document_texts :
    (∀ d : Document,
      (∀ (ms : List (String × Value)) (text : String), Describes ms d →
        IsJson (.object ms) text → Document.parse text = .ok d) ∧
      (∀ (v v' : Value) (text : String), IsWord d.chunkSize v → IsWord d.delay v' →
        IsJson (.array [.text d.binary, v, v']) text → Document.parse text = .ok d) ∧
      Document.parse d.render = .ok d) ∧
    ∀ (ms : List (String × Value)) (text : String), IsJson (.object ms) text →
      (∀ m : Member, ∀ v ∈ valuesOf m.name ms, v.InRange) →
      (∃ m : Member, (valuesOf m.name ms).length ≠ 1) → Document.parse text = .error .mismatch := by
  refine ⟨fun d => ⟨?_, ?_, parse_render d⟩, ?_⟩
  · intro ms text hms htext
    exact parse_of_describes htext hms
  · intro v v' text hv hv' htext
    exact parse_of_isJson_array htext hv hv'
  · rintro ms text htext hrange ⟨m, hm⟩
    exact parse_of_not_describes htext hrange fun d hms => hm (hms.length_valuesOf m)

/-- A member of another name with values inside its value, an escape, and a member that comes
    twice. -/
theorem document_texts_nested :
    Document.parse ("\x7b\"x\":[\x7b\x7d, -1e999],\"delay\":7,\"binary\":\"\\u0041\"," ++
        "\"chunk_size\":256\x7d") = .ok ⟨"A", 256, 7⟩ ∧
      Document.parse "[\"\\u0041\",256,7]" = .ok ⟨"A", 256, 7⟩ ∧
      Document.parse "\x7b\"delay\":7,\"delay\":7\x7d" = .error .mismatch := by
  have hunit : IsUnit 'A'.toNat ['u', '0', '0', '4', '1'] :=
    @IsUnit.intro 0 0 4 1 '0' '0' '4' '1' ⟨by decide, .inl rfl⟩ ⟨by decide, .inl rfl⟩
      ⟨by decide, .inl rfl⟩ ⟨by decide, .inl rfl⟩
  have hspells : Spells "A".toList (['\\', 'u', '0', '0', '4', '1'] ++ []) :=
    .cons (.unit hunit) .nil
  have hA : IsText (.text "A") "\"\\u0041\"".toList := .text hspells
  have h7 : IsText (.number (.ofWhole [7])) ['7'] := isText_wordValue 7
  have h256 : IsText (.number (.ofWhole [2, 5, 6])) ['2', '5', '6'] := isText_wordValue 256
  have hlarge : IsText (.number ⟨true, [1], none, some 999⟩) "-1e999".toList :=
    .number (@IsNumeral.intro true none (some 999) ['1'] [] ['e', '9', '9', '9']
      ⟨⟨by decide, by simp⟩, by decide⟩ .absent
      (@IsExponent.present 'e' 1 [] ['9', '9', '9'] (.inl rfl) .absent ⟨by decide, by simp⟩))
  have hx : IsText (.array [.object [], .number ⟨true, [1], none, some 999⟩])
      "[\x7b\x7d, -1e999]".toList := by
    refine @IsText.array [⟨[], .object [], "\x7b\x7d".toList, []⟩,
      ⟨[' '], .number ⟨true, [1], none, some 999⟩, "-1e999".toList, []⟩] (by simp) ?_ ?_
    · simp only [List.forall_mem_cons]
      exact ⟨⟨by decide, by decide⟩, ⟨by decide, by decide⟩, by simp⟩
    · simp only [List.forall_mem_cons]
      exact ⟨@IsText.emptyObject [] blanks_nil, hlarge, by simp⟩
  have hobject : IsText (.object [("x", .array [.object [], .number ⟨true, [1], none, some 999⟩]),
      ("delay", .number (.ofWhole [7])), ("binary", .text "A"),
      ("chunk_size", .number (.ofWhole [2, 5, 6]))])
      ("\x7b\"x\":[\x7b\x7d, -1e999],\"delay\":7,\"binary\":\"\\u0041\"," ++
        "\"chunk_size\":256\x7d").toList := by
    refine @IsText.object [writtenEntry "x"
        (.array [.object [], .number ⟨true, [1], none, some 999⟩]) "[\x7b\x7d, -1e999]".toList,
      writtenEntry "delay" (.number (.ofWhole [7])) ['7'],
      writtenEntry "binary" (.text "A") "\"\\u0041\"".toList,
      writtenEntry "chunk_size" (.number (.ofWhole [2, 5, 6])) ['2', '5', '6']] (by simp) ?_ ?_
    · simp only [List.forall_mem_cons]
      exact ⟨spaced_writtenEntry (by decide) _ _, spaced_writtenEntry (by decide) _ _,
        spaced_writtenEntry (by decide) _ _, spaced_writtenEntry (by decide) _ _, by simp⟩
    · simp only [List.forall_mem_cons]
      exact ⟨hx, h7, hA, h256, by simp⟩
  have harray : IsText (.array [.text "A", .number (.ofWhole [2, 5, 6]), .number (.ofWhole [7])])
      "[\"\\u0041\",256,7]".toList := by
    refine @IsText.array [⟨[], .text "A", "\"\\u0041\"".toList, []⟩,
      ⟨[], .number (.ofWhole [2, 5, 6]), ['2', '5', '6'], []⟩,
      ⟨[], .number (.ofWhole [7]), ['7'], []⟩] (by simp) ?_ ?_
    · simp only [List.forall_mem_cons]
      exact ⟨⟨by decide, by decide⟩, ⟨by decide, by decide⟩, ⟨by decide, by decide⟩, by simp⟩
    · simp only [List.forall_mem_cons]
      exact ⟨hA, h256, h7, by simp⟩
  have htwice : IsText (.object [("delay", .number (.ofWhole [7])),
      ("delay", .number (.ofWhole [7]))]) "\x7b\"delay\":7,\"delay\":7\x7d".toList := by
    refine @IsText.object [writtenEntry "delay" (.number (.ofWhole [7])) ['7'],
      writtenEntry "delay" (.number (.ofWhole [7])) ['7']] (by simp) ?_ ?_
    · simp only [List.forall_mem_cons]
      exact ⟨spaced_writtenEntry (by decide) _ _, spaced_writtenEntry (by decide) _ _, by simp⟩
    · simp only [List.forall_mem_cons]
      exact ⟨h7, h7, by simp⟩
  refine ⟨?_, ?_, ?_⟩
  · refine (document_texts.1 ⟨"A", 256, 7⟩).1 _ _ ⟨?_, ?_, ?_⟩
      (.intro rfl blanks_nil hobject blanks_nil)
    · simp [valuesOf]
    · exact ⟨_, @IsWord.intro 256 [2, 5, 6] rfl, by simp [valuesOf]⟩
    · exact ⟨_, @IsWord.intro 7 [7] rfl, by simp [valuesOf]⟩
  · exact (document_texts.1 ⟨"A", 256, 7⟩).2.1 _ _ _ (.intro rfl) (.intro rfl)
      (.intro rfl blanks_nil harray blanks_nil)
  · have h7 := (@IsWord.intro 7 [7] rfl).inRange
    refine document_texts.2 _ _ (.intro rfl blanks_nil htwice blanks_nil) ?_ ⟨.delay, ?_⟩
    · rintro m v hv
      obtain ⟨-, rfl⟩ : m.name = "delay" ∧ v = .number (.ofWhole [7]) := by
        simpa [mem_valuesOf] using hv
      exact h7
    · simp [valuesOf, Member.name]

end OtaPack.Transfer
