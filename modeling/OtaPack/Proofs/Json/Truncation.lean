/-
  Texts that are cut off.

  * `CutOff part cs`: the text `cs` goes on behind its front `part`;
  * `EndsEarly f cs`: the reader `f` reports the end of the text wherever `cs` is cut off;
    `EndsEarly.append`: a text may be cut off in its first part or behind it; `EndsEarly.blanks`:
    blanks in front have no meaning;
  * `endsEarly_readQuoted`: a string does not end before its closing quote, not within an escape
    either;
  * `exists_readWord32_of_cutOff`: a word that is cut off may be a shorter word, but nothing is left
    behind it then.
-/
import OtaPack.Proofs.Json.Typed

namespace OtaPack.Json

/-! ## Cuts -/

/-- The text `cs` goes on behind its front `part`. -/
def CutOff (part cs : List Char) : Prop :=
  ∃ c more, cs = part ++ c :: more

section
variable {part as bs cs : List Char} {c : Char}

theorem not_cutOff_nil : ¬ CutOff part [] := by
  rintro ⟨c, more, h⟩
  exact List.append_ne_nil_of_right_ne_nil part (List.cons_ne_nil c more) h.symm

theorem cutOff_cons :
    CutOff part (c :: cs) ↔ part = [] ∨ ∃ rest, part = c :: rest ∧ CutOff rest cs := by
  constructor
  · rintro ⟨d, more, h⟩
    cases part with
    | nil => exact .inl rfl
    | cons e rest =>
      obtain ⟨rfl, hcs⟩ := List.cons.inj h
      exact .inr ⟨rest, rfl, d, more, hcs⟩
  · rintro (rfl | ⟨rest, rfl, d, more, rfl⟩)
    · exact ⟨c, cs, rfl⟩
    · exact ⟨d, more, rfl⟩

/-- A text is cut off in its first part or behind it. -/
theorem cutOff_append :
    CutOff part (as ++ bs) ↔ CutOff part as ∨ ∃ rest, part = as ++ rest ∧ CutOff rest bs := by
  induction as generalizing part with
  | nil => simp [not_cutOff_nil]
  | cons a as ih =>
    rw [List.cons_append, cutOff_cons, cutOff_cons]
    simp only [ih]
    constructor
    · rintro (hnil | ⟨rest, rfl, hrest | ⟨rest', rfl, hrest⟩⟩)
      · exact .inl (.inl hnil)
      · exact .inl (.inr ⟨rest, rfl, hrest⟩)
      · exact .inr ⟨rest', rfl, hrest⟩
    · rintro ((hnil | ⟨rest, rfl, hrest⟩) | ⟨rest, rfl, hrest⟩)
      · exact .inl hnil
      · exact .inr ⟨rest, rfl, .inl hrest⟩
      · exact .inr ⟨as ++ rest, rfl, .inr ⟨rest, rfl, hrest⟩⟩

theorem CutOff.mem (h : CutOff part cs) : ∀ c ∈ part, c ∈ cs := by
  obtain ⟨d, more, rfl⟩ := h
  exact fun c hc => List.mem_append_left _ hc

theorem CutOff.length_lt (h : CutOff part cs) : part.length < cs.length := by
  obtain ⟨d, more, rfl⟩ := h
  rw [List.length_append, List.length_cons]
  omega

/-- What ends a number ends it when it is cut off. -/
theorem CutOff.endsNumber (h : CutOff part cs) (hend : EndsNumber cs) : EndsNumber part := by
  obtain ⟨d, more, rfl⟩ := h
  cases part with
  | nil => nofun
  | cons c part => exact hend

end

/-! ## Readers -/

section
variable {α : Type} {f g : List Char → Except Problem α} {as bs cs ws : List Char}

/-- The end of the text is reported wherever it is cut off. -/
def EndsEarly (f : List Char → Except Problem α) (cs : List Char) : Prop :=
  ∀ part, CutOff part cs → f part = .error .endOfText

/-- When the first part of a text has been read, the rest is read as `g` does. -/
theorem EndsEarly.append (has : EndsEarly f as)
    (hf : ∀ part, CutOff part bs → f (as ++ part) = g part) (hbs : EndsEarly g bs) :
    EndsEarly f (as ++ bs) := by
  intro part hpart
  rcases cutOff_append.1 hpart with hpart | ⟨rest, rfl, hrest⟩
  · exact has part hpart
  · rw [hf rest hrest, hbs rest hrest]

theorem EndsEarly.cons {c : Char} (hnil : f [] = .error .endOfText)
    (hf : ∀ part, f (c :: part) = g part) (hcs : EndsEarly g cs) : EndsEarly f (c :: cs) := by
  intro part hpart
  rcases cutOff_cons.1 hpart with rfl | ⟨rest, rfl, hrest⟩
  · exact hnil
  · rw [hf, hcs rest hrest]

theorem endsEarly_nil : EndsEarly f [] :=
  fun _ hpart => absurd hpart not_cutOff_nil

theorem endsEarly_singleton {c : Char} (hnil : f [] = .error .endOfText) : EndsEarly f [c] :=
  .cons hnil (fun _ => rfl) (g := fun part => f (c :: part)) endsEarly_nil

/-- Blanks in front have no meaning. -/
theorem EndsEarly.blanks (hnil : f [] = .error .endOfText)
    (hf : ∀ {ws}, Blanks ws → ∀ cs, f (ws ++ cs) = f cs) (hws : Blanks ws) (h : EndsEarly f cs) :
    EndsEarly f (ws ++ cs) := by
  refine .append (fun part hpart => ?_) (fun part _ => hf hws part) h
  have hblanks : Blanks part := fun c hc => hws c (hpart.mem c hc)
  rw [← List.append_nil part, hf hblanks, hnil]

end

/-! ## Strings -/

section
variable {c : Char} {u v : Nat} {s cs part : List Char}

theorem IsHexDigit.utf8Size_eq (h : IsHexDigit v c) : c.utf8Size = 1 := by
  have hdigits : ∀ v < 16,
      (Nat.digitChar v).utf8Size = 1 ∧ (Nat.digitChar v).toUpper.utf8Size = 1 := by
    decide
  rcases h with ⟨hlt, rfl | rfl⟩
  · exact (hdigits v hlt).1
  · exact (hdigits v hlt).2

theorem utf8ByteSize_eq_length (h : ∀ c ∈ cs, c.utf8Size = 1) :
    (String.ofList cs).utf8ByteSize = cs.length := by
  induction cs with
  | nil => rfl
  | cons c cs ih =>
    obtain ⟨hc, hcs⟩ := List.forall_mem_cons.1 h
    rw [String.ofList_cons, String.utf8ByteSize_append, String.utf8ByteSize_singleton, hc, ih hcs,
      List.length_cons, Nat.add_comm]

theorem IsUnit.exists_endsEarly (h : IsUnit u cs) :
    ∃ ds, cs = 'u' :: ds ∧ EndsEarly readUnit ds := by
  obtain @⟨i, j, k, l, p, q, r, t, hp, hq, hr, ht⟩ := h
  refine ⟨_, rfl, fun part hpart => ?_⟩
  have hone (c : Char) (hc : c ∈ part) : c.utf8Size = 1 := by
    have hmem := hpart.mem c hc
    simp only [List.mem_cons, List.not_mem_nil, or_false] at hmem
    rcases hmem with rfl | rfl | rfl | rfl
    · exact hp.utf8Size_eq
    · exact hq.utf8Size_eq
    · exact hr.utf8Size_eq
    · exact ht.utf8Size_eq
  have hshort : part.length < 4 := hpart.length_lt
  unfold readUnit
  split
  · rw [List.length_cons, List.length_cons, List.length_cons, List.length_cons] at hshort
    omega
  · -- Digits have one byte each, so fewer than four bytes are left.
    rw [utf8ByteSize_eq_length hone, if_pos hshort]

theorem IsUnit.endsEarly (h : IsUnit u cs) : EndsEarly Json.readEscape cs := by
  obtain ⟨ds, rfl, hds⟩ := h.exists_endsEarly
  refine EndsEarly.cons (g := readUnits) rfl (fun _ => rfl) fun part hpart => ?_
  rw [readUnits, hds part hpart]
  rfl

/-- The rest of a pair of surrogates, behind the first one. -/
theorem readEscape_high {high : List Char} (hhigh : IsUnit u high)
    (hnotLow : isLowSurrogate u = false) (hisHigh : isHighSurrogate u = true) (rest : List Char) :
    readEscape (high ++ rest) = (expectWord ['\\', 'u'] rest >>= fun cs =>
      readUnit cs >>= fun (low, cs) =>
        if isLowSurrogate low then .ok (ofSurrogates u low, cs) else .error .malformed) := by
  obtain ⟨hs, rfl, hread⟩ := hhigh.exists_readUnit
  rw [List.cons_append, readEscape, if_pos rfl, readUnits, hread, ok_bind]
  simp only [hnotLow, hisHigh, Bool.false_eq_true, ↓reduceIte]
  rfl

theorem endsEarly_pair {high low : List Char} (hc : 0x10000 ≤ c.toNat)
    (hu : u = 0xD800 + (c.toNat - 0x10000) / 0x400)
    (hv : v = 0xDC00 + (c.toNat - 0x10000) % 0x400)
    (hhigh : IsUnit u high) (hlow : IsUnit v low) : EndsEarly readEscape (high ++ '\\' :: low) := by
  obtain ⟨hnotLow, hisHigh, -, -⟩ := surrogates hc hu hv
  obtain ⟨ls, rfl, hreadLow⟩ := hlow.exists_endsEarly
  refine hhigh.endsEarly.append (fun part _ => readEscape_high hhigh hnotLow hisHigh part) ?_
  intro part hpart
  rcases cutOff_cons.1 hpart with rfl | ⟨rest, rfl, hrest⟩
  · rfl
  rcases cutOff_cons.1 hrest with rfl | ⟨ds, rfl, hds⟩
  · rfl
  have hexpect : expectWord ['\\', 'u'] ('\\' :: 'u' :: ds) = .ok ds := rfl
  dsimp only
  rw [hexpect, ok_bind, hreadLow ds hds]
  rfl

theorem readQuotedOnto_endsEarly (h : Json.readEscape part = .error .endOfText) (acc : List Char) :
    readQuotedOnto ('\\' :: part) acc = .error .endOfText := by
  rw [readQuotedOnto, if_neg (by decide), if_pos rfl]
  split <;> rename_i h' <;> rw [h] at h' <;> cases h'
  rfl

/-- A character does not end within an escape. -/
theorem SpellsChar.endsEarly (h : SpellsChar c cs) (acc : List Char) :
    EndsEarly (fun cs => Json.readQuotedOnto cs acc) cs := by
  have hnil : Json.readQuotedOnto [] acc = .error .endOfText := by rw [Json.readQuotedOnto]
  have hescape {cs : List Char} (hcs : EndsEarly readEscape cs) :
      EndsEarly (fun cs => Json.readQuotedOnto cs acc) ('\\' :: cs) := by
    intro part hpart
    rcases cutOff_cons.1 hpart with rfl | ⟨rest, rfl, hrest⟩
    · exact hnil
    · exact readQuotedOnto_endsEarly (hcs rest hrest) acc
  cases h with
  | plain => exact endsEarly_singleton hnil
  | letter hl => exact hescape (endsEarly_singleton rfl)
  | unit hu => exact hescape hu.endsEarly
  | pair hc hhigh hlow => exact hescape (endsEarly_pair hc rfl rfl hhigh hlow)

/-- **A string does not end** before its closing quote. -/
theorem endsEarly_readQuotedOnto (h : Spells s cs) (acc : List Char) :
    EndsEarly (fun cs => readQuotedOnto cs acc) (cs ++ ['"']) := by
  induction h generalizing acc with
  | nil => exact endsEarly_singleton (by rw [readQuotedOnto])
  | cons hc _ ih =>
    rw [List.append_assoc]
    exact (hc.endsEarly acc).append (fun part _ => hc.readQuotedOnto part acc) (ih _)

theorem endsEarly_readQuoted (h : Spells s cs) : EndsEarly readQuoted (cs ++ ['"']) :=
  endsEarly_readQuotedOnto h []

end

/-! ## Values -/

section
variable {s : String} {w : UInt32} {v : Value} {cs part : List Char}

theorem endsEarly_readText (h : IsText (.text s) cs) : EndsEarly readText cs := by
  cases h with
  | text hs =>
    intro part hpart
    rcases cutOff_cons.1 hpart with rfl | ⟨rest, rfl, hrest⟩
    · rfl
    · have hlexeme : readLexeme ('"' :: rest) = .error .endOfText := by
        rw [readLexeme, skipBlanks_of_not_blank (by decide)]
        show (readQuoted rest).map _ = _
        rw [endsEarly_readQuoted hs rest hrest]
        rfl
      rw [readText, hlexeme]

/-- The text of a word is its digits. -/
theorem IsWord.isWhole (hv : IsWord w v) (h : IsText v cs) :
    IsWhole cs ∧ Numeral.ofDigits (digitValues cs) = w.toNat := by
  obtain @⟨ds, hvalue⟩ := hv
  cases h with
  | number hn =>
    generalize hnumeral : Numeral.ofWhole ds = n at hn
    obtain ⟨hwhole, hfraction, hexponent⟩ := hn
    cases hnumeral
    cases hfraction
    cases hexponent
    simp only [Bool.false_eq_true, ↓reduceIte, List.nil_append, List.append_nil]
    exact ⟨hwhole, hvalue⟩

theorem readWord32_of_isWhole (h : IsWhole cs)
    (hlt : Numeral.ofDigits (digitValues cs) < UInt32.size) :
    readWord32 cs = .ok (UInt32.ofNat (Numeral.ofDigits (digitValues cs)), []) := by
  have hvalue : Numeral.ofDigits (digitValues cs) =
      (UInt32.ofNat (Numeral.ofDigits (digitValues cs))).toNat :=
    (UInt32.toNat_ofNat_of_lt' hlt).symm
  have hend : EndsNumber [] := nofun
  have hlexeme := readLexeme_of_isNumeral h.isNumeral hend
  rw [List.append_nil, if_neg (not_tooLarge_ofWhole hlt)] at hlexeme
  rw [readWord32, hlexeme]
  dsimp only
  rw [word32?_ofWhole hvalue]

/-- The front of digits is such digits, and has no greater value. -/
theorem CutOff.isWhole (hpart : CutOff part cs) (h : IsWhole cs) (hne : part ≠ []) :
    IsWhole part ∧
      Numeral.ofDigits (digitValues part) ≤ Numeral.ofDigits (digitValues cs) := by
  refine ⟨⟨⟨hne, fun c hc => h.isDigit c (hpart.mem c hc)⟩, fun hzero => ?_⟩, ?_⟩
  · have hzero' : cs.head? = some '0' := by
      obtain ⟨c, more, rfl⟩ := hpart
      obtain ⟨d, part, rfl⟩ := List.exists_cons_of_ne_nil hne
      exact hzero
    have hlt := hpart.length_lt
    rw [h.eq_zero hzero'] at hlt
    exact absurd (List.length_eq_zero_iff.1 (Nat.lt_one_iff.1 hlt)) hne
  · obtain ⟨c, more, rfl⟩ := hpart
    rw [digitValues, digitValues, List.map_append, Numeral.ofDigits, Numeral.ofDigits,
      List.foldl_append]
    exact le_foldl_digits _ _

/-- A word that is cut off is a shorter word, if anything is left of it. -/
theorem exists_readWord32_of_cutOff (hv : IsWord w v) (h : IsText v cs) (hpart : CutOff part cs) :
    readWord32 part = .error .endOfText ∨ ∃ w', readWord32 part = .ok (w', []) := by
  by_cases hne : part = []
  · rw [hne]
    exact .inl rfl
  · obtain ⟨hwhole, hvalue⟩ := hv.isWhole h
    obtain ⟨hwhole', hle⟩ := hpart.isWhole hwhole hne
    rw [hvalue] at hle
    exact .inr ⟨_, readWord32_of_isWhole hwhole' (Nat.lt_of_le_of_lt hle w.toNat_lt)⟩

end

end OtaPack.Json
