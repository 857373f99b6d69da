/-
  The texts of strings, and that they are read.

  * `SpellsChar c cs`: between quotes, the characters `cs` are the character `c`: itself, an escape
    of one letter, or its code units in hexadecimal digits;
  * `Spells s cs`: the characters `cs` are the string of the characters `s`, one after the other;
  * `SpellsChar.readQuotedOnto`, `SpellsChar.skipQuoted`: a character is read and passed over;
  * `readQuoted_of_spells`, `skipQuoted_of_spells`: a string is read and passed over, up to its
    closing quote, whatever follows it.
-/
import OtaPack.Json.Quoted
import OtaPack.Outcome

namespace OtaPack.Json

/-! ## Texts -/

/-- The letter of an escape of one letter, and the character that it stands for. -/
inductive IsLetter : Char → Char → Prop
  | quote : IsLetter '"' '"'
  | backslash : IsLetter '\\' '\\'
  | slash : IsLetter '/' '/'
  | backspace : IsLetter 'b' '\x08'
  | formFeed : IsLetter 'f' '\x0c'
  | lineFeed : IsLetter 'n' '\n'
  | carriageReturn : IsLetter 'r' '\r'
  | tab : IsLetter 't' '\t'

/-- A hexadecimal digit, in small or capital letters. -/
def IsHexDigit (v : Nat) (c : Char) : Prop :=
  v < 16 ∧ (c = Nat.digitChar v ∨ c = (Nat.digitChar v).toUpper)

/-- The four digits of a code unit, after their backslash. -/
inductive IsUnit : Nat → List Char → Prop
  | intro {i j k l : Nat} {p q r t : Char} :
      IsHexDigit i p → IsHexDigit j q → IsHexDigit k r → IsHexDigit l t →
      IsUnit (((i * 16 + j) * 16 + k) * 16 + l) ['u', p, q, r, t]

/-- A character as it may stand between quotes.  Above the basic plane it has two code units. -/
inductive SpellsChar (c : Char) : List Char → Prop
  | plain : c ≠ '"' → c ≠ '\\' → ¬ c < ' ' → SpellsChar c [c]
  | letter {l : Char} : IsLetter l c → SpellsChar c ['\\', l]
  | unit {cs : List Char} : IsUnit c.toNat cs → SpellsChar c ('\\' :: cs)
  | pair {high low : List Char} : 0x10000 ≤ c.toNat →
      IsUnit (0xD800 + (c.toNat - 0x10000) / 0x400) high →
      IsUnit (0xDC00 + (c.toNat - 0x10000) % 0x400) low →
      SpellsChar c ('\\' :: (high ++ '\\' :: low))

/-- The characters of a string as they may stand between quotes. -/
inductive Spells : List Char → List Char → Prop
  | nil : Spells [] []
  | cons {c : Char} {s cs ds : List Char} :
      SpellsChar c cs → Spells s ds → Spells (c :: s) (cs ++ ds)

variable {c : Char} {s cs rest : List Char} {u : Nat}

/-! ## Escapes -/

theorem IsLetter.shortEscape? {l : Char} (h : IsLetter l c) : shortEscape? l = some c := by
  cases h <;> rfl

theorem IsLetter.ne_u {l : Char} (h : IsLetter l c) : l ≠ 'u' := by
  cases h <;> decide

theorem IsHexDigit.hexValue? {v : Nat} (h : IsHexDigit v c) : hexValue? c = some v := by
  have hdigits : ∀ v < 16, Json.hexValue? (Nat.digitChar v) = some v ∧
      Json.hexValue? (Nat.digitChar v).toUpper = some v := by
    decide
  rcases h with ⟨hlt, rfl | rfl⟩
  · exact (hdigits v hlt).1
  · exact (hdigits v hlt).2

/-- A code unit is read from its four digits. -/
theorem IsUnit.exists_readUnit (h : IsUnit u cs) :
    ∃ ds, cs = 'u' :: ds ∧ ∀ rest, readUnit (ds ++ rest) = .ok (u, rest) := by
  obtain ⟨hp, hq, hr, ht⟩ := h
  refine ⟨_, rfl, fun rest => ?_⟩
  simp only [List.cons_append, List.nil_append, readUnit, hexUnit?, hp.hexValue?, hq.hexValue?,
    hr.hexValue?, ht.hexValue?]
  rfl

theorem IsUnit.skipEscape (h : IsUnit u cs) (rest : List Char) :
    skipEscape (cs ++ rest) = .ok rest := by
  obtain ⟨ds, rfl, hread⟩ := h.exists_readUnit
  rw [List.cons_append, Json.skipEscape, if_pos rfl, hread]
  rfl

/-- No character is a surrogate. -/
theorem toNat_bounds (c : Char) : c.toNat < 0x110000 ∧ (c.toNat < 0xD800 ∨ 0xDFFF < c.toNat) := by
  have hvalid : c.toNat < 0xD800 ∨ 0xDFFF < c.toNat ∧ c.toNat < 0x110000 := c.valid
  omega

theorem IsUnit.readEscape (h : IsUnit c.toNat cs) (rest : List Char) :
    readEscape (cs ++ rest) = .ok (c, rest) := by
  obtain ⟨ds, rfl, hread⟩ := h.exists_readUnit
  have hbounds := toNat_bounds c
  have hlow : isLowSurrogate c.toNat = false := by
    simp only [isLowSurrogate, decide_eq_false_iff_not]
    omega
  have hhigh : isHighSurrogate c.toNat = false := by
    simp only [isHighSurrogate, decide_eq_false_iff_not]
    omega
  rw [List.cons_append, Json.readEscape, if_pos rfl, readUnits, hread, ok_bind]
  simp only [hlow, hhigh, Bool.false_eq_true, ↓reduceIte, Char.ofNat_toNat]
  rfl

/-- The first and the second code unit of a character above the basic plane. -/
theorem surrogates {u v : Nat} (hc : 0x10000 ≤ c.toNat)
    (hu : u = 0xD800 + (c.toNat - 0x10000) / 0x400)
    (hv : v = 0xDC00 + (c.toNat - 0x10000) % 0x400) :
    isLowSurrogate u = false ∧ isHighSurrogate u = true ∧ isLowSurrogate v = true ∧
      ofSurrogates u v = c := by
  have hbounds := toNat_bounds c
  have hsum : 0x10000 + (u - 0xD800) * 0x400 + (v - 0xDC00) = c.toNat := by
    omega
  simp only [isLowSurrogate, isHighSurrogate, decide_eq_false_iff_not, decide_eq_true_eq]
  refine ⟨by omega, by omega, by omega, ?_⟩
  rw [ofSurrogates, hsum, Char.ofNat_toNat]

/-- A character above the basic plane is read from its two code units. -/
theorem readEscape_pair {u v : Nat} {high low : List Char} (hc : 0x10000 ≤ c.toNat)
    (hu : u = 0xD800 + (c.toNat - 0x10000) / 0x400)
    (hv : v = 0xDC00 + (c.toNat - 0x10000) % 0x400)
    (hhigh : IsUnit u high) (hlow : IsUnit v low) (rest : List Char) :
    readEscape (high ++ '\\' :: (low ++ rest)) = .ok (c, rest) := by
  obtain ⟨hnotLow, hisHigh, hisLow, hchar⟩ := surrogates hc hu hv
  obtain ⟨hs, rfl, hreadHigh⟩ := hhigh.exists_readUnit
  obtain ⟨ls, rfl, hreadLow⟩ := hlow.exists_readUnit
  have hexpect : expectWord ['\\', 'u'] ('\\' :: 'u' :: (ls ++ rest)) = .ok (ls ++ rest) := rfl
  rw [List.cons_append, List.cons_append, readEscape, if_pos rfl, readUnits, hreadHigh, ok_bind]
  simp only [hnotLow, hisHigh, Bool.false_eq_true, ↓reduceIte, hexpect, ok_bind, hreadLow, hisLow,
    hchar]
  rfl

/-! ## Reading -/

theorem readQuotedOnto_escape (h : readEscape cs = .ok (c, rest)) (acc : List Char) :
    readQuotedOnto ('\\' :: cs) acc = readQuotedOnto rest (c :: acc) := by
  rw [readQuotedOnto, if_neg (by decide), if_pos rfl]
  split <;> rename_i h' <;> rw [h] at h' <;> cases h'
  rfl

/-- A character is read from its spelling. -/
theorem SpellsChar.readQuotedOnto (h : SpellsChar c cs) (rest acc : List Char) :
    readQuotedOnto (cs ++ rest) acc = readQuotedOnto rest (c :: acc) := by
  cases h with
  | plain hquote hback hlow =>
    rw [List.singleton_append, Json.readQuotedOnto, if_neg hquote, if_neg hback, if_neg hlow]
  | letter hl =>
    refine readQuotedOnto_escape ?_ acc
    rw [List.append_eq, List.singleton_append, readEscape, if_neg hl.ne_u, hl.shortEscape?]
  | unit hu => exact readQuotedOnto_escape (hu.readEscape rest) acc
  | pair hc hhigh hlow =>
    rw [List.cons_append, List.append_assoc]
    exact readQuotedOnto_escape (readEscape_pair hc rfl rfl hhigh hlow rest) acc

theorem readQuotedOnto_of_spells (h : Spells s cs) (rest acc : List Char) :
    readQuotedOnto (cs ++ '"' :: rest) acc = .ok (String.ofList (acc.reverse ++ s), rest) := by
  induction h generalizing acc with
  | nil => rw [List.nil_append, readQuotedOnto, if_pos rfl, List.append_nil]
  | cons hc _ ih =>
    rw [List.append_assoc, hc.readQuotedOnto, ih, List.reverse_cons, List.append_assoc]
    rfl

/-- **A string is read**, up to its closing quote. -/
theorem readQuoted_of_spells (h : Spells s cs) (rest : List Char) :
    readQuoted (cs ++ '"' :: rest) = .ok (String.ofList s, rest) :=
  readQuotedOnto_of_spells h rest []

/-! ## Passing over -/

theorem skipQuoted_escape (h : skipEscape cs = .ok rest) :
    skipQuoted ('\\' :: cs) = skipQuoted rest := by
  rw [skipQuoted, if_neg (by decide), if_pos rfl]
  split <;> rename_i h' <;> rw [h] at h' <;> cases h'
  rfl

/-- A character is passed over.  Two code units are two escapes here. -/
theorem SpellsChar.skipQuoted (h : SpellsChar c cs) (rest : List Char) :
    skipQuoted (cs ++ rest) = skipQuoted rest := by
  cases h with
  | plain hquote hback hlow =>
    rw [List.singleton_append, Json.skipQuoted, if_neg hquote, if_neg hback, if_neg hlow]
  | letter hl =>
    refine skipQuoted_escape ?_
    rw [List.append_eq, List.singleton_append, skipEscape, if_neg hl.ne_u, hl.shortEscape?]
    rfl
  | unit hu => exact skipQuoted_escape (hu.skipEscape rest)
  | pair hc hhigh hlow =>
    rw [List.cons_append, List.append_assoc, skipQuoted_escape (hhigh.skipEscape _)]
    exact skipQuoted_escape (hlow.skipEscape rest)

/-- **A string is passed over**, up to its closing quote. -/
theorem skipQuoted_of_spells (h : Spells s cs) (rest : List Char) :
    skipQuoted (cs ++ '"' :: rest) = .ok rest := by
  induction h with
  | nil => rw [List.nil_append, skipQuoted, if_pos rfl]
  | cons hc _ ih => rw [List.append_assoc, hc.skipQuoted, ih]

end OtaPack.Json
