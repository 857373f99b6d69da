/-
  Values where a value of a certain type is expected.

  * `Value.lexeme`: what a value begins with; `exists_readLexeme_of_isText`: it is read from the
    text of the value;
  * `Value.text?`, `Value.word32?`: the string or the word that a value is;
  * `readText_of_isText`, `readWord32_of_isText`: either is read, and any other value is a mismatch;
  * `IsWord w v`: the value `v` is the word `w`, in digits alone; `word32?_eq_some_iff`: these are
    the values that are words.
-/
import OtaPack.Proofs.Json.Decimal
import OtaPack.Proofs.Json.Grammar

namespace OtaPack.Json

/-! ## The beginning of a value -/

/-- What a value begins with. -/
def Value.lexeme : Value → Lexeme
  | null => .null
  | bool b => .bool b
  | number n => .number n
  | text s => .text s
  | array _ => .openArray
  | object _ => .openObject

/-- The value is no number beyond the range of a double. -/
def Value.InRange (v : Value) : Prop :=
  ∀ n, v = .number n → ¬ n.TooLarge

variable {v : Value} {ws cs rest : List Char}

theorem readLexeme_blanks (hws : Blanks ws) (cs : List Char) :
    readLexeme (ws ++ cs) = readLexeme cs := by
  rw [readLexeme, hws.skipBlanks_append, ← readLexeme]

theorem readLexeme_quote {s : String} (hs : Spells s.toList cs) (rest : List Char) :
    readLexeme ('"' :: (cs ++ '"' :: rest)) = .ok (.text s, rest) := by
  rw [readLexeme, skipBlanks_of_not_blank (by decide)]
  show (readQuoted _).map _ = _
  rw [readQuoted_of_spells hs, String.ofList_toList]
  rfl

/-- The beginning of a value is read.  Only arrays and objects have more to come. -/
theorem exists_readLexeme_of_isText (h : IsText v cs) (hv : v.InRange) (hrest : EndsNumber rest) :
    ∃ after, readLexeme (cs ++ rest) = .ok (v.lexeme, after) ∧
      (after = rest ∨ v.lexeme = .openArray ∨ v.lexeme = .openObject) := by
  cases h with
  | null => exact ⟨rest, rfl, .inl rfl⟩
  | boolTrue => exact ⟨rest, rfl, .inl rfl⟩
  | boolFalse => exact ⟨rest, rfl, .inl rfl⟩
  | number hn =>
    refine ⟨rest, ?_, .inl rfl⟩
    rw [readLexeme_of_isNumeral hn hrest, if_neg (hv _ rfl)]
    rfl
  | text hs =>
    refine ⟨rest, ?_, .inl rfl⟩
    rw [List.cons_append, List.append_assoc]
    exact readLexeme_quote hs rest
  | emptyArray => exact ⟨_, rfl, .inr (.inl rfl)⟩
  | array => exact ⟨_, rfl, .inr (.inl rfl)⟩
  | emptyObject => exact ⟨_, rfl, .inr (.inr rfl)⟩
  | object => exact ⟨_, rfl, .inr (.inr rfl)⟩

/-! ## Values of a type -/

/-- The string that a value is. -/
def Value.text? : Value → Option String
  | text s => some s
  | _ => none

/-- The word that a value is. -/
def Value.word32? : Value → Option UInt32
  | number n => n.word32?
  | _ => none

/-- What is read where a value of a certain type is expected. -/
def orMismatch {α : Type} : Option α → Except Problem α
  | some a => .ok a
  | none => .error .mismatch

theorem readText_of_isText (hws : Blanks ws) (h : IsText v cs) (hv : v.InRange)
    (hrest : EndsNumber rest) :
    readText (ws ++ (cs ++ rest)) = (orMismatch v.text?).map fun s => (s, rest) := by
  obtain ⟨after, hread, hafter⟩ := exists_readLexeme_of_isText h hv hrest
  rw [readText, readLexeme_blanks hws, hread]
  cases v with
  | text s =>
    rcases hafter with rfl | hopen | hopen
    · rfl
    · cases hopen
    · cases hopen
  | _ => rfl

theorem readWord32_of_isText (hws : Blanks ws) (h : IsText v cs) (hv : v.InRange)
    (hrest : EndsNumber rest) :
    readWord32 (ws ++ (cs ++ rest)) = (orMismatch v.word32?).map fun w => (w, rest) := by
  obtain ⟨after, hread, hafter⟩ := exists_readLexeme_of_isText h hv hrest
  rw [readWord32, readLexeme_blanks hws, hread]
  cases v with
  | number n =>
    rcases hafter with rfl | hopen | hopen
    · simp only [Value.lexeme, Value.word32?]
      cases n.word32? <;> rfl
    · cases hopen
    · cases hopen
  | _ => rfl

/-! ## Words -/

/-- A value is a word: digits alone, without a sign, a point or a power of ten. -/
inductive IsWord (w : UInt32) : Value → Prop
  | intro {ds : List Nat} : Numeral.ofDigits ds = w.toNat → IsWord w (.number (.ofWhole ds))

theorem Numeral.word32?_eq_some_iff {n : Numeral} {w : UInt32} :
    n.word32? = some w ↔ n = .ofWhole n.whole ∧ ofDigits n.whole = w.toNat := by
  constructor
  · obtain ⟨negative, whole, fraction, exponent⟩ := n
    intro h
    rw [Numeral.word32?] at h
    split_ifs at h with hplain hlt
    simp only [not_or, Bool.not_eq_true, Option.isSome_eq_false_iff, Option.isNone_iff_eq_none]
      at hplain
    obtain ⟨rfl, rfl, rfl⟩ := hplain
    refine ⟨rfl, ?_⟩
    rw [← Option.some.inj h, UInt32.toNat_ofNat_of_lt' hlt]
  · rintro ⟨hwhole, hvalue⟩
    rw [hwhole]
    exact word32?_ofWhole hvalue

theorem word32?_eq_some_iff {w : UInt32} : v.word32? = some w ↔ IsWord w v := by
  constructor
  · intro h
    cases v with
    | number n =>
      obtain ⟨hwhole, hvalue⟩ := Numeral.word32?_eq_some_iff.1 h
      rw [hwhole]
      exact .intro hvalue
    | _ => cases h
  · rintro ⟨hvalue⟩
    exact word32?_ofWhole hvalue

theorem text?_eq_some_iff {s : String} : v.text? = some s ↔ v = .text s := by
  constructor
  · intro h
    cases v with
    | text t => rw [Option.some.inj h]
    | _ => cases h
  · rintro rfl
    rfl

/-- Words are within the range of a double. -/
theorem IsWord.inRange {w : UInt32} (h : IsWord w v) : v.InRange := by
  obtain @⟨ds, hvalue⟩ := h
  rintro n ⟨⟩
  exact not_tooLarge_ofWhole (hvalue ▸ w.toNat_lt)

end OtaPack.Json
