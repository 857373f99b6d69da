/-
  The texts of numbers, and that they are read.

  * `IsNumeral n cs`: the characters `cs` are the number `n` as it is written: a sign, the digits in
    front of the point, a point and digits after it, and a power of ten;
  * `EndsNumber rest`: a number is over where `rest` begins;
  * `readDigits_of_isDigits`, `readWhole_of_isWhole`, `readFraction_of_isFraction`,
    `readExponent_of_isExponent`: each part is read, up to what follows it;
  * `readNumeral_of_isNumeral`, `readLexeme_of_isNumeral`: a number is read, up to what follows it.
-/
import Mathlib.Tactic.SplitIfs
import OtaPack.Json.Lexeme

namespace OtaPack.Json

/-! ## Texts -/

/-- One digit or more. -/
structure IsDigits (cs : List Char) : Prop where
  ne_nil : cs ≠ []
  isDigit : ∀ c ∈ cs, c.isDigit = true

/-- The values of some digits. -/
def digitValues (cs : List Char) : List Nat :=
  cs.map fun c => c.toNat - '0'.toNat

/-- The digits in front of the point, of which the first is zero only if there are no others. -/
structure IsWhole (cs : List Char) : Prop extends IsDigits cs where
  eq_zero : cs.head? = some '0' → cs = ['0']

/-- Nothing, or a point and digits. -/
inductive IsFraction : Option (List Nat) → List Char → Prop
  | absent : IsFraction none []
  | present {cs : List Char} : IsDigits cs → IsFraction (some (digitValues cs)) ('.' :: cs)

/-- The sign of an exponent. -/
inductive IsSign : Int → List Char → Prop
  | absent : IsSign 1 []
  | plus : IsSign 1 ['+']
  | minus : IsSign (-1) ['-']

/-- Nothing, or a power of ten. -/
inductive IsExponent : Option Int → List Char → Prop
  | absent : IsExponent none []
  | present {e : Char} {sign : Int} {cs ds : List Char} : e = 'e' ∨ e = 'E' → IsSign sign cs →
      IsDigits ds → IsExponent (some (sign * Numeral.ofDigits (digitValues ds))) (e :: (cs ++ ds))

/-- A number as it is written. -/
inductive IsNumeral : Numeral → List Char → Prop
  | intro {negative : Bool} {f : Option (List Nat)} {e : Option Int}
      {whole fraction exponent : List Char} :
      IsWhole whole → IsFraction f fraction → IsExponent e exponent →
      IsNumeral ⟨negative, digitValues whole, f, e⟩
        ((if negative then ['-'] else []) ++ (whole ++ (fraction ++ exponent)))

/-- A number is over where these characters follow. -/
def EndsNumber (rest : List Char) : Prop :=
  ∀ c ∈ rest.head?, c.isDigit = false ∧ c ≠ '.' ∧ c ≠ 'e' ∧ c ≠ 'E'

variable {n : Numeral} {cs ds rest : List Char} {f : Option (List Nat)} {e : Option Int}

/-- A digit is no other character that a value may begin with. -/
theorem ne_of_isDigit {c d : Char} (hc : c.isDigit = true) (hd : d.isDigit = false) : c ≠ d := by
  rintro rfl
  rw [hc] at hd
  cases hd

theorem IsDigits.exists_cons (h : IsDigits cs) : ∃ c ds, cs = c :: ds ∧ c.isDigit = true := by
  obtain ⟨c, ds, rfl⟩ := List.exists_cons_of_ne_nil h.ne_nil
  exact ⟨c, ds, rfl, h.isDigit c List.mem_cons_self⟩

/-! ## Digits -/

theorem spanDigits_append (hds : ∀ c ∈ ds, c.isDigit = true)
    (hrest : ∀ c ∈ rest.head?, c.isDigit = false) :
    spanDigits (ds ++ rest) = (digitValues ds, rest) := by
  have hnone : rest.takeWhile Char.isDigit = [] ∧ rest.dropWhile Char.isDigit = rest := by
    cases rest with
    | nil => exact ⟨rfl, rfl⟩
    | cons c rest =>
      rw [List.takeWhile_cons, List.dropWhile_cons, hrest c rfl]
      exact ⟨rfl, rfl⟩
  rw [spanDigits, List.takeWhile_append_of_pos hds, List.dropWhile_append_of_pos hds, hnone.1,
    hnone.2, List.append_nil]
  rfl

theorem readDigits_of_isDigits (h : IsDigits ds) (hrest : ∀ c ∈ rest.head?, c.isDigit = false)
    (atEnd : Problem) : readDigits atEnd (ds ++ rest) = .ok (digitValues ds, rest) := by
  have hspan := spanDigits_append h.isDigit hrest
  obtain ⟨c, ds, rfl, -⟩ := h.exists_cons
  rw [readDigits, hspan]
  rfl

theorem readWhole_of_isWhole (h : IsWhole ds) (hrest : ∀ c ∈ rest.head?, c.isDigit = false)
    (atEnd : Problem) : readWhole atEnd (ds ++ rest) = .ok (digitValues ds, rest) := by
  have hread := readDigits_of_isDigits h.toIsDigits hrest atEnd
  obtain ⟨c, cs, rfl, -⟩ := h.exists_cons
  rw [List.cons_append] at hread ⊢
  rw [readWhole]
  split_ifs with hzero hmore
  · -- no digit follows a zero
    exfalso
    obtain rfl : cs = [] := (List.cons.inj (h.eq_zero (hzero ▸ rfl))).2
    cases rest with
    | nil => cases hmore
    | cons d rest =>
      have hd := hrest d rfl
      simp [hd] at hmore
  · cases h.eq_zero (hzero ▸ rfl)
    rfl
  · exact hread

/-! ## Point and power of ten -/

theorem readFraction_of_isFraction (h : IsFraction f cs)
    (hrest : ∀ c ∈ rest.head?, c.isDigit = false ∧ c ≠ '.') (atEnd : Problem) :
    readFraction atEnd (cs ++ rest) = .ok (f, rest) := by
  cases h with
  | absent =>
    rw [List.nil_append]
    unfold readFraction
    split
    · exact absurd rfl (hrest '.' rfl).2
    · rfl
  | present hds =>
    rw [List.cons_append, readFraction,
      readDigits_of_isDigits hds (fun c hc => (hrest c hc).1) atEnd]
    rfl

theorem spanSign_of_isSign {sign : Int} (h : IsSign sign cs) (hds : IsDigits ds) :
    spanSign (cs ++ (ds ++ rest)) = (sign, ds ++ rest) := by
  cases h with
  | absent =>
    obtain ⟨c, ds, rfl, hc⟩ := hds.exists_cons
    rw [List.nil_append, List.cons_append]
    unfold spanSign
    split
    · rename_i heq
      exact absurd (List.cons.inj heq).1 (ne_of_isDigit hc (by decide))
    · rename_i heq
      exact absurd (List.cons.inj heq).1 (ne_of_isDigit hc (by decide))
    · rfl
  | plus => rfl
  | minus => rfl

theorem readExponent_of_isExponent (h : IsExponent e cs) (hrest : EndsNumber rest)
    (atEnd : Problem) : readExponent atEnd (cs ++ rest) = .ok (e, rest) := by
  cases h with
  | absent =>
    cases rest with
    | nil => rfl
    | cons c rest =>
      obtain ⟨-, -, he, hE⟩ := hrest c rfl
      rw [List.nil_append, readExponent, if_neg (not_or.2 ⟨he, hE⟩)]
  | present he hsign hds =>
    rw [List.cons_append, List.append_assoc, readExponent, if_pos he, spanSign_of_isSign hsign hds]
    simp only [readDigits_of_isDigits hds (fun c hc => (hrest c hc).1) atEnd]
    rfl

/-! ## Numbers -/

/-- Neither a digit nor a point stands where a power of ten may stand. -/
theorem IsExponent.head (h : IsExponent e cs) (hrest : EndsNumber rest) :
    ∀ c ∈ (cs ++ rest).head?, c.isDigit = false ∧ c ≠ '.' := by
  cases h with
  | absent => exact fun c hc => ⟨(hrest c hc).1, (hrest c hc).2.1⟩
  | present he _ _ =>
    rintro c ⟨⟩
    rcases he with rfl | rfl <;> decide

/-- No digit stands where a point may stand. -/
theorem IsFraction.head (h : IsFraction f cs)
    (hrest : ∀ c ∈ rest.head?, c.isDigit = false ∧ c ≠ '.') :
    ∀ c ∈ (cs ++ rest).head?, c.isDigit = false := by
  cases h with
  | absent => exact fun c hc => (hrest c hc).1
  | present _ =>
    rintro c ⟨⟩
    decide

/-- **A number is read**, up to what ends it. -/
theorem readNumeral_of_isNumeral (h : IsNumeral n cs) (hrest : EndsNumber rest) (atEnd : Problem) :
    readNumeral atEnd (cs ++ rest) = .ok (n, rest) := by
  obtain @⟨negative, f, e, whole, fraction, exponent, hwhole, hfraction, hexponent⟩ := h
  have he := hexponent.head hrest
  have hreadWhole := readWhole_of_isWhole hwhole (hfraction.head he) atEnd
  have hreadFraction := readFraction_of_isFraction hfraction he atEnd
  have hreadExponent := readExponent_of_isExponent hexponent hrest atEnd
  simp only [List.append_assoc]
  cases negative with
  | true =>
    simp only [readNumeral, ↓reduceIte, List.singleton_append, List.head?_cons, List.tail_cons,
      hreadWhole, hreadFraction, hreadExponent, ok_bind, decide_true]
    rfl
  | false =>
    obtain ⟨c, ds, hcons, hc⟩ := hwhole.exists_cons
    have hplus : ¬(whole ++ (fraction ++ (exponent ++ rest))).head? = some '-' := by
      rw [hcons]
      exact fun hhead => ne_of_isDigit hc (by decide) (Option.some.inj hhead)
    simp only [readNumeral, Bool.false_eq_true, ↓reduceIte, List.nil_append, hplus, hreadWhole,
      hreadFraction, hreadExponent, ok_bind, decide_false]
    rfl

/-- A number begins with its sign or with a digit. -/
theorem IsNumeral.exists_cons (h : IsNumeral n cs) :
    ∃ c ds, cs = c :: ds ∧ (c = '-' ∨ c.isDigit = true) := by
  obtain @⟨negative, f, e, whole, fraction, exponent, hwhole, -, -⟩ := h
  cases negative with
  | true => exact ⟨'-', _, rfl, .inl rfl⟩
  | false =>
    obtain ⟨c, ds, rfl, hc⟩ := hwhole.exists_cons
    exact ⟨c, _, rfl, .inr hc⟩

theorem ne_of_sign_or_digit {c d : Char} (hc : c = '-' ∨ c.isDigit = true)
    (hd : d.isDigit = false) (hsign : '-' ≠ d) : c ≠ d := by
  rcases hc with rfl | hc
  · exact hsign
  · exact ne_of_isDigit hc hd

theorem not_blank_of_sign_or_digit {c : Char} (hc : c = '-' ∨ c.isDigit = true) :
    isBlank c = false := by
  simp only [isBlank, decide_eq_false_iff_not, not_or]
  exact ⟨ne_of_sign_or_digit hc (by decide) (by decide),
    ne_of_sign_or_digit hc (by decide) (by decide), ne_of_sign_or_digit hc (by decide) (by decide),
    ne_of_sign_or_digit hc (by decide) (by decide)⟩

/-- A sign or a digit is the beginning of a number. -/
theorem readLexeme_of_sign_or_digit {c : Char} (hc : c = '-' ∨ c.isDigit = true)
    (cs : List Char) :
    readLexeme (c :: cs) = (readNumber (c :: cs)).map fun (n, rest) => (.number n, rest) := by
  rw [readLexeme, skipBlanks_of_not_blank (not_blank_of_sign_or_digit hc)]
  show readLexemeAt c cs = _
  rw [readLexemeAt, if_neg (ne_of_sign_or_digit hc (by decide) (by decide)),
    if_neg (ne_of_sign_or_digit hc (by decide) (by decide)),
    if_neg (ne_of_sign_or_digit hc (by decide) (by decide)), if_pos hc]

/-- A number is the beginning of a value if it is within the range of a double. -/
theorem readLexeme_of_isNumeral (h : IsNumeral n cs) (hrest : EndsNumber rest) :
    readLexeme (cs ++ rest) =
      if n.TooLarge then .error .malformed else .ok (.number n, rest) := by
  have hread := readNumeral_of_isNumeral h hrest .endOfText
  obtain ⟨c, ds, rfl, hc⟩ := h.exists_cons
  rw [List.cons_append] at hread ⊢
  rw [readLexeme_of_sign_or_digit hc, readNumber, hread]
  show (if n.TooLarge then _ else _ : Except Problem _).map _ = _
  split_ifs <;> rfl

end OtaPack.Json
