/-
  Numbers.

  * `Numeral`: the parts of a number as it is written;
  * `readNumeral`: reads a number.  What is reported when the text ends within one is a parameter,
    since a number that is only passed over counts as malformed then;
  * `Numeral.TooLarge`: the number is beyond the range of a double;
  * `Numeral.word32?`: the value of a plain integer that fits into 32 bits;
  * `length_of_readNumeral`: a number takes at least one character.
-/
import OtaPack.Json.Basic
import OtaPack.Json.Magnitude

namespace OtaPack.Json

/-- A number as it is written. -/
structure Numeral where
  negative : Bool
  /-- The digits in front of the point. -/
  whole : List Nat
  /-- The digits after the point, if there is one. -/
  fraction : Option (List Nat)
  /-- The power of ten, if there is one. -/
  exponent : Option Int
deriving DecidableEq, Repr

namespace Numeral

/-- The value of the digits `ds`. -/
def ofDigits (ds : List Nat) : Nat :=
  ds.foldl (fun n d => 10 * n + d) 0

/-- The significand and the decimal exponent.  Digits of the whole part that do not fit into 64 bits
    raise the exponent, those of the fraction are dropped. -/
def scaled (n : Numeral) : Nat × Int :=
  let (s, rest) := absorb 0 n.whole
  let fraction := n.fraction.getD []
  let (s, dropped) := absorb s fraction
  (s, n.exponent.getD 0 + rest.length - (fraction.length - dropped.length : Nat))

/-- The number is beyond the range of a double. -/
def TooLarge (n : Numeral) : Prop :=
  Overflows n.scaled.1 n.scaled.2

instance (n : Numeral) : Decidable n.TooLarge :=
  inferInstanceAs (Decidable (Overflows _ _))

/-- The value, if the number is a plain integer of 32 bits: without sign, point and exponent. -/
def word32? (n : Numeral) : Option UInt32 :=
  if n.negative ∨ n.fraction.isSome ∨ n.exponent.isSome then none
  else if ofDigits n.whole < UInt32.size then some (UInt32.ofNat (ofDigits n.whole))
  else none

end Numeral

/-! ## Reading -/

/-- The digits at the front of a text, and the characters after them. -/
def spanDigits (cs : List Char) : List Nat × List Char :=
  ((cs.takeWhile Char.isDigit).map fun c => c.toNat - '0'.toNat, cs.dropWhile Char.isDigit)

/-- Reads one digit or more. -/
def readDigits (atEnd : Problem) (cs : List Char) : Except Problem (List Nat × List Char) :=
  match spanDigits cs with
  | ([], []) => .error atEnd
  | ([], _ :: _) => .error .malformed
  | (ds, rest) => .ok (ds, rest)

/-- Reads the digits in front of the point: a zero, or digits that do not begin with one. -/
def readWhole (atEnd : Problem) : List Char → Except Problem (List Nat × List Char)
  | [] => .error atEnd
  | c :: rest =>
    if c = '0' then
      if (rest.head?.map Char.isDigit).getD false then .error .malformed else .ok ([0], rest)
    else readDigits atEnd (c :: rest)

/-- Reads the point and the digits after it, if there is one. -/
def readFraction (atEnd : Problem) (cs : List Char) :
    Except Problem (Option (List Nat) × List Char) :=
  match cs with
  | '.' :: rest => (readDigits atEnd rest).map fun (ds, rest) => (some ds, rest)
  | _ => .ok (none, cs)

/-- The sign of an exponent, and the characters after it. -/
def spanSign : List Char → Int × List Char
  | '-' :: rest => (-1, rest)
  | '+' :: rest => (1, rest)
  | cs => (1, cs)

/-- Reads the power of ten, if there is one. -/
def readExponent (atEnd : Problem) (cs : List Char) : Except Problem (Option Int × List Char) :=
  match cs with
  | c :: rest =>
    if c = 'e' ∨ c = 'E' then
      let (sign, rest) := spanSign rest
      (readDigits atEnd rest).map fun (ds, rest) => (some (sign * Numeral.ofDigits ds), rest)
    else .ok (none, cs)
  | [] => .ok (none, cs)

/-- Reads a number.  The problem `atEnd` is reported where the text ends within it. -/
def readNumeral (atEnd : Problem) (cs : List Char) : Except Problem (Numeral × List Char) := do
  let negative := cs.head? = some '-'
  let (whole, cs) ← readWhole atEnd (if negative then cs.tail else cs)
  let (fraction, cs) ← readFraction atEnd cs
  let (exponent, cs) ← readExponent atEnd cs
  return ({ negative, whole, fraction, exponent }, cs)

/-! ## What a number takes -/

theorem length_of_readDigits {atEnd : Problem} {cs rest : List Char} {ds : List Nat}
    (h : readDigits atEnd cs = .ok (ds, rest)) : rest.length < cs.length := by
  have hsplit : (cs.takeWhile Char.isDigit).length + (cs.dropWhile Char.isDigit).length
      = cs.length := by
    rw [← List.length_append, List.takeWhile_append_dropWhile]
  unfold readDigits at h
  split at h
  · cases h
  · cases h
  · rename_i ds' rest' hnil hcons hspan
    cases h
    simp only [spanDigits, Prod.mk.injEq] at hspan
    obtain ⟨rfl, rfl⟩ := hspan
    have : (cs.takeWhile Char.isDigit).length ≠ 0 := fun h0 => by
      rw [List.length_eq_zero_iff] at h0
      cases hd : cs.dropWhile Char.isDigit with
      | nil => exact hnil (by simp [h0]) hd
      | cons c cs => exact hcons c cs (by simp [h0]) hd
    omega

theorem length_of_readWhole {atEnd : Problem} {cs rest : List Char} {ds : List Nat}
    (h : readWhole atEnd cs = .ok (ds, rest)) : rest.length < cs.length := by
  cases cs with
  | nil => cases h
  | cons c cs =>
    simp only [readWhole] at h
    split at h
    · split at h
      · cases h
      · cases h; simp
    · exact length_of_readDigits h

theorem length_of_readFraction {atEnd : Problem} {cs rest : List Char} {f : Option (List Nat)}
    (h : readFraction atEnd cs = .ok (f, rest)) : rest.length ≤ cs.length := by
  unfold readFraction at h
  split at h
  · rename_i cs
    cases hd : readDigits atEnd cs with
    | error => rw [hd] at h; cases h
    | ok p =>
      have := length_of_readDigits hd
      rw [hd] at h
      cases h
      simp only [List.length_cons]
      omega
  · cases h; exact Nat.le_refl _

theorem length_spanSign_le (cs : List Char) : (spanSign cs).2.length ≤ cs.length := by
  unfold spanSign
  split <;> simp

theorem length_of_readExponent {atEnd : Problem} {cs rest : List Char} {e : Option Int}
    (h : readExponent atEnd cs = .ok (e, rest)) : rest.length ≤ cs.length := by
  unfold readExponent at h
  split at h
  · rename_i c cs
    split at h
    · have := length_spanSign_le cs
      cases hd : readDigits atEnd (spanSign cs).2 with
      | error => simp only [hd] at h; cases h
      | ok p =>
        have := length_of_readDigits hd
        simp only [hd] at h
        cases h
        simp only [List.length_cons]
        omega
    · cases h; exact Nat.le_refl _
  · cases h; exact Nat.le_refl _

/-- A number takes at least one character. -/
theorem length_of_readNumeral {atEnd : Problem} {cs rest : List Char} {n : Numeral}
    (h : readNumeral atEnd cs = .ok (n, rest)) : rest.length < cs.length := by
  simp only [readNumeral, bind, Except.bind] at h
  split at h
  · cases h
  rename_i p hp
  obtain ⟨whole, cs₁⟩ := p
  have l₁ := length_of_readWhole hp
  simp only at h
  split at h
  · cases h
  rename_i q hq
  obtain ⟨fraction, cs₂⟩ := q
  have l₂ := length_of_readFraction hq
  simp only at h
  split at h
  · cases h
  rename_i r hr
  obtain ⟨exponent, cs₃⟩ := r
  have l₃ := length_of_readExponent hr
  simp only [pure, Except.pure, Except.ok.injEq, Prod.mk.injEq] at h
  have l₀ : (if cs.head? = some '-' then cs.tail else cs).length ≤ cs.length := by
    split <;> simp
  rw [← h.2]
  omega

end OtaPack.Json
