/-
  The beginning of a value: a scalar, or the bracket that opens an array or an object.

  * `Lexeme`, `readLexeme`: reads the beginning of a value.  A number beyond the range of a double
    is refused here, whatever is expected;
  * `readText`, `readWord32`: read a value of an expected type; any other value is a mismatch, but
    one that is not JSON is reported as such first;
  * `length_of_readLexeme`: the beginning of a value takes at least one character.
-/
import OtaPack.Json.Numeral
import OtaPack.Json.Quoted
import OtaPack.Outcome

namespace OtaPack.Json

/-- The beginning of a value. -/
inductive Lexeme where
  | null
  | bool (b : Bool)
  | number (n : Numeral)
  | text (s : String)
  | openArray
  | openObject
deriving DecidableEq, Repr

/-- Reads a number that is within the range of a double. -/
def readNumber (cs : List Char) : Except Problem (Numeral × List Char) :=
  match readNumeral .endOfText cs with
  | .ok (n, rest) => if n.TooLarge then .error .malformed else .ok (n, rest)
  | .error p => .error p

/-- Reads the beginning of a value whose first character is `c`. -/
def readLexemeAt (c : Char) (cs : List Char) : Except Problem (Lexeme × List Char) :=
  if c = '[' then .ok (.openArray, cs)
  else if c = '\x7b' then .ok (.openObject, cs)
  else if c = '"' then (readQuoted cs).map fun (s, rest) => (.text s, rest)
  else if c = '-' ∨ c.isDigit then (readNumber (c :: cs)).map fun (n, rest) => (.number n, rest)
  else if c = 'n' then (expectWord ['u', 'l', 'l'] cs).map fun rest => (.null, rest)
  else if c = 't' then (expectWord ['r', 'u', 'e'] cs).map fun rest => (.bool true, rest)
  else if c = 'f' then (expectWord ['a', 'l', 's', 'e'] cs).map fun rest => (.bool false, rest)
  else .error .malformed

/-- Reads the beginning of a value. -/
def readLexeme (cs : List Char) : Except Problem (Lexeme × List Char) :=
  match skipBlanks cs with
  | [] => .error .endOfText
  | c :: cs => readLexemeAt c cs

/-- Reads a string. -/
def readText (cs : List Char) : Except Problem (String × List Char) :=
  match readLexeme cs with
  | .ok (.text s, rest) => .ok (s, rest)
  | .ok _ => .error .mismatch
  | .error p => .error p

/-- Reads a plain integer of 32 bits. -/
def readWord32 (cs : List Char) : Except Problem (UInt32 × List Char) :=
  match readLexeme cs with
  | .ok (.number n, rest) =>
    match n.word32? with
    | some w => .ok (w, rest)
    | none => .error .mismatch
  | .ok _ => .error .mismatch
  | .error p => .error p

/-! ## What a value takes -/

theorem length_of_readNumber {cs rest : List Char} {n : Numeral}
    (h : readNumber cs = .ok (n, rest)) : rest.length < cs.length := by
  unfold readNumber at h
  split at h
  · rename_i hn
    split at h
    · cases h
    · cases h; exact length_of_readNumeral hn
  · cases h

/-- A fixed word takes its own length. -/
theorem length_of_map_expectWord {word cs rest : List Char} {l l' : Lexeme}
    (h : ((expectWord word cs).map fun r => (l', r)) = .ok (l, rest)) :
    rest.length ≤ cs.length := by
  obtain ⟨r, hr, e⟩ := exists_of_map_eq_ok h
  have := length_of_expectWord hr
  cases e
  omega

theorem length_of_readLexemeAt {c : Char} {cs rest : List Char} {l : Lexeme}
    (h : readLexemeAt c cs = .ok (l, rest)) : rest.length ≤ cs.length := by
  unfold readLexemeAt at h
  split at h
  · cases h; exact Nat.le_refl _
  split at h
  · cases h; exact Nat.le_refl _
  split at h
  · obtain ⟨⟨s, r⟩, hr, e⟩ := exists_of_map_eq_ok h
    have := length_of_readQuoted hr
    cases e
    omega
  split at h
  · obtain ⟨⟨n, r⟩, hr, e⟩ := exists_of_map_eq_ok h
    have := length_of_readNumber hr
    cases e
    simp only [List.length_cons] at this
    omega
  split at h
  · exact length_of_map_expectWord h
  split at h
  · exact length_of_map_expectWord h
  split at h
  · exact length_of_map_expectWord h
  · cases h

/-- The beginning of a value takes at least one character. -/
theorem length_of_readLexeme {cs rest : List Char} {l : Lexeme}
    (h : readLexeme cs = .ok (l, rest)) : rest.length < cs.length := by
  have hb := length_skipBlanks_le cs
  unfold readLexeme at h
  split at h
  · cases h
  · rename_i c cs' hc
    have := length_of_readLexemeAt h
    rw [hc, List.length_cons] at hb
    omega

theorem length_of_readText {cs rest : List Char} {s : String}
    (h : readText cs = .ok (s, rest)) : rest.length < cs.length := by
  unfold readText at h
  split at h
  · rename_i hl
    cases h
    exact length_of_readLexeme hl
  · cases h
  · cases h

theorem length_of_readWord32 {cs rest : List Char} {w : UInt32}
    (h : readWord32 cs = .ok (w, rest)) : rest.length < cs.length := by
  unfold readWord32 at h
  split at h
  · rename_i hl
    split at h
    · cases h; exact length_of_readLexeme hl
    · cases h
  · cases h
  · cases h

end OtaPack.Json
