/-
  Reading JSON texts: what can go wrong, and the smallest pieces.

  A reader takes the characters that are left and returns what it found and the characters after
  it.  Readers go from left to right and report the first problem they meet.

  * `Problem`: the text ends too early, is not JSON, or is JSON of another shape than expected;
  * `skipBlanks`, `expectWord`: characters without meaning, and characters that have to follow.
-/

namespace OtaPack.Json

/-- Why a text was not accepted. -/
inductive Problem where
  /-- The text ends where something has to follow. -/
  | endOfText
  /-- The text is not JSON. -/
  | malformed
  /-- The text is JSON, but not of the expected type, range or fields. -/
  | mismatch
deriving DecidableEq, Repr

/-- The characters that may stand between any two parts of a text. -/
def isBlank (c : Char) : Bool :=
  c = ' ' ∨ c = '\t' ∨ c = '\n' ∨ c = '\r'

/-- The text without the blanks at its front. -/
def skipBlanks (cs : List Char) : List Char :=
  cs.dropWhile isBlank

theorem skipBlanks_of_not_blank {c : Char} (h : isBlank c = false) (cs : List Char) :
    skipBlanks (c :: cs) = c :: cs := by
  rw [skipBlanks, List.dropWhile_cons, h]
  rfl

theorem length_skipBlanks_le (cs : List Char) : (skipBlanks cs).length ≤ cs.length :=
  (List.dropWhile_suffix isBlank).length_le

/-- The text after the characters `word`, which have to come next. -/
def expectWord : (word cs : List Char) → Except Problem (List Char)
  | [], cs => .ok cs
  | _ :: _, [] => .error .endOfText
  | w :: ws, c :: cs => if w = c then expectWord ws cs else .error .malformed

theorem length_of_expectWord {word cs rest : List Char} (h : expectWord word cs = .ok rest) :
    rest.length + word.length = cs.length := by
  fun_induction expectWord word cs with
  | case1 cs => cases h; rfl
  | case2 => cases h
  | case3 ws c cs ih =>
    have := ih h
    simp only [List.length_cons]
    omega
  | case4 => cases h

end OtaPack.Json
