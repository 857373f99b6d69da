/-
  Numbers among the arguments.

  * `NumberFault`: why a text is not a number that is wanted;
  * `readDecimal`: the value of digits, as long as it fits into 64 bits with a sign;
  * `word32`: the 32-bit number of a text.
-/

namespace OtaPack.CommandLine

/-- Why a text is not a number that is wanted. -/
inductive NumberFault where
  | empty
  | notADigit
  | tooLarge
  | tooSmall
  /-- The number does not fit into 32 bits without a sign. -/
  | outside (value : Int)
deriving DecidableEq, Repr

/-- The fault in words. -/
def NumberFault.message : NumberFault → String
  | empty => "cannot parse integer from empty string"
  | notADigit => "invalid digit found in string"
  | tooLarge => "number too large to fit in target type"
  | tooSmall => "number too small to fit in target type"
  | outside value => s!"{value} is not in 0..={UInt32.size - 1}"

/-- The value of the digits `cs` after others of value `n`, with the sign that has been read.  The
    first character that is not a digit, or makes the value too large, counts. -/
def readDecimal (negative : Bool) (n : Nat) : (cs : List Char) → Except NumberFault Int
  | [] => .ok (if negative then -n else n)
  | c :: cs =>
    let m := 10 * n + (c.toNat - '0'.toNat)
    if ¬ c.isDigit then .error .notADigit
    else if negative ∧ 1 <<< 63 < m then .error .tooSmall
    else if ¬ negative ∧ 1 <<< 63 ≤ m then .error .tooLarge
    else readDecimal negative m cs

/-- The number of a text: digits, after a sign if wanted. -/
def readNumber (s : String) : Except NumberFault Int :=
  match s.toList with
  | [] => .error .empty
  | [c] => readDecimal false 0 [c]
  | '+' :: cs => readDecimal false 0 cs
  | '-' :: cs => readDecimal true 0 cs
  | cs => readDecimal false 0 cs

/-- The 32-bit number of a text. -/
def word32 (s : String) : Except NumberFault UInt32 := do
  let v ← readNumber s
  if 0 ≤ v ∧ v < UInt32.size then return UInt32.ofNat v.toNat else .error (.outside v)

end OtaPack.CommandLine
