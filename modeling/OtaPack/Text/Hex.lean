/-
  Hexadecimal numerals.

  * `digits w n`: the lowercase digits of `n`, filled up with zeros on the left to `w` places;
  * `word n`: a 32-bit word as `0x` and eight digits.
-/

namespace OtaPack.Hex

/-- The lowercase hexadecimal digits of `n`, at least `width` of them. -/
def digits (width n : Nat) : String :=
  let ds := Nat.toDigits 16 n
  String.ofList (List.replicate (width - ds.length) '0' ++ ds)

/-- A 32-bit word: `0x` and eight digits. -/
def word (n : UInt32) : String :=
  "0x" ++ digits 8 n.toNat

end OtaPack.Hex
