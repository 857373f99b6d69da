/-
  Base64 with the standard alphabet and padding.

  * `encode bs`: each three bytes as four digits; two or one bytes at the end as three or two
    digits, filled up with `=`;
  * `decode? s`: the bytes of a text of that form, and nothing for any other text.  Padding stands
    at the end only, and the bits that it leaves unused are zero.
-/
import OtaPack.Bytes

namespace OtaPack.Base64

/-- The digits, from `0` to `63`. -/
def alphabet : Array Char :=
  "ABCDEFGHIJKLMNOPQRSTUVWXYZabcdefghijklmnopqrstuvwxyz0123456789+/".toList.toArray

/-- What stands in place of missing digits. -/
def padding : Char := '='

/-- The digit of a value below `64`. -/
def digit (v : Nat) : Char :=
  alphabet.getD v padding

/-- The value of a digit. -/
def value? (c : Char) : Option Nat :=
  alphabet.idxOf? c

/-! ## From bytes to text -/

/-- One to three bytes as four characters. -/
def encodeGroup : Bytes → List Char
  | [a] => [digit (a.toNat / 4), digit (a.toNat % 4 * 16), padding, padding]
  | [a, b] =>
    [digit (a.toNat / 4), digit (a.toNat % 4 * 16 + b.toNat / 16),
      digit (b.toNat % 16 * 4), padding]
  | [a, b, c] =>
    [digit (a.toNat / 4), digit (a.toNat % 4 * 16 + b.toNat / 16),
      digit (b.toNat % 16 * 4 + c.toNat / 64), digit (c.toNat % 64)]
  | _ => []

/-- A byte string as text. -/
def encode (bs : Bytes) : String :=
  String.ofList ((chunksOf 3 bs).flatMap encodeGroup)

/-! ## From text to bytes -/

/-- The three bytes of four digits. -/
def decodeGroup? : List Char → Option Bytes
  | [p, q, r, s] => do
    let p ← value? p
    let q ← value? q
    let r ← value? r
    let s ← value? s
    return [UInt8.ofNat (p * 4 + q / 16), UInt8.ofNat (q % 16 * 16 + r / 4),
      UInt8.ofNat (r % 4 * 64 + s)]
  | _ => none

/-- The bytes of the last four characters, which may be padded. -/
def decodeLast? : List Char → Option Bytes
  | [p, q, r, s] =>
    if s ≠ padding then decodeGroup? [p, q, r, s]
    else if r ≠ padding then do
      let p ← value? p
      let q ← value? q
      let r ← value? r
      guard (r % 4 = 0)
      return [UInt8.ofNat (p * 4 + q / 16), UInt8.ofNat (q % 16 * 16 + r / 4)]
    else do
      let p ← value? p
      let q ← value? q
      guard (q % 16 = 0)
      return [UInt8.ofNat (p * 4 + q / 16)]
  | _ => none

/-- The bytes of groups of four characters, of which only the last may be padded. -/
def decodeGroups? : List (List Char) → Option Bytes
  | [] => some []
  | [g] => decodeLast? g
  | g :: gs => do return (← decodeGroup? g) ++ (← decodeGroups? gs)

/-- The bytes of a text, if it is one that `encode` writes. -/
def decode? (s : String) : Option Bytes :=
  decodeGroups? (chunksOf 4 s.toList)

end OtaPack.Base64
