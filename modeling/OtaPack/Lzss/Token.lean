/-
  The tokens of an LZSS stream.

  A token is a flag bit and its data.  The flag `1` stands before a literal byte, the flag `0`
  before a reference: a position in the ring of the last 2048 bytes and a length.

  * `Lzss.Token`, `Token.length`: a token and the number of bytes it stands for;
  * `Token.write`, `Token.read?`: a token as bits, and back;
  * `remaining_of_read?`: reading a token takes bits away, so a stream holds finitely many;
  * `writeTokens`, `readTokens`: tokens as a byte stream, and the complete tokens at its front.
-/
import OtaPack.Bits.Reader
import OtaPack.Bits.Writer

namespace OtaPack.Lzss

/-! ## The sizes of the format -/

/-- The number of bits of a ring position. -/
abbrev positionBits : Nat := 11

/-- The number of bits of a match length. -/
abbrev lengthBits : Nat := 4

/-- A match of this length or less is written as a literal. -/
abbrev literalLimit : Nat := 1

/-- The number of bytes of the ring. -/
abbrev ringSize : Nat := 1 <<< positionBits

/-- The number of match lengths that a reference can tell. -/
abbrev lengthCount : Nat := 1 <<< lengthBits

/-- The shortest match that a reference can tell. -/
abbrev minMatch : Nat := literalLimit + 1

/-- The longest match that a reference can tell. -/
abbrev maxMatch : Nat := lengthCount + literalLimit

/-- Where the first byte is written.  All places before it hold blanks. -/
abbrev startPosition : Nat := ringSize - maxMatch

-- with the zero that numerals of `Fin` ask for
instance : @NeZero Nat Zero.ofOfNat0 ringSize := ⟨by decide⟩

instance : @NeZero Nat Zero.ofOfNat0 lengthCount := ⟨by decide⟩

/-- What the ring holds before anything is written. -/
def blank : UInt8 := 0x20

/-! ## Tokens -/

/-- A token: a byte, or a reference to bytes of the ring. -/
inductive Token where
  | literal (byte : UInt8)
  /-- `minMatch + excess` bytes from `position` on. -/
  | reference (position : Fin ringSize) (excess : Fin lengthCount)
deriving DecidableEq, Repr

namespace Token

/-- The number of bytes that a token stands for. -/
def length : Token → Nat
  | literal _ => 1
  | reference _ excess => minMatch + excess

theorem length_pos (t : Token) : 0 < t.length := by
  cases t <;> simp only [length, minMatch, literalLimit] <;> omega

theorem length_le (t : Token) : t.length ≤ maxMatch := by
  cases t with
  | literal => simp [length, maxMatch]
  | reference _ excess =>
    have := excess.isLt
    simp only [length, maxMatch, minMatch, literalLimit]
    omega

/-- The number of bits that a token takes. -/
def bits : Token → Nat
  | literal _ => 1 + 8
  | reference .. => 1 + positionBits + lengthBits

/-- Writes a token. -/
def write (w : Bits.Writer) : Token → Bits.Writer
  | literal byte => (w.putBit true).putBits byte.toUInt64 8
  | reference position excess =>
    ((w.putBit false).putBits (UInt64.ofNat position) positionBits).putBits
      (UInt64.ofNat excess) lengthBits

/-- Reads a token, or nothing if the stream ends within it. -/
def read? (r : Bits.Reader) : Option (Token × Bits.Reader) := do
  let (flag, r) ← r.getBits? 1
  if flag = 1 then
    let (byte, r) ← r.getBits? 8
    return (literal byte.toUInt8, r)
  else
    let (position, r) ← r.getBits? positionBits
    let (excess, r) ← r.getBits? lengthBits
    return (reference (Fin.ofNat _ position.toNat) (Fin.ofNat _ excess.toNat), r)

/-- Reading a token takes as many bits as the token has. -/
theorem remaining_of_read? {r r' : Bits.Reader} {t : Token} (h : read? r = some (t, r')) :
    r'.remaining + t.bits = r.remaining := by
  simp only [read?, Option.bind_eq_bind, Option.bind_eq_some_iff] at h
  obtain ⟨⟨flag, r₁⟩, h₁, h⟩ := h
  have e₁ := Bits.Reader.remaining_of_getBits? h₁
  split at h
  · simp only [Option.bind_eq_some_iff] at h
    obtain ⟨⟨byte, r₂⟩, h₂, h⟩ := h
    have e₂ := Bits.Reader.remaining_of_getBits? h₂
    obtain ⟨rfl, rfl⟩ := by simpa using h
    simp only [bits]
    omega
  · simp only [Option.bind_eq_some_iff] at h
    obtain ⟨⟨position, r₂⟩, h₂, ⟨excess, r₃⟩, h₃, h⟩ := h
    have e₂ : r₂.remaining + positionBits = r₁.remaining := Bits.Reader.remaining_of_getBits? h₂
    have e₃ : r₃.remaining + lengthBits = r₂.remaining := Bits.Reader.remaining_of_getBits? h₃
    obtain ⟨rfl, rfl⟩ := by simpa using h
    simp only [bits]
    omega

theorem bits_pos (t : Token) : 0 < t.bits := by
  cases t <;> simp only [bits, positionBits] <;> omega

end Token

/-! ## Streams of tokens -/

/-- The bits of `ts`, in order. -/
def writeTokens (ts : List Token) : Bytes :=
  (ts.foldl Token.write ∅).finish

/-- Moves the complete tokens that `r` is still to read to the end of `acc`. -/
def readTokensOnto (r : Bits.Reader) (acc : Array Token) : Array Token :=
  match _h : Token.read? r with
  | none => acc
  | some (t, r') => readTokensOnto r' (acc.push t)
termination_by r.remaining
decreasing_by
  have := Token.remaining_of_read? _h
  have := t.bits_pos
  omega

/-- The complete tokens at the front of a stream.  Reading stops at the first token that is cut
    short. -/
def readTokens (stream : Bytes) : List Token :=
  (readTokensOnto (.ofBytes stream) #[]).toList

end OtaPack.Lzss
