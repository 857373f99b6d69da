/-
  Reading numbers bit by bit, the most significant bit first.

  * `Bits.Reader`: a byte string and the number of bits already taken from it;
  * `getBits? r n`: the word of the next `n` bits, or nothing if fewer are left;
  * `remaining`: how many bits are left;
  * `toNat_field_succ`: how a field grows bit by bit;
  * `getBits?_eq_some`: what a successful read takes, and `getBits?_eq_none`: when it fails.
-/
import OtaPack.Bytes

namespace OtaPack.Bits

/-- A byte string that is read bit by bit. -/
structure Reader where
  input : Array UInt8
  /-- The number of bits taken. -/
  cursor : Nat := 0
deriving Repr

namespace Reader

/-- Before the first bit of `bs`. -/
def ofBytes (bs : Bytes) : Reader := { input := bs.toArray }

/-- The number of bits of the byte string. -/
def size (r : Reader) : Nat := 8 * r.input.size

/-- The number of bits that are left. -/
def remaining (r : Reader) : Nat := r.size - r.cursor

/-- Bit number `i` of the byte string, counted from the most significant bit of the first byte. -/
def bit (r : Reader) (i : Nat) : Bool :=
  (r.input.getD (i / 8) 0).toNat.testBit (7 - i % 8)

/-- The word that the `count` bits from number `i` on are shifted into, one after the other.  The
    highest bits of a field of more than 64 get lost. -/
def field (r : Reader) (i : Nat) : (count : Nat) → UInt64
  | 0 => 0
  | n + 1 => r.field i n <<< 1 ||| (r.bit (i + n)).toUInt64

/-- A field with one more bit, as far as a word has room for it. -/
theorem toNat_field_succ (r : Reader) (i n : Nat) :
    (r.field i (n + 1)).toNat =
      (2 * (r.field i n).toNat + (r.bit (i + n)).toNat) % UInt64.size := by
  have hlt : (r.bit (i + n)).toNat < 2 := Bool.toNat_lt _
  have hbit : (r.bit (i + n)).toUInt64.toNat = (r.bit (i + n)).toNat := by
    cases r.bit (i + n) <;> rfl
  have hdouble : (r.field i n <<< 1).toNat =
      ((r.field i n).toNat % (UInt64.size / 2)) <<< 1 := by
    rw [UInt64.toNat_shiftLeft, Nat.shiftLeft_eq, Nat.shiftLeft_eq]
    show _ * 2 % UInt64.size = _ * 2
    simp only [UInt64.size]
    omega
  rw [field, UInt64.toNat_or, hdouble, hbit, ← Nat.shiftLeft_add_eq_or_of_lt hlt,
    Nat.shiftLeft_eq]
  simp only [UInt64.size]
  omega

/-- The word of the next `count` bits, or nothing if fewer are left. -/
def getBits? (r : Reader) (count : Nat) : Option (UInt64 × Reader) :=
  if r.cursor + count ≤ r.size then
    some (r.field r.cursor count, { r with cursor := r.cursor + count })
  else none

/-- A read takes the next bits and leaves the byte string alone. -/
theorem getBits?_eq_some {r r' : Reader} {count : Nat} {v : UInt64} :
    r.getBits? count = some (v, r') ↔
      r.cursor + count ≤ r.size ∧ v = r.field r.cursor count ∧
        r' = { r with cursor := r.cursor + count } := by
  by_cases h : r.cursor + count ≤ r.size <;> simp [getBits?, h, eq_comm]

/-- A read fails exactly when fewer bits are left than asked for. -/
theorem getBits?_eq_none {r : Reader} {count : Nat} :
    r.getBits? count = none ↔ r.size < r.cursor + count := by
  simp [getBits?]

/-- A read leaves fewer bits. -/
theorem remaining_of_getBits? {r r' : Reader} {count : Nat} {v : UInt64}
    (h : r.getBits? count = some (v, r')) : r'.remaining + count = r.remaining := by
  obtain ⟨hle, -, rfl⟩ := getBits?_eq_some.1 h
  simp only [remaining, size] at *
  omega

end Reader

end OtaPack.Bits
