/-
  Writing numbers bit by bit, the most significant bit first.

  * `Bits.Writer`: the complete bytes, the byte that is being filled, and a mask whose single bit
    is the place of the next one;
  * `putBit` and `putBits`: write one bit, and the lowest `count` bits of a machine word;
  * `finish`: all bytes, the last one filled up with zeros;
  * `putBits_succ`: a field is written as its highest bit and then the rest.
-/
import OtaPack.Bytes

namespace OtaPack.Bits

/-- Bits on their way into bytes. -/
structure Writer where
  /-- The bytes that are complete. -/
  out : Array UInt8 := #[]
  /-- The byte that is being filled.  All bits at and below the mask are zero. -/
  buffer : UInt8 := 0
  /-- The place of the next bit. -/
  mask : UInt8 := 0x80
deriving Repr

namespace Writer

/-- Nothing has been written. -/
def empty : Writer := {}

instance : EmptyCollection Writer := ⟨empty⟩

/-- Writes one bit. -/
def putBit (w : Writer) (bit : Bool) : Writer :=
  let buffer := if bit then w.buffer ||| w.mask else w.buffer
  let mask := w.mask >>> 1
  if mask = 0 then { out := w.out.push buffer, buffer := 0, mask := 0x80 }
  else { w with buffer, mask }

/-- Writes the lowest `count` bits of `value`, the highest of them first.  A word has no bits from
    number 64 on: a shift that far is one by the distance modulo 64. -/
def putBits (w : Writer) (value : UInt64) : (count : Nat) → Writer
  | 0 => w
  | n + 1 => (w.putBit ((value >>> UInt64.ofNat n) &&& 1 != 0)).putBits value n

/-- All bytes.  A byte that is not full yet is filled up with zeros. -/
def finish (w : Writer) : Bytes :=
  (if w.mask = 0x80 then w.out else w.out.push w.buffer).toList

/-- The lowest bit of a word that has been shifted. -/
theorem shiftRight_and_one_bne (value : UInt64) (n : Nat) :
    ((value >>> UInt64.ofNat n) &&& 1 != 0) = value.toNat.testBit (n % 64) := by
  have hshift : (UInt64.ofNat n).toNat % 64 = n % 64 := by
    rw [UInt64.toNat_ofNat']
    omega
  rw [Nat.testBit, ← hshift, ← UInt64.toNat_shiftRight, Nat.and_comm, Bool.eq_iff_iff, bne_iff_ne,
    bne_iff_ne, ne_eq, ne_eq, ← UInt64.toNat_inj, UInt64.toNat_and]
  rfl

theorem putBits_succ (w : Writer) (value : UInt64) (n : Nat) :
    w.putBits value (n + 1) = (w.putBit (value.toNat.testBit (n % 64))).putBits value n := by
  rw [putBits, shiftRight_and_one_bne]

end Writer

end OtaPack.Bits
