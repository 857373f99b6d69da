/-
  The CRC-32 checksum: reflected polynomial `0xEDB88320`, all bits of the register set at the
  start and inverted at the end.

  * `Crc32`: the register after some bytes; `start` before the first one, `update` by more bytes,
    `value` the checksum of all bytes so far;
  * `crc32 bs`: the checksum of a byte string;
  * `update_append`: feeding two strings one after the other is feeding them joined, so a checksum
    can be taken part by part.
-/
import OtaPack.Bytes

namespace OtaPack

/-- The register of a running checksum. -/
structure Crc32 where
  register : UInt32
deriving DecidableEq, Repr

namespace Crc32

/-- The generator polynomial, lowest power first. -/
def polynomial : UInt32 := 0xEDB88320

/-- Moves the register on by one bit. -/
def shift (r : UInt32) : UInt32 :=
  if r &&& 1 = 0 then r >>> 1 else (r >>> 1) ^^^ polynomial

/-- Moves the register on by one byte. -/
def feed (r : UInt32) (b : UInt8) : UInt32 :=
  Nat.repeat shift 8 (r ^^^ b.toUInt32)

/-- No byte has been seen. -/
def start : Crc32 := ⟨0xFFFFFFFF⟩

/-- The register after the bytes `bs`. -/
def update (c : Crc32) (bs : Bytes) : Crc32 :=
  ⟨bs.foldl feed c.register⟩

/-- The checksum of the bytes seen so far. -/
def value (c : Crc32) : UInt32 :=
  c.register ^^^ 0xFFFFFFFF

theorem update_append (c : Crc32) (as bs : Bytes) :
    c.update (as ++ bs) = (c.update as).update bs := by
  simp [update]

end Crc32

/-- The CRC-32 of a byte string. -/
def crc32 (bs : Bytes) : UInt32 :=
  (Crc32.start.update bs).value

end OtaPack
