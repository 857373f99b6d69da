/-
  The version field of a container: eight bytes, of which only the compression flag is ever set.

  * `Version`: whether the payload is compressed;
  * `Version.toBytes`: the field as it is written, and `Version.ofLastByte` its reading;
  * `ofLastByte_lastByte`: the flag is read back.
-/
import OtaPack.Bytes

namespace OtaPack

/-- The version field.  The default says that the payload is not compressed. -/
structure Version where
  compressed : Bool := false
deriving DecidableEq, Repr, Inhabited

namespace Version

/-- The number of bytes of the field. -/
def size : Nat := 8

/-- The bit of the last byte that marks a compressed payload. -/
def compressionFlag : UInt8 := 0x40

/-- The last byte of the field. -/
def lastByte (v : Version) : UInt8 :=
  if v.compressed then compressionFlag else 0

/-- The field as it is written. -/
def toBytes (v : Version) : Bytes :=
  List.replicate (size - 1) 0 ++ [v.lastByte]

/-- The version that a last byte tells. -/
def ofLastByte (b : UInt8) : Version :=
  ⟨b &&& compressionFlag ≠ 0⟩

@[simp] theorem length_toBytes (v : Version) : v.toBytes.length = size := by
  simp [toBytes, size]

/-- The flag is read back from the last byte. -/
theorem ofLastByte_lastByte (v : Version) : ofLastByte v.lastByte = v := by
  cases v with
  | mk compressed => cases compressed <;> rfl

end Version

end OtaPack
