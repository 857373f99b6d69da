/-
  The header of a container.

  * `Header`: length, checksum, magic word and version, in the order in which they are written;
  * `Header.lengthField n`: the length field for a payload of `n` bytes, or the reason why there is
    none; the length counts all that follows the checksum;
  * `Header.build`: the header of a payload; its checksum covers magic word, version and payload;
  * `Header.toBytes`: the header as it is written;
  * `build_eq_ok`: a header is built exactly when the length fits, and what stands in it.
-/
import OtaPack.Container.Version
import OtaPack.Crc32
import OtaPack.Error

namespace OtaPack

/-- The header of a container. -/
structure Header where
  /-- The number of bytes after the checksum. -/
  length : UInt32
  /-- The checksum of the bytes after it. -/
  crc32 : UInt32
  /-- The magic word of the board. -/
  magic : UInt32
  version : Version
deriving DecidableEq, Repr

namespace Header

/-- The number of bytes of the length field and the checksum, which they do not cover themselves. -/
def lengthAndCrcSize : Nat := 8

/-- The number of bytes between the checksum and the payload. -/
def bodyStartSize : Nat := 4 + Version.size

/-- The number of bytes in front of the payload. -/
def size : Nat := lengthAndCrcSize + bodyStartSize

/-- The length field for a payload of `n` bytes. -/
def lengthField (n : Nat) : Except PackError UInt32 :=
  if bodyStartSize + n < UInt32.size then .ok (UInt32.ofNat (bodyStartSize + n))
  else .error (.payloadTooLarge n)

/-- The header for `payload` on `board`. -/
def build (board : Board) (version : Version) (payload : Bytes) : Except PackError Header := do
  let length ← lengthField payload.length
  let crc := ((Crc32.start.update board.magicBytes).update version.toBytes).update payload
  return { length, crc32 := crc.value, magic := board.magic, version }

/-- The header as it is written. -/
def toBytes (h : Header) : Bytes :=
  littleEndian h.length ++ littleEndian h.crc32 ++ littleEndian h.magic ++ h.version.toBytes

@[simp] theorem length_toBytes (h : Header) : h.toBytes.length = size := by
  simp only [toBytes, size, lengthAndCrcSize, bodyStartSize, List.length_append,
    length_littleEndian, Version.length_toBytes]
  omega

theorem lengthField_of_lt {n : Nat} (h : bodyStartSize + n < UInt32.size) :
    lengthField n = .ok (UInt32.ofNat (bodyStartSize + n)) :=
  if_pos h

theorem lengthField_of_not_lt {n : Nat} (h : ¬ bodyStartSize + n < UInt32.size) :
    lengthField n = .error (.payloadTooLarge n) :=
  if_neg h

/-- A header is built exactly when the length fits under its field. -/
theorem build_eq_ok {board : Board} {version : Version} {payload : Bytes} {h : Header} :
    build board version payload = .ok h ↔
      bodyStartSize + payload.length < UInt32.size ∧
        h = { length := UInt32.ofNat (bodyStartSize + payload.length)
              crc32 := OtaPack.crc32 (board.magicBytes ++ version.toBytes ++ payload)
              magic := board.magic
              version } := by
  by_cases hn : bodyStartSize + payload.length < UInt32.size
  · simp only [build, lengthField_of_lt hn, bind, Except.bind, pure, Except.pure, Except.ok.injEq,
      OtaPack.crc32, Crc32.update_append, hn, true_and]
    exact eq_comm
  · simp only [build, lengthField_of_not_lt hn, bind, Except.bind, hn, false_and, iff_false]
    exact nofun

end Header

end OtaPack
