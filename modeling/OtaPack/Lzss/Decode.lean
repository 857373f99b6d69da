/-
  LZSS decompression.

  * `Ring`: the last 2048 bytes, the place of the next one, and all bytes so far;
  * `Ring.push`, `Ring.copy`: append a byte, and bytes of the ring, one after the other, so that a
    copy may run into the bytes that it writes itself;
  * `Ring.apply`: append what a token stands for;
  * `decode stream`: the bytes of the complete tokens at the front of a stream.
-/
import OtaPack.Lzss.Token

namespace OtaPack.Lzss

/-- The state of a decompression. -/
structure Ring where
  /-- The last bytes, each at its position modulo the size of the ring. -/
  slots : Vector UInt8 ringSize
  /-- The position of the next byte. -/
  next : Fin ringSize
  /-- All bytes so far. -/
  out : Array UInt8

namespace Ring

/-- Nothing has been written, and all slots are blank. -/
def start : Ring where
  slots := .replicate ringSize blank
  next := Fin.ofNat _ startPosition
  out := #[]

/-- Appends a byte. -/
def push (ring : Ring) (c : UInt8) : Ring where
  slots := ring.slots.set ring.next c
  next := ring.next + 1
  out := ring.out.push c

/-- Appends `n` bytes of the ring from `position` on. -/
def copy (ring : Ring) (position : Fin ringSize) : (n : Nat) → Ring
  | 0 => ring
  | n + 1 => (ring.push (ring.slots.get position)).copy (position + 1) n

/-- Appends what a token stands for. -/
def apply (ring : Ring) : Token → Ring
  | .literal byte => ring.push byte
  | .reference position excess => ring.copy position (minMatch + excess)

theorem size_out_push (ring : Ring) (c : UInt8) : (ring.push c).out.size = ring.out.size + 1 := by
  simp [push]

end Ring

/-- Decompresses a stream, up to the first token that is cut short. -/
def decode (stream : Bytes) : Bytes :=
  ((readTokens stream).foldl Ring.apply .start).out.toList

end OtaPack.Lzss
