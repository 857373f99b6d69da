/-
  The checksum in one pass over the bits of a message, the lowest bit of a byte first.

  * `lowFirst bs`: the bits of a message;
  * `clock r bit`: the register after one more bit: a step down, with the generator `0xEDB88320`
    added if the bit that falls out differs from that of the message;
  * `crc32OfBits`: all bits of the register set at the start, and inverted at the end;
  * `crc32_eq_crc32OfBits`: taking eight steps for a byte at once is the same.
-/
import OtaPack.Crc32

namespace OtaPack

namespace Crc32

/-- The bits of a byte, the lowest first. -/
def lowFirst (b : UInt8) : List Bool :=
  (List.range 8).map b.toNat.testBit

/-- Moves the register on by one bit of a message. -/
def clock (r : UInt32) (bit : Bool) : UInt32 :=
  if r.toNat.testBit 0 = bit then r >>> 1 else (r >>> 1) ^^^ 0xEDB88320

theorem and_one_eq_zero (r : UInt32) : r &&& 1 = 0 ↔ r.toNat.testBit 0 = false := by
  rw [← UInt32.toNat_inj, UInt32.toNat_and, UInt32.toNat_one, Nat.and_one_is_mod, UInt32.toNat_zero,
    Nat.testBit_zero]
  simp

/-- A step with a message in the register takes the message's lowest bit. -/
theorem shift_xor (r d : UInt32) :
    shift (r ^^^ d) = clock r (d.toNat.testBit 0) ^^^ (d >>> 1) := by
  have hcomm : (r >>> 1) ^^^ (d >>> 1) ^^^ polynomial = (r >>> 1) ^^^ polynomial ^^^ (d >>> 1) := by
    rw [UInt32.xor_assoc, UInt32.xor_comm (d >>> 1), UInt32.xor_assoc]
  rw [shift, clock, UInt32.shiftRight_xor]
  by_cases h : r.toNat.testBit 0 = d.toNat.testBit 0
  · have hzero : (r ^^^ d) &&& 1 = 0 := by
      rw [and_one_eq_zero, UInt32.toNat_xor, Nat.testBit_xor, h, Bool.xor_self]
    rw [if_pos hzero, if_pos h]
  · have hone : ¬ (r ^^^ d) &&& 1 = 0 := by
      rw [and_one_eq_zero, UInt32.toNat_xor, Nat.testBit_xor]
      simpa using h
    rw [if_neg hone, if_neg h, hcomm]
    rfl

/-- After `k` steps the lowest `k` bits of the message have been taken. -/
theorem repeat_shift_xor (r d : UInt32) (k : Nat) :
    Nat.repeat shift k (r ^^^ d) =
      ((List.range k).map d.toNat.testBit).foldl clock r ^^^ UInt32.ofNat (d.toNat >>> k) := by
  induction k with
  | zero => simp [Nat.repeat]
  | succ k ih =>
    have hlt : d.toNat >>> k < UInt32.size := Nat.lt_of_le_of_lt (Nat.shiftRight_le _ _) d.toNat_lt
    have hval : (UInt32.ofNat (d.toNat >>> k)).toNat = d.toNat >>> k :=
      UInt32.toNat_ofNat_of_lt' hlt
    have hbit : (UInt32.ofNat (d.toNat >>> k)).toNat.testBit 0 = d.toNat.testBit k := by
      rw [hval, Nat.testBit_shiftRight, Nat.add_zero]
    have hrest : UInt32.ofNat (d.toNat >>> k) >>> 1 = UInt32.ofNat (d.toNat >>> (k + 1)) := by
      have hlt' : d.toNat >>> (k + 1) < UInt32.size :=
        Nat.lt_of_le_of_lt (Nat.shiftRight_le _ _) d.toNat_lt
      rw [← UInt32.toNat_inj, UInt32.toNat_shiftRight, hval, UInt32.toNat_ofNat_of_lt' hlt',
        Nat.shiftRight_add]
      rfl
    rw [Nat.repeat, ih, shift_xor, hbit, hrest, List.range_succ, List.map_append, List.foldl_append]
    rfl

theorem feed_eq_foldl_clock (r : UInt32) (b : UInt8) : feed r b = (lowFirst b).foldl clock r := by
  have hlt : b.toUInt32.toNat >>> 8 = 0 := by
    rw [UInt8.toNat_toUInt32, Nat.shiftRight_eq_div_pow]
    exact Nat.div_eq_of_lt b.toNat_lt
  rw [feed, repeat_shift_xor, hlt, UInt8.toNat_toUInt32, lowFirst]
  exact UInt32.xor_zero

theorem foldl_feed_eq_foldl_clock (bs : Bytes) (r : UInt32) :
    bs.foldl feed r = (bs.flatMap lowFirst).foldl clock r := by
  induction bs generalizing r with
  | nil => rfl
  | cons b bs ih =>
    rw [List.foldl_cons, ih, List.flatMap_cons, List.foldl_append, feed_eq_foldl_clock]

end Crc32

/-- The checksum of a message, bit by bit. -/
def crc32OfBits (bits : List Bool) : UInt32 :=
  bits.foldl Crc32.clock 0xFFFFFFFF ^^^ 0xFFFFFFFF

/-- **The checksum in one pass over the bits.** -/
theorem crc32_eq_crc32OfBits (bs : Bytes) : crc32 bs = crc32OfBits (bs.flatMap Crc32.lowFirst) := by
  rw [crc32OfBits, ← Crc32.foldl_feed_eq_foldl_clock]
  rfl

-- the check value that is commonly given for this checksum
example : crc32 [0x31, 0x32, 0x33, 0x34, 0x35, 0x36, 0x37, 0x38, 0x39] = 0xCBF43926 := by
  decide +kernel

end OtaPack
