/-
  Writing and reading bits with a check at each step.

  * `Writer.checkedPutBits`: the lowest bits of a word are written, and each shift is checked;
    `checkedPutBits_of_le`, `checkedPutBits_of_lt`: no check fails for up to 64 bits, and the first
    one for more;
  * `checkedBits`, `checkedGetBits`: the next bits as a number, in which every index, sum and shift
    is checked, and after each bit that the cursor has not passed the last one;
  * `field_lt`: a field of `n` bits is below `2 ^ n`;
  * `remaining_of_checkedGetBits`: such a read takes bits away;
  * `checkedGetBits_eq`: no check fails for up to 64 bits, and the number is that of the reader.
-/
import Mathlib.Algebra.Group.Nat.Defs
import OtaPack.Bits.Reader
import OtaPack.Bits.Writer
import OtaPack.Proofs.Checked

namespace OtaPack.Bits

open Checked

/-! ## Writing -/

namespace Writer

/-- Writes the lowest `n` bits of `value`, the highest of them first. -/
def checkedPutBits (w : Writer) (value : UInt64) : (n : Nat) → Checked Writer
  | 0 => .ok w
  | n + 1 => do
    let shifted ← shiftRight value n
    checkedPutBits (w.putBit (shifted &&& 1 != 0)) value n

/-- No check fails for the bits that a word has. -/
theorem checkedPutBits_of_le {n : Nat} (hn : n ≤ 64) (w : Writer) (value : UInt64) :
    w.checkedPutBits value n = .ok (w.putBits value n) := by
  induction n generalizing w with
  | zero => rfl
  | succ n ih =>
    rw [checkedPutBits, shiftRight_of_lt hn, ok_bind, ih (Nat.le_of_succ_le hn), putBits]

/-- A word has no more bits. -/
theorem checkedPutBits_of_lt {n : Nat} (hn : 64 < n) (w : Writer) (value : UInt64) :
    w.checkedPutBits value n = .error .shift := by
  obtain ⟨n, rfl⟩ := Nat.exists_eq_add_one_of_ne_zero (Nat.ne_zero_of_lt hn)
  have hshift : shiftRight value n = .error .shift := if_neg (by omega)
  rw [checkedPutBits, hshift]
  rfl

end Writer

/-! ## Reading -/

namespace Reader

section
variable (size : Nat)

/-- Moves `n` more bits to the end of `value`. -/
def checkedBits (input : Array UInt8) (cursor value : Nat) : (n : Nat) → Checked (Nat × Nat)
  | 0 => .ok (value, cursor)
  | n + 1 => do
    let byte ← index input (cursor / 8)
    let bit := (byte.toNat >>> (← minus 7 (cursor % 8))) &&& 1
    let value ← word size (value <<< 1 ||| bit)
    let cursor ← upTo (8 * input.size) (← word size (cursor + 1))
    checkedBits input cursor value n

/-- The number of the next `n` bits, or nothing if fewer are left. -/
def checkedGetBits (r : Reader) (n : Nat) : Checked (Option (Nat × Reader)) := do
  let last ← word size (r.cursor + n)
  let all ← word size (8 * r.input.size)
  if all < last then return none
  else
    let (value, cursor) ← checkedBits size r.input r.cursor 0 n
    return some (value, { r with cursor })

end

variable {size : Nat} {r r' : Reader} {n : Nat}

theorem cursor_of_checkedBits {input : Array UInt8} {cursor value : Nat} {result : Nat × Nat}
    (h : checkedBits size input cursor value n = .ok result) : result.2 = cursor + n := by
  induction n generalizing cursor value with
  | zero =>
    cases h
    rfl
  | succ n ih =>
    obtain ⟨byte, -, h⟩ := exists_of_bind_eq_ok h
    obtain ⟨shift, -, h⟩ := exists_of_bind_eq_ok h
    obtain ⟨value, -, h⟩ := exists_of_bind_eq_ok h
    obtain ⟨next, hnext, h⟩ := exists_of_bind_eq_ok h
    obtain ⟨cursor', hcursor, h⟩ := exists_of_bind_eq_ok h
    obtain rfl := eq_of_word hnext
    obtain rfl := eq_of_upTo hcursor
    rw [ih h, Nat.add_right_comm, Nat.add_assoc]

/-- A read leaves fewer bits. -/
theorem remaining_of_checkedGetBits {v : Nat} (h : checkedGetBits size r n = .ok (some (v, r'))) :
    r'.remaining + n = r.remaining := by
  obtain ⟨last, hlast, h⟩ := exists_of_bind_eq_ok h
  obtain ⟨all, hall, h⟩ := exists_of_bind_eq_ok h
  obtain rfl := eq_of_word hlast
  obtain rfl := eq_of_word hall
  split at h
  · cases h
  · rename_i hle
    obtain ⟨⟨value, cursor⟩, hbits, h⟩ := exists_of_bind_eq_ok h
    have hcursor := cursor_of_checkedBits hbits
    cases h
    simp only [remaining, Reader.size] at *
    omega

theorem field_lt (r : Reader) (i n : Nat) : (r.field i n).toNat < 2 ^ n := by
  induction n with
  | zero => exact Nat.one_pos
  | succ n ih =>
    have hbit : (r.bit (i + n)).toNat < 2 := Bool.toNat_lt _
    rw [toNat_field_succ, pow_succ]
    exact Nat.lt_of_le_of_lt (Nat.mod_le _ _) (by omega)

/-- What a read gives, and where it leaves the reader. -/
theorem bounds_of_getBits? {v : UInt64} (h : r.getBits? n = some (v, r')) :
    v.toNat < 2 ^ n ∧ r'.input = r.input ∧ r'.cursor ≤ r'.size := by
  obtain ⟨hle, rfl, rfl⟩ := getBits?_eq_some.1 h
  exact ⟨r.field_lt r.cursor n, rfl, hle⟩

/-- A field with its next bit, as long as both fit into a word. -/
theorem field_shiftLeft_or (r : Reader) (i : Nat) (hn : n < 64) :
    (r.field i n).toNat <<< 1 |||
        (((r.input.getD ((i + n) / 8) 0).toNat >>> (7 - (i + n) % 8)) &&& 1) =
      (r.field i (n + 1)).toNat := by
  have hbit : ((r.input.getD ((i + n) / 8) 0).toNat >>> (7 - (i + n) % 8)) &&& 1 =
      (r.bit (i + n)).toNat := by
    rw [bit, Nat.toNat_testBit, Nat.shiftRight_eq_div_pow, Nat.and_one_is_mod]
  have hlt : (r.bit (i + n)).toNat < 2 ^ 1 := Bool.toNat_lt _
  have hword : (r.field i n).toNat < 2 ^ 63 :=
    Nat.lt_of_lt_of_le (r.field_lt i n) (Nat.pow_le_pow_right (by decide) (Nat.le_of_lt_succ hn))
  rw [hbit, ← Nat.shiftLeft_add_eq_or_of_lt hlt, Nat.shiftLeft_eq, toNat_field_succ]
  simp only [UInt64.size]
  omega

theorem checkedBits_eq {i k : Nat} (hle : i + (k + n) ≤ r.size) (hsize : r.size < size)
    (hvalue : 2 ^ (k + n) ≤ size) (hn : k + n ≤ 64) :
    checkedBits size r.input (i + k) (r.field i k).toNat n =
      .ok ((r.field i (k + n)).toNat, i + (k + n)) := by
  induction n generalizing k with
  | zero => rfl
  | succ n ih =>
    have hinput : r.size = 8 * r.input.size := rfl
    have hlt : (r.field i (k + 1)).toNat < size :=
      Nat.lt_of_lt_of_le (r.field_lt i (k + 1))
        (Nat.le_trans (Nat.pow_le_pow_right (by decide) (by omega)) hvalue)
    have hbyte : (i + k) / 8 < r.input.size := by omega
    have hshift : (i + k) % 8 ≤ 7 := by omega
    have hnext : k + (n + 1) = k + 1 + n := by omega
    have hcursor : i + k + 1 < size := by omega
    have hlast : i + k + 1 ≤ 8 * r.input.size := by omega
    have hk : k < 64 := by omega
    rw [checkedBits, index_of_lt hbyte, minus_of_le hshift]
    simp only [ok_bind, field_shiftLeft_or r i hk, word_of_lt hlt, word_of_lt hcursor,
      upTo_of_le hlast]
    rw [hnext] at hvalue hn ⊢
    exact ih (by omega) hvalue hn

/-- **No check fails** for the bits that a word has, and the number is that of the reader. -/
theorem checkedGetBits_eq (hn : n ≤ 64) (hcursor : r.cursor ≤ r.size)
    (hsize : r.size + 2 ^ n ≤ size) :
    checkedGetBits size r n = .ok ((r.getBits? n).map fun (v, r) => (v.toNat, r)) := by
  have hlt : n < 2 ^ n := Nat.lt_two_pow_self
  have hall : 8 * r.input.size = r.size := rfl
  rw [checkedGetBits, word_of_lt (by omega), hall, word_of_lt (by omega)]
  simp only [ok_bind]
  by_cases hle : r.cursor + n ≤ r.size
  · have hbits : checkedBits size r.input (r.cursor + 0) (r.field r.cursor 0).toNat n =
        .ok ((r.field r.cursor (0 + n)).toNat, r.cursor + (0 + n)) :=
      checkedBits_eq (by omega) (by omega) (by rw [Nat.zero_add]; omega) (by omega)
    rw [Nat.zero_add] at hbits
    rw [if_neg (Nat.not_lt_of_le hle), getBits?, if_pos hle]
    show (checkedBits size r.input (r.cursor + 0) (r.field r.cursor 0).toNat n >>= _) = _
    rw [hbits]
    rfl
  · rw [if_pos (Nat.lt_of_not_le hle), getBits?, if_neg hle]
    rfl

end Reader

end OtaPack.Bits
