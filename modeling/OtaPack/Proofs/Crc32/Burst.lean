/-
  What the checksum tells apart.

  * `shift_injective`, `feed_injective`, `foldl_feed_injective`: nothing of the register is lost on
    its way, so a difference lasts to the end of the message;
  * `eq_of_foldl_clock`: up to 32 bits of a message can be told from the register after them;
  * `crc32_burst`: messages that differ at most in four bytes in a row, wherever they stand, have
    different checksums.
-/
import Mathlib.Data.Nat.Bitwise
import OtaPack.Proofs.Crc32.Bitwise

namespace OtaPack

namespace Crc32

/-! ## The register -/

/-- The bits after a step: those above, and the generator's if a bit falls out. -/
theorem testBit_shift (r : UInt32) (i : Nat) :
    (shift r).toNat.testBit i =
      (r.toNat.testBit (i + 1) ^^ (r.toNat.testBit 0 && polynomial.toNat.testBit i)) := by
  have hdown : (r >>> 1).toNat.testBit i = r.toNat.testBit (i + 1) := by
    rw [UInt32.toNat_shiftRight, Nat.testBit_shiftRight]
    exact congrArg r.toNat.testBit (Nat.add_comm 1 i)
  rw [shift]
  by_cases h : r.toNat.testBit 0 = false
  · rw [if_pos ((and_one_eq_zero r).2 h), hdown, h, Bool.false_and, Bool.xor_false]
  · rw [if_neg (mt (and_one_eq_zero r).1 h), UInt32.toNat_xor, Nat.testBit_xor, hdown,
      eq_true_of_ne_false h, Bool.true_and]

/-- The highest bit after a step is the one that fell out. -/
theorem testBit_shift_top (r : UInt32) : (shift r).toNat.testBit 31 = r.toNat.testBit 0 := by
  have hnone : r.toNat.testBit 32 = false := Nat.testBit_lt_two_pow r.toNat_lt
  have htop : polynomial.toNat.testBit 31 = true := by decide
  rw [testBit_shift, hnone, htop, Bool.and_true, Bool.false_xor]

theorem shift_injective : Function.Injective shift := by
  intro r r' h
  have hlow : r.toNat.testBit 0 = r'.toNat.testBit 0 := by
    rw [← testBit_shift_top, h, testBit_shift_top]
  rw [← UInt32.toNat_inj]
  refine Nat.eq_of_testBit_eq fun i => ?_
  cases i with
  | zero => exact hlow
  | succ i =>
    have hbit : (shift r).toNat.testBit i = (shift r').toNat.testBit i := by rw [h]
    rw [testBit_shift, testBit_shift, hlow] at hbit
    exact Bool.xor_left_inj.1 hbit

theorem repeat_shift_injective (k : Nat) : Function.Injective (Nat.repeat shift k) := by
  induction k with
  | zero => exact Function.injective_id
  | succ k ih => exact shift_injective.comp ih

theorem feed_injective (b : UInt8) : Function.Injective fun r => feed r b := by
  intro r r' h
  exact (UInt32.xor_left_inj _).1 (repeat_shift_injective 8 h)

/-- A difference of the register lasts. -/
theorem foldl_feed_injective (bs : Bytes) : Function.Injective fun r => bs.foldl feed r := by
  induction bs with
  | nil => exact Function.injective_id
  | cons b bs ih => exact ih.comp (feed_injective b)

/-! ## Few bits of a message -/

/-- Up to 32 bits as the lowest ones of a word. -/
theorem exists_word (bits : List Bool) (h : bits.length ≤ 32) :
    ∃ d : UInt32, d.toNat >>> bits.length = 0 ∧
      (List.range bits.length).map d.toNat.testBit = bits := by
  have hlt : Nat.ofBits bits.get < 2 ^ bits.length := Nat.ofBits_lt_two_pow _
  have hword : (UInt32.ofNat (Nat.ofBits bits.get)).toNat = Nat.ofBits bits.get :=
    UInt32.toNat_ofNat_of_lt' (Nat.lt_of_lt_of_le hlt (Nat.pow_le_pow_right (by decide) h))
  refine ⟨UInt32.ofNat (Nat.ofBits bits.get), ?_, ?_⟩
  · rw [hword, Nat.shiftRight_eq_div_pow, Nat.div_eq_of_lt hlt]
  · refine List.ext_getElem (by simp) fun i hi hi' => ?_
    rw [List.getElem_map, List.getElem_range, hword, Nat.testBit_ofBits_lt _ _ hi']
    rfl

/-- Up to 32 bits of a message can be told from the register after them. -/
theorem eq_of_foldl_clock {r : UInt32} {bits bits' : List Bool}
    (hlen : bits.length = bits'.length) (hle : bits.length ≤ 32)
    (h : bits.foldl clock r = bits'.foldl clock r) : bits = bits' := by
  obtain ⟨d, hd, hbits⟩ := exists_word bits hle
  obtain ⟨d', hd', hbits'⟩ := exists_word bits' (hlen ▸ hle)
  have hall := repeat_shift_xor r d bits.length
  have hall' := repeat_shift_xor r d' bits'.length
  rw [hbits, hd] at hall
  rw [hbits', hd', ← h, ← hall, ← hlen] at hall'
  have hword : d' = d := (UInt32.xor_right_inj r).1 (repeat_shift_injective _ hall')
  rw [← hbits, ← hbits', hword, hlen]

theorem length_lowFirst (b : UInt8) : (lowFirst b).length = 8 := by
  simp [lowFirst]

theorem lowFirst_injective : Function.Injective lowFirst := by
  intro b b' h
  rw [← UInt8.toNat_inj]
  refine Nat.eq_of_testBit_eq fun i => ?_
  by_cases hi : i < 8
  · have hbit := congrArg (fun bits => bits[i]?) h
    simpa [lowFirst, hi] using hbit
  · have hle : 2 ^ 8 ≤ 2 ^ i := Nat.pow_le_pow_right (by decide) (Nat.not_lt.1 hi)
    rw [Nat.testBit_lt_two_pow (Nat.lt_of_lt_of_le b.toNat_lt hle),
      Nat.testBit_lt_two_pow (Nat.lt_of_lt_of_le b'.toNat_lt hle)]

theorem length_flatMap_lowFirst (bs : Bytes) : (bs.flatMap lowFirst).length = 8 * bs.length := by
  induction bs with
  | nil => rfl
  | cons b bs ih =>
    rw [List.flatMap_cons, List.length_append, length_lowFirst, ih, List.length_cons]
    omega

theorem flatMap_lowFirst_injective {as bs : Bytes} (hlen : as.length = bs.length)
    (h : as.flatMap lowFirst = bs.flatMap lowFirst) : as = bs := by
  induction as generalizing bs with
  | nil => exact (List.eq_nil_of_length_eq_zero hlen.symm).symm
  | cons a as ih =>
    cases bs with
    | nil => cases hlen
    | cons b bs =>
      rw [List.flatMap_cons, List.flatMap_cons] at h
      obtain ⟨hfirst, hrest⟩ := List.append_inj h (by rw [length_lowFirst, length_lowFirst])
      rw [lowFirst_injective hfirst, ih (Nat.succ.inj hlen) hrest]

/-- Up to four bytes of a message can be told from the register after them. -/
theorem eq_of_foldl_feed {r : UInt32} {as bs : Bytes} (hlen : as.length = bs.length)
    (hle : as.length ≤ 4) (h : as.foldl feed r = bs.foldl feed r) : as = bs := by
  rw [foldl_feed_eq_foldl_clock, foldl_feed_eq_foldl_clock] at h
  refine flatMap_lowFirst_injective hlen (eq_of_foldl_clock ?_ ?_ h)
  · rw [length_flatMap_lowFirst, length_flatMap_lowFirst, hlen]
  · rw [length_flatMap_lowFirst]
    omega

end Crc32

/-- **Bursts.**  Four bytes in a row can be told from the checksum, if all others are known. -/
theorem crc32_burst {front as bs back : Bytes} (hlen : as.length = bs.length)
    (hle : as.length ≤ 4) (h : crc32 (front ++ as ++ back) = crc32 (front ++ bs ++ back)) :
    as = bs := by
  simp only [crc32, Crc32.value, Crc32.update, List.foldl_append] at h
  have hregister := Crc32.foldl_feed_injective back ((UInt32.xor_left_inj _).1 h)
  exact Crc32.eq_of_foldl_feed hlen hle hregister

end OtaPack
