/-
  Byte strings as streams of bits, the most significant bit of a byte first.

  * `bitsOf bs`: the bits of a byte string, and `fieldBits v n` those of a field of `n` bits, which
    `spell` puts together again (`spell_fieldBits`, `fieldBits_spell`);
  * `fieldBits_split`: a field may be cut in two;
  * `Writer.Holds w bits`: the bits that a writer has taken, with what its mask and its buffer have
    to be; kept by `putBit` and `putBits`;
  * `bitsOf_finish`: the bytes of a writer spell its bits, filled up with zeros;
  * `Reader.Awaits r bits`: the bits that a reader has left, of which `getBits?` takes the first
    (`Awaits.getBits?_field`) and no others (`Awaits.eq_of_getBits?`);
  * a field of up to 64 bits goes through a machine word unchanged; of more bits, a word that is
    read keeps the last 64 (`toNat_field`).
-/
import Mathlib.Algebra.Group.Nat.Defs
import OtaPack.Bits.Reader
import OtaPack.Bits.Writer

namespace OtaPack.Bits

/-! ## The bits of bytes and of fields -/

/-- The bits of a byte. -/
def byteBits (b : UInt8) : List Bool :=
  (List.range 8).map fun i => b.toNat.testBit (7 - i)

/-- The bits of a byte string. -/
def bitsOf (bs : Bytes) : List Bool :=
  bs.flatMap byteBits

/-- The lowest `n` bits of a number. -/
def fieldBits (v : Nat) : (n : Nat) → List Bool
  | 0 => []
  | n + 1 => v.testBit n :: fieldBits v n

/-- The number that some bits spell. -/
def spell : List Bool → Nat
  | [] => 0
  | b :: bits => b.toNat * 2 ^ bits.length + spell bits

@[simp] theorem length_byteBits (b : UInt8) : (byteBits b).length = 8 := by
  simp [byteBits]

@[simp] theorem bitsOf_nil : bitsOf [] = [] := rfl

@[simp] theorem bitsOf_cons (b : UInt8) (bs : Bytes) : bitsOf (b :: bs) = byteBits b ++ bitsOf bs :=
  rfl

@[simp] theorem bitsOf_append (as bs : Bytes) : bitsOf (as ++ bs) = bitsOf as ++ bitsOf bs :=
  List.flatMap_append

@[simp] theorem length_bitsOf (bs : Bytes) : (bitsOf bs).length = 8 * bs.length := by
  induction bs with
  | nil => rfl
  | cons b bs ih =>
    rw [bitsOf_cons, List.length_append, length_byteBits, ih, List.length_cons]
    omega

theorem getElem_byteBits {b : UInt8} {i : Nat} (h : i < (byteBits b).length) :
    (byteBits b)[i] = b.toNat.testBit (7 - i) := by
  simp [byteBits]

theorem take_byteBits {b : UInt8} {n : Nat} (hn : n ≤ 8) :
    (byteBits b).take n = (List.range n).map fun i => b.toNat.testBit (7 - i) := by
  rw [byteBits, ← List.map_take, List.take_range, Nat.min_eq_left hn]

/-- Bit number `i` of a byte string stands in byte number `i / 8`. -/
theorem getElem?_bitsOf {bs : Bytes} {i : Nat} (hi : i < 8 * bs.length) :
    (bitsOf bs)[i]? = some ((bs.getD (i / 8) 0).toNat.testBit (7 - i % 8)) := by
  induction bs generalizing i with
  | nil => simp at hi
  | cons b bs ih =>
    rw [bitsOf_cons]
    by_cases h : i < 8
    · have h₀ : i / 8 = 0 := Nat.div_eq_of_lt h
      have h₁ : i % 8 = i := Nat.mod_eq_of_lt h
      rw [List.getElem?_append_left (by simpa using h), h₀, h₁]
      simp [byteBits, h]
    · have hd : i / 8 = (i - 8) / 8 + 1 := by omega
      have hm : i % 8 = (i - 8) % 8 := by omega
      rw [List.getElem?_append_right (by simpa using h), length_byteBits,
        ih (by simp only [List.length_cons] at hi; omega), hd, hm, List.getD_cons_succ]

@[simp] theorem length_fieldBits (v n : Nat) : (fieldBits v n).length = n := by
  induction n with
  | zero => rfl
  | succ n ih => rw [fieldBits, List.length_cons, ih]

theorem spell_append_singleton (bits : List Bool) (b : Bool) :
    spell (bits ++ [b]) = 2 * spell bits + b.toNat := by
  induction bits with
  | nil => simp [spell]
  | cons a bits ih =>
    simp only [List.cons_append, spell, ih, List.length_append, List.length_singleton, Nat.pow_succ]
    rw [← Nat.mul_assoc]
    omega

theorem spell_lt (bits : List Bool) : spell bits < 2 ^ bits.length := by
  induction bits with
  | nil => simp [spell]
  | cons b bits ih =>
    have hb := Nat.mul_le_mul_right (2 ^ bits.length) (Bool.toNat_le b)
    rw [spell, List.length_cons, Nat.pow_succ]
    omega

theorem spell_fieldBits (v n : Nat) : spell (fieldBits v n) = v % 2 ^ n := by
  induction n with
  | zero => simp [fieldBits, spell, Nat.mod_one]
  | succ n ih =>
    rw [fieldBits, spell, length_fieldBits, ih, Nat.toNat_testBit, Nat.mod_pow_succ,
      Nat.mul_comm (v / 2 ^ n % 2), Nat.add_comm]

/-- Bits of one number are told apart by what they spell. -/
theorem eq_of_spell_eq {as bs : List Bool} (hlen : as.length = bs.length)
    (h : spell as = spell bs) : as = bs := by
  induction as generalizing bs with
  | nil => exact (List.eq_nil_of_length_eq_zero hlen.symm).symm
  | cons a as ih =>
    cases bs with
    | nil => cases hlen
    | cons b bs =>
      have hlen' : as.length = bs.length := Nat.succ.inj hlen
      have has := spell_lt as
      have hbs := spell_lt bs
      rw [spell, spell, hlen'] at h
      rw [hlen'] at has
      cases a <;> cases b <;> simp only [Bool.toNat_false, Bool.toNat_true] at h
      · rw [ih hlen' (by omega)]
      · omega
      · omega
      · rw [ih hlen' (by omega)]

theorem fieldBits_spell (bits : List Bool) : fieldBits (spell bits) bits.length = bits := by
  refine eq_of_spell_eq (length_fieldBits _ _) ?_
  rw [spell_fieldBits, Nat.mod_eq_of_lt (spell_lt bits)]

/-- Bits that are next spell a field, whatever they are. -/
theorem fieldBits_spell_take {bits : List Bool} {n : Nat} (hn : n ≤ bits.length) :
    spell (bits.take n) < 2 ^ n ∧ fieldBits (spell (bits.take n)) n = bits.take n := by
  have hlen : (bits.take n).length = n := List.length_take_of_le hn
  have hlt := spell_lt (bits.take n)
  have hfield := fieldBits_spell (bits.take n)
  rw [hlen] at hlt hfield
  exact ⟨hlt, hfield⟩

/-- A number of two parts is written as the one and then the other. -/
theorem fieldBits_append {low n : Nat} (h : low < 2 ^ n) (high m : Nat) :
    fieldBits (high * 2 ^ n + low) (m + n) = fieldBits high m ++ fieldBits low n := by
  induction m with
  | zero =>
    refine eq_of_spell_eq (by simp) ?_
    rw [Nat.zero_add, fieldBits, List.nil_append, spell_fieldBits, spell_fieldBits,
      Nat.mul_add_mod_self_right]
  | succ m ih =>
    rw [Nat.succ_add, fieldBits, fieldBits, ih, Nat.mul_comm, Nat.testBit_two_pow_mul_add _ h,
      if_neg (Nat.not_lt.2 (Nat.le_add_left n m)), Nat.add_sub_cancel, List.cons_append]

theorem fieldBits_split (v m n : Nat) :
    fieldBits v (m + n) = fieldBits (v / 2 ^ n) m ++ fieldBits (v % 2 ^ n) n := by
  rw [← fieldBits_append (Nat.mod_lt v (Nat.two_pow_pos n)), Nat.div_add_mod']

/-! ## Writing -/

/-- The writer `w` has taken the bits `bits`: the complete bytes and the upper part of the buffer
    spell them, the mask is the single bit after that part, and nothing stands from the mask on. -/
structure Writer.Holds (w : Writer) (bits : List Bool) : Prop where
  mask_eq : w.mask.toNat = 2 ^ (7 - bits.length % 8)
  clear : ∀ i ≤ 7 - bits.length % 8, w.buffer.toNat.testBit i = false
  bits_eq : bits = bitsOf w.out.toList ++ (byteBits w.buffer).take (bits.length % 8)

namespace Writer

theorem holds_empty : Holds ∅ [] where
  mask_eq := rfl
  clear i _ := Nat.zero_testBit i
  bits_eq := rfl

/-- The buffer with one more bit. -/
def filled (w : Writer) (b : Bool) : UInt8 :=
  if b then w.buffer ||| w.mask else w.buffer

/-- One more bit changes the buffer at the place of the mask only. -/
theorem testBit_filled {w : Writer} {bits : List Bool} (h : w.Holds bits) (b : Bool) (i : Nat) :
    (w.filled b).toNat.testBit i =
      if i = 7 - bits.length % 8 then b else w.buffer.toNat.testBit i := by
  have hclear := h.clear (7 - bits.length % 8) (Nat.le_refl _)
  cases b with
  | false =>
    by_cases hi : i = 7 - bits.length % 8
    · simp [filled, hi, hclear]
    · simp [filled, hi]
  | true =>
    by_cases hi : i = 7 - bits.length % 8
    · simp [filled, hi, h.mask_eq]
    · simp [filled, hi, Ne.symm hi, h.mask_eq]

theorem take_byteBits_filled {w : Writer} {bits : List Bool} (h : w.Holds bits) (b : Bool) :
    (byteBits (w.filled b)).take (bits.length % 8 + 1) =
      (byteBits w.buffer).take (bits.length % 8) ++ [b] := by
  have hlt : bits.length % 8 < 8 := Nat.mod_lt _ (by decide)
  rw [take_byteBits hlt, take_byteBits (Nat.le_of_lt hlt), List.range_succ, List.map_append,
    List.map_singleton, testBit_filled h, if_pos rfl]
  congr 1
  refine List.map_congr_left fun i hi => ?_
  have hi' := List.mem_range.1 hi
  rw [testBit_filled h, if_neg (by omega)]

theorem toNat_mask_shiftRight {w : Writer} {bits : List Bool} (h : w.Holds bits) :
    (w.mask >>> 1).toNat = 2 ^ (7 - bits.length % 8) / 2 := by
  rw [UInt8.toNat_shiftRight, h.mask_eq, UInt8.toNat_one, Nat.shiftRight_succ]
  rfl

/-- **One more bit.** -/
theorem Holds.putBit {w : Writer} {bits : List Bool} (h : w.Holds bits) (b : Bool) :
    (w.putBit b).Holds (bits ++ [b]) := by
  have hlt : bits.length % 8 < 8 := Nat.mod_lt _ (by decide)
  have hmask := toNat_mask_shiftRight h
  have hput : w.putBit b = if w.mask >>> 1 = 0 then ⟨w.out.push (w.filled b), 0, 0x80⟩
      else ⟨w.out, w.filled b, w.mask >>> 1⟩ := rfl
  have hbits : bits ++ [b] =
      bitsOf w.out.toList ++ (byteBits (w.filled b)).take (bits.length % 8 + 1) := by
    rw [take_byteBits_filled h, ← List.append_assoc, ← h.bits_eq]
  by_cases hfull : bits.length % 8 = 7
  · -- the byte is complete
    have hzero : w.mask >>> 1 = 0 := UInt8.toNat_inj.1 (by rw [hmask, hfull]; rfl)
    have hlen : (bits ++ [b]).length % 8 = 0 := by
      rw [List.length_append, List.length_singleton]; omega
    rw [hput, if_pos hzero]
    constructor
    · rw [hlen]
      rfl
    · intro i _
      exact Nat.zero_testBit i
    · rw [hlen, List.take_zero, List.append_nil, hbits, hfull, Array.toList_push, bitsOf_append,
        List.take_of_length_le (by simp)]
      simp
  · -- there is room for more bits
    have hpow : 2 ^ (7 - bits.length % 8) = 2 * 2 ^ (7 - (bits.length % 8 + 1)) := by
      rw [← Nat.pow_succ']; congr 1; omega
    have hmask' : (w.mask >>> 1).toNat = 2 ^ (7 - (bits.length % 8 + 1)) := by
      rw [hmask, hpow, Nat.mul_div_cancel_left _ (by decide)]
    have hpos : w.mask >>> 1 ≠ 0 := by
      intro h0
      rw [h0] at hmask'
      exact absurd hmask'.symm (Nat.ne_of_gt (Nat.two_pow_pos _))
    have hlen : (bits ++ [b]).length % 8 = bits.length % 8 + 1 := by
      rw [List.length_append, List.length_singleton]; omega
    rw [hput, if_neg hpos]
    constructor
    · rw [hlen]
      exact hmask'
    · intro i hi
      rw [hlen] at hi
      rw [testBit_filled h, if_neg (by omega)]
      exact h.clear i (by omega)
    · rw [hlen]
      exact hbits

/-- **One more field**, of no more bits than a word has. -/
theorem Holds.putBits {w : Writer} {bits : List Bool} {n : Nat} (h : w.Holds bits) (hn : n ≤ 64)
    (v : UInt64) : (w.putBits v n).Holds (bits ++ fieldBits v.toNat n) := by
  induction n generalizing w bits with
  | zero => rw [fieldBits, List.append_nil]; exact h
  | succ n ih =>
    rw [putBits_succ, Nat.mod_eq_of_lt hn, fieldBits, List.append_cons]
    exact ih (h.putBit _) (Nat.le_of_succ_le hn)

/-- **The bytes of a writer.**  They spell its bits and then less than a byte of zeros. -/
theorem bitsOf_finish {w : Writer} {bits : List Bool} (h : w.Holds bits) :
    ∃ n < 8, bitsOf w.finish = bits ++ List.replicate n false := by
  have hlt : bits.length % 8 < 8 := Nat.mod_lt _ (by decide)
  have hmask : w.mask = 0x80 ↔ bits.length % 8 = 0 := by
    rw [← UInt8.toNat_inj, h.mask_eq]
    show 2 ^ (7 - bits.length % 8) = 2 ^ 7 ↔ _
    rw [Nat.pow_right_inj (by decide)]
    omega
  by_cases h0 : bits.length % 8 = 0
  · refine ⟨0, by decide, ?_⟩
    have hbits := h.bits_eq
    rw [h0, List.take_zero, List.append_nil] at hbits
    rw [finish, if_pos (hmask.2 h0), ← hbits, List.replicate_zero, List.append_nil]
  · refine ⟨8 - bits.length % 8, by omega, ?_⟩
    have hrest : (byteBits w.buffer).drop (bits.length % 8) =
        List.replicate (8 - bits.length % 8) false := by
      refine List.eq_replicate_iff.2 ⟨by simp, ?_⟩
      intro b hb
      obtain ⟨i, hi, rfl⟩ := List.mem_iff_getElem.1 hb
      simp only [List.length_drop, length_byteBits] at hi
      rw [List.getElem_drop, getElem_byteBits]
      exact h.clear _ (by omega)
    rw [finish, if_neg fun hm => h0 (hmask.1 hm), Array.toList_push, bitsOf_append, bitsOf_cons,
      bitsOf_nil, List.append_nil, ← List.take_append_drop (bits.length % 8) (byteBits w.buffer),
      ← List.append_assoc, ← h.bits_eq, hrest]

end Writer

/-! ## Reading -/

namespace Reader

/-- The reader `r` has the bits `bits` left. -/
structure Awaits (r : Reader) (bits : List Bool) : Prop where
  cursor_le : r.cursor ≤ r.size
  drop_eq : (bitsOf r.input.toList).drop r.cursor = bits

theorem awaits_ofBytes (bs : Bytes) : (ofBytes bs).Awaits (bitsOf bs) :=
  ⟨Nat.zero_le _, by simp [ofBytes]⟩

theorem Awaits.remaining_eq {r : Reader} {bits : List Bool} (h : r.Awaits bits) :
    r.remaining = bits.length := by
  rw [← h.drop_eq, List.length_drop, length_bitsOf]
  rfl

theorem toNat_field {r : Reader} {i n : Nat} (h : i + n ≤ r.size) :
    (r.field i n).toNat = spell (((bitsOf r.input.toList).drop i).take n) % UInt64.size := by
  induction n with
  | zero => rfl
  | succ n ih =>
    have hlt : i + n < 8 * r.input.toList.length := by
      simp only [size, Array.length_toList] at h ⊢
      omega
    have hnext : ((bitsOf r.input.toList).drop i).take (n + 1) =
        ((bitsOf r.input.toList).drop i).take n ++ [r.bit (i + n)] := by
      rw [List.take_add_one, List.getElem?_drop, getElem?_bitsOf hlt]
      simp [bit]
    rw [toNat_field_succ, ih (by omega), hnext, spell_append_singleton]
    simp only [UInt64.size]
    omega

/-- **Bits that are left are read.** -/
theorem Awaits.getBits? {r : Reader} {bits : List Bool} (h : r.Awaits bits) {n : Nat}
    (hn : n ≤ bits.length) :
    ∃ v r', r.getBits? n = some (v, r') ∧ v.toNat = spell (bits.take n) % UInt64.size ∧
      r'.Awaits (bits.drop n) := by
  have hle : r.cursor + n ≤ r.size := by
    have hr := h.remaining_eq
    have hc := h.cursor_le
    simp only [remaining] at hr
    omega
  refine ⟨_, _, getBits?_eq_some.2 ⟨hle, rfl, rfl⟩, ?_, hle, ?_⟩
  · rw [toNat_field hle, h.drop_eq]
  · rw [← h.drop_eq, List.drop_drop]

/-- **A field that is next is read.** -/
theorem Awaits.getBits?_field {r : Reader} {v : UInt64} {n : Nat} {more : List Bool}
    (h : r.Awaits (fieldBits v.toNat n ++ more)) (hv : v.toNat < 2 ^ n) :
    ∃ r', r.getBits? n = some (v, r') ∧ r'.Awaits more := by
  obtain ⟨v', r', hr, hv', hr'⟩ := h.getBits? (n := n) (by simp)
  rw [List.take_left' (length_fieldBits v.toNat n), spell_fieldBits, Nat.mod_eq_of_lt hv,
    Nat.mod_eq_of_lt v.toNat_lt_size, UInt64.toNat_inj] at hv'
  rw [List.drop_left' (length_fieldBits v.toNat n)] at hr'
  rw [hv'] at hr
  exact ⟨r', hr, hr'⟩

/-- Up to 64 bits that are next are spelled by the word that is read. -/
theorem toNat_eq_spell {bits : List Bool} {n : Nat} {v : UInt64} (hn : n ≤ 64)
    (hle : n ≤ bits.length) (hv : v.toNat = spell (bits.take n) % UInt64.size) :
    v.toNat < 2 ^ n ∧ fieldBits v.toNat n = bits.take n := by
  obtain ⟨hlt, hfield⟩ := fieldBits_spell_take hle
  have hword : spell (bits.take n) < UInt64.size :=
    Nat.lt_of_lt_of_le hlt (Nat.pow_le_pow_right (by decide) hn)
  rw [hv, Nat.mod_eq_of_lt hword]
  exact ⟨hlt, hfield⟩

/-- **What has been read was next.** -/
theorem Awaits.eq_of_getBits? {r r' : Reader} {bits : List Bool} {n : Nat} {v : UInt64}
    (h : r.Awaits bits) (hn : n ≤ 64) (hr : r.getBits? n = some (v, r')) :
    v.toNat < 2 ^ n ∧ ∃ more, bits = fieldBits v.toNat n ++ more ∧ r'.Awaits more := by
  have hle : n ≤ bits.length := by
    rw [← h.remaining_eq, ← remaining_of_getBits? hr]
    exact Nat.le_add_left _ _
  obtain ⟨v₁, r₁, hr₁, hv, h₁⟩ := h.getBits? hle
  rw [hr] at hr₁
  cases hr₁
  obtain ⟨hlt, hfield⟩ := toNat_eq_spell hn hle hv
  exact ⟨hlt, _, by rw [hfield, List.take_append_drop], h₁⟩

end Reader

end OtaPack.Bits
