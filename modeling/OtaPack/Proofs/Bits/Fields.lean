/-
  Fields that are written, and read, one after the other.

  * `Field`: a machine word and the bits it is written with, which are enough for it and no more
    than a word has;
  * `Writer.putFields w fs`: the fields `fs` are written in turn; `holds_putFields`: their bits;
    `checkedPutFields_eq`: no shift on the way goes past the word;
  * `Writer.Between w`: how a writer is left between two fields; `Holds.finish`: the bytes of a
    writer are as many as its bits need;
  * `Reader.ask r n`: a call for the next `n` bits on a reader that is kept, with its answer, and
    `Reader.askAll r ns`: several calls in turn;
  * `Awaits.ask`: how any call ends; `Awaits.askAll_fields`: fields that are next are answered in
    turn; `Within bs r`: the reader is somewhere in the bits of `bs`, and calls keep it there;
  * `fields_in_turn`: all of it, from the first field that is written to any call for bits;
    `sixty_five_bits`: why a field has no more than 64.
-/
import Mathlib
import OtaPack.Proofs.Bits.Checked
import OtaPack.Proofs.Bits.Stream

namespace OtaPack.Bits

/-- A word that is written with `width` bits. -/
structure Field where
  width : Nat
  value : UInt64
  /-- A word has no more bits. -/
  width_le : width ≤ 64
  value_lt : value.toNat < 2 ^ width

/-- The bits of a field. -/
def Field.bits (f : Field) : List Bool :=
  fieldBits f.value.toNat f.width

variable {bits : List Bool}

theorem length_flatMap_bits (fs : List Field) :
    (fs.flatMap Field.bits).length = (fs.map Field.width).sum := by
  simp only [List.length_flatMap, Field.bits, length_fieldBits]

/-! ## Writing -/

namespace Writer

variable {w : Writer}

/-- The fields are written in turn. -/
def putFields (w : Writer) (fs : List Field) : Writer :=
  fs.foldl (fun w f => w.putBits f.value f.width) w

/-- The fields are written in turn, and each shift is checked. -/
def checkedPutFields (w : Writer) (fs : List Field) : Checked Writer :=
  fs.foldlM (fun w f => w.checkedPutBits f.value f.width) w

/-- Between two fields the mask is a single bit, and at its place and below it nothing stands in the
    buffer. -/
def Between (w : Writer) : Prop :=
  ∃ i < 8, w.mask.toNat = 2 ^ i ∧ ∀ j ≤ i, w.buffer.toNat.testBit j = false

theorem holds_putFields (h : w.Holds bits) (fs : List Field) :
    (w.putFields fs).Holds (bits ++ fs.flatMap Field.bits) := by
  induction fs generalizing w bits with
  | nil =>
    rw [List.flatMap_nil, List.append_nil]
    exact h
  | cons f fs ih =>
    rw [List.flatMap_cons, ← List.append_assoc]
    exact ih (h.putBits f.width_le f.value)

/-- No check fails. -/
theorem checkedPutFields_eq (w : Writer) (fs : List Field) :
    w.checkedPutFields fs = .ok (w.putFields fs) := by
  induction fs generalizing w with
  | nil => rfl
  | cons f fs ih =>
    rw [checkedPutFields, List.foldlM_cons, checkedPutBits_of_le f.width_le, ok_bind]
    exact ih _

theorem Holds.between (h : w.Holds bits) : w.Between := by
  have hlt : 7 - bits.length % 8 < 8 := by omega
  exact ⟨_, hlt, h.mask_eq, h.clear⟩

/-- The bytes are as many as the bits need, and zeros fill up the last one. -/
theorem Holds.finish (h : w.Holds bits) :
    w.finish.length = bits.length ⌈/⌉ 8 ∧
      bitsOf w.finish =
        bits ++ List.replicate (8 * (bits.length ⌈/⌉ 8) - bits.length) false := by
  obtain ⟨n, hn, hbits⟩ := bitsOf_finish h
  have hlength := congrArg List.length hbits
  rw [length_bitsOf, List.length_append, List.length_replicate] at hlength
  have hbytes : w.finish.length = bits.length ⌈/⌉ 8 := by
    rw [Nat.ceilDiv_eq_add_pred_div]
    omega
  have hzeros : 8 * (bits.length ⌈/⌉ 8) - bits.length = n := by
    rw [← hbytes]
    omega
  exact ⟨hbytes, by rw [hzeros, hbits]⟩

end Writer

/-! ## Reading -/

namespace Reader

variable {r : Reader} {n : Nat}

/-- A call for the next `n` bits: the answer, and the reader after it.  A reader that has too few
    bits left stays as it is. -/
def ask (r : Reader) (n : Nat) : Option UInt64 × Reader :=
  match r.getBits? n with
  | some (v, r') => (some v, r')
  | none => (none, r)

/-- Calls in turn, each on the reader that the one before has left. -/
def askAll (r : Reader) : List Nat → List (Option UInt64) × Reader
  | [] => ([], r)
  | n :: ns => ((r.ask n).1 :: ((r.ask n).2.askAll ns).1, ((r.ask n).2.askAll ns).2)

/-- A field that is next is answered. -/
theorem Awaits.ask_field {f : Field} {more : List Bool} (h : r.Awaits (f.bits ++ more)) :
    ∃ r', r.ask f.width = (some f.value, r') ∧ r'.Awaits more := by
  obtain ⟨r', hr', hmore⟩ := h.getBits?_field f.value_lt
  exact ⟨r', by rw [ask, hr'], hmore⟩

/-- Fields that are next are answered in turn. -/
theorem Awaits.askAll_fields {fs : List Field} {more : List Bool}
    (h : r.Awaits (fs.flatMap Field.bits ++ more)) :
    (r.askAll (fs.map Field.width)).1 = fs.map (fun f => some f.value) ∧
      (r.askAll (fs.map Field.width)).2.Awaits more := by
  induction fs generalizing r with
  | nil => exact ⟨rfl, h⟩
  | cons f fs ih =>
    rw [List.flatMap_cons, List.append_assoc] at h
    obtain ⟨r', hask, hmore⟩ := h.ask_field
    obtain ⟨hanswers, hlast⟩ := ih hmore
    rw [List.map_cons, List.map_cons, askAll, hask]
    exact ⟨congrArg _ hanswers, hlast⟩

/-- **A call for bits** is answered if they are left, and otherwise leaves the reader as it is. -/
theorem Awaits.ask (h : r.Awaits bits) (n : Nat) :
    if n ≤ bits.length then
      ∃ v, r.ask n = (some v, { r with cursor := r.cursor + n }) ∧
        v.toNat = spell (bits.take n) % UInt64.size ∧ (r.ask n).2.Awaits (bits.drop n)
    else r.ask n = (none, r) := by
  split_ifs with hn
  · obtain ⟨v, r', hr', hv, hdrop⟩ := h.getBits? hn
    have hask : r.ask n = (some v, r') := by rw [Reader.ask, hr']
    obtain ⟨-, -, rfl⟩ := getBits?_eq_some.1 hr'
    rw [hask]
    exact ⟨v, rfl, hv, hdrop⟩
  · have hnone : r.getBits? n = none := by
      have hremaining := h.remaining_eq
      rw [remaining] at hremaining
      exact getBits?_eq_none.2 (by omega)
    rw [Reader.ask, hnone]

/-- The reader has come to some place in the bits of `bs`. -/
structure Within (bs : Bytes) (r : Reader) : Prop where
  input_eq : r.input = bs.toArray
  cursor_le : r.cursor ≤ r.size

theorem within_ofBytes (bs : Bytes) : Within bs (ofBytes bs) :=
  ⟨rfl, Nat.zero_le _⟩

variable {bs : Bytes}

theorem Within.awaits (h : Within bs r) : r.Awaits ((bitsOf bs).drop r.cursor) :=
  ⟨h.cursor_le, by rw [h.input_eq]⟩

theorem Within.ask (h : Within bs r) (n : Nat) : Within bs (r.ask n).2 := by
  have hask := h.awaits.ask n
  split_ifs at hask
  · obtain ⟨v, hask, -, hdrop⟩ := hask
    refine ⟨?_, hdrop.cursor_le⟩
    rw [hask]
    exact h.input_eq
  · rw [hask]
    exact h

theorem Within.askAll (h : Within bs r) (ns : List Nat) : Within bs (r.askAll ns).2 := by
  induction ns generalizing r with
  | nil => exact h
  | cons n ns ih => exact ih (h.ask n)

end Reader

/-! ## Writing and reading -/

/-- **Fields in turn.**  The bytes of fields that have been written are as many as the bits need,
    and spell these bits in order and then zeros; no shift on the way is by more bits than a word
    has.  Calls with the same widths are answered by the same words.  Whatever the bytes are and
    whatever has been called for, a call for bits is answered if they are left, by the number that
    they spell as far as a word has room for it, and otherwise leaves the reader where it is. -/
theorem fields_in_turn :
    (∀ fs : List Field,
      let w := (∅ : Writer).putFields fs
      let total := (fs.map Field.width).sum
      (∅ : Writer).checkedPutFields fs = .ok w ∧
        w.Between ∧ w.finish.length = total ⌈/⌉ 8 ∧
        bitsOf w.finish =
          fs.flatMap Field.bits ++ List.replicate (8 * (total ⌈/⌉ 8) - total) false ∧
        ((Reader.ofBytes w.finish).askAll (fs.map Field.width)).1 =
          fs.map fun f => some f.value) ∧
    ∀ (bs : Bytes) (ns : List Nat) (n : Nat),
      let r := ((Reader.ofBytes bs).askAll ns).2
      let left := (bitsOf bs).drop r.cursor
      r.cursor ≤ 8 * bs.length ∧
        if n ≤ left.length then
          ∃ v, r.ask n = (some v, { r with cursor := r.cursor + n }) ∧
            v.toNat = spell (left.take n) % UInt64.size ∧
            (n ≤ 64 → v.toNat < 2 ^ n ∧ fieldBits v.toNat n = left.take n)
        else r.ask n = (none, r) := by
  refine ⟨fun fs => ?_, fun bs ns n => ?_⟩
  · have hholds := Writer.holds_putFields Writer.holds_empty fs
    obtain ⟨hlength, hbits⟩ := hholds.finish
    have hawaits := Reader.awaits_ofBytes ((∅ : Writer).putFields fs).finish
    rw [List.nil_append] at hlength hbits
    rw [hbits] at hawaits
    rw [length_flatMap_bits] at hlength hbits
    exact ⟨Writer.checkedPutFields_eq ∅ fs, hholds.between, hlength, hbits,
      hawaits.askAll_fields.1⟩
  · have hwithin := (Reader.within_ofBytes bs).askAll ns
    have hask := hwithin.awaits.ask n
    have hle := hwithin.cursor_le
    rw [Reader.size, hwithin.input_eq, List.size_toArray] at hle
    refine ⟨hle, ?_⟩
    split_ifs at hask ⊢ with hn
    · obtain ⟨v, hask, hv, -⟩ := hask
      exact ⟨v, hask, hv, fun hword => Reader.toNat_eq_spell hword hn hv⟩
    · exact hask

/-- **A word has 64 bits.**  One is less than `2 ^ 65`, but with 65 bits its lowest bit is written
    twice, at the end and in the place of the highest one; with shifts that are checked nothing is
    written.  A reader that is asked for 65 bits loses the first of them. -/
theorem sixty_five_bits :
    (1 : UInt64).toNat < 2 ^ 65 ∧
      ((∅ : Writer).putBits 1 65).finish = [0x80, 0, 0, 0, 0, 0, 0, 0, 0x80] ∧
      bitsOf ((∅ : Writer).putBits 1 65).finish ≠
        fieldBits 1 65 ++ List.replicate (8 * (65 ⌈/⌉ 8) - 65) false ∧
      (∅ : Writer).checkedPutBits 1 65 = .error .shift ∧
      ((Reader.ofBytes [0x80, 0, 0, 0, 0, 0, 0, 0, 0]).ask 65).1 = some 0 := by
  have hbytes : ((∅ : Writer).putBits 1 65).finish = [0x80, 0, 0, 0, 0, 0, 0, 0, 0x80] := by
    decide +kernel
  refine ⟨by decide, hbytes, ?_, Writer.checkedPutBits_of_lt (by decide) ∅ 1, by decide +kernel⟩
  rw [hbytes]
  intro hbits
  have hfirst := congrArg List.head? hbits
  exact absurd hfirst (by decide)

-- a bit and a byte: the second byte has one bit and seven zeros
example : ((∅ : Writer).putFields
    [⟨1, 1, by decide, by decide⟩, ⟨8, 65, by decide, by decide⟩]).finish = [0xa0, 0x80] := by
  decide +kernel

end OtaPack.Bits
