/-
  What base64 text looks like.

  * `IsDigit c`: the letters, the decimal digits, and two signs; `isDigit_digit`;
  * `Spells bs cs digits pads`: the characters `cs` are digits of six bits each, which are the bits
    of the bytes `bs` and then zeros, and as much padding as there are zeros;
    `exists_spells_group`: one group; `Spells.append`: a full group and what follows it;
  * `exists_spells`: all of a text;
  * `base64_text`: its form, its length, and that it is the text of no other bytes.
-/
import Mathlib.Algebra.Order.Floor.Div
import Mathlib.GroupTheory.GroupAction.Ring
import OtaPack.Proofs.Base64
import OtaPack.Proofs.Bits.Stream

namespace OtaPack.Base64

open Bits

/-- The characters that stand for six bits. -/
def IsDigit (c : Char) : Prop :=
  ('A' ≤ c ∧ c ≤ 'Z') ∨ ('a' ≤ c ∧ c ≤ 'z') ∨ ('0' ≤ c ∧ c ≤ '9') ∨ c = '+' ∨ c = '/'

instance (c : Char) : Decidable (IsDigit c) :=
  inferInstanceAs (Decidable (_ ∨ _))

theorem isDigit_digit : ∀ v < 64, IsDigit (digit v) := by
  decide +kernel

/-- The characters spell the bytes: some digits, six bits each, which are the bits of the bytes and
    two zeros for each character of padding, and then the padding. -/
structure Spells (bs : Bytes) (cs : List Char) (digits : List Nat) (pads : Nat) : Prop where
  text_eq : cs = digits.map digit ++ List.replicate pads padding
  lt : ∀ v ∈ digits, v < 64
  bits_eq : digits.flatMap (fieldBits · 6) = bitsOf bs ++ List.replicate (2 * pads) false

variable {as bs g : Bytes} {cs cs' : List Char} {ds ds' : List Nat} {pads : Nat}

/-! ## Groups -/

section
variable (a b c : UInt8)

/-- Two bits of one byte and four of the next one. -/
theorem fieldBits_second (low : Nat) (h : low < 16) :
    fieldBits (a.toNat % 4 * 16 + low) 6 = fieldBits (a.toNat % 4) 2 ++ fieldBits low 4 :=
  fieldBits_append (n := 4) h _ 2

/-- Four bits of one byte and two of the next one. -/
theorem fieldBits_third (low : Nat) (h : low < 4) :
    fieldBits (b.toNat % 16 * 4 + low) 6 = fieldBits (b.toNat % 16) 4 ++ fieldBits low 2 :=
  fieldBits_append (n := 2) h _ 4

theorem byteBits_six : byteBits a = fieldBits (a.toNat / 4) 6 ++ fieldBits (a.toNat % 4) 2 :=
  fieldBits_split a.toNat 6 2

theorem byteBits_four : byteBits b = fieldBits (b.toNat / 16) 4 ++ fieldBits (b.toNat % 16) 4 :=
  fieldBits_split b.toNat 4 4

theorem byteBits_two : byteBits c = fieldBits (c.toNat / 64) 2 ++ fieldBits (c.toNat % 64) 6 :=
  fieldBits_split c.toNat 2 6

theorem spells_three : Spells [a, b, c] (encodeGroup [a, b, c])
    [a.toNat / 4, a.toNat % 4 * 16 + b.toNat / 16, b.toNat % 16 * 4 + c.toNat / 64, c.toNat % 64]
    0 where
  text_eq := rfl
  lt := by
    have ha := a.toNat_lt
    have hb := b.toNat_lt
    have hc := c.toNat_lt
    simp only [List.forall_mem_cons]
    refine ⟨?_, ?_, ?_, ?_, nofun⟩ <;> omega
  bits_eq := by
    have hb := b.toNat_lt
    have hc := c.toNat_lt
    simp only [List.flatMap_cons, bitsOf_cons, byteBits_six a, byteBits_four b, byteBits_two c]
    rw [fieldBits_second a _ (by omega), fieldBits_third b _ (by omega)]
    simp

theorem spells_two : Spells [a, b] (encodeGroup [a, b])
    [a.toNat / 4, a.toNat % 4 * 16 + b.toNat / 16, b.toNat % 16 * 4] 1 where
  text_eq := rfl
  lt := by
    have ha := a.toNat_lt
    have hb := b.toNat_lt
    simp only [List.forall_mem_cons]
    refine ⟨?_, ?_, ?_, nofun⟩ <;> omega
  bits_eq := by
    have hb := b.toNat_lt
    have hzeros := fieldBits_third b 0 (by decide)
    rw [Nat.add_zero] at hzeros
    simp only [List.flatMap_cons, bitsOf_cons, byteBits_six a, byteBits_four b, hzeros]
    rw [fieldBits_second a _ (by omega)]
    simp [fieldBits, List.replicate]

theorem spells_one : Spells [a] (encodeGroup [a]) [a.toNat / 4, a.toNat % 4 * 16] 2 where
  text_eq := rfl
  lt := by
    have ha := a.toNat_lt
    simp only [List.forall_mem_cons]
    refine ⟨?_, ?_, nofun⟩ <;> omega
  bits_eq := by
    have hzeros := fieldBits_second a 0 (by decide)
    rw [Nat.add_zero] at hzeros
    simp only [List.flatMap_cons, bitsOf_cons, byteBits_six a, hzeros]
    simp [fieldBits, List.replicate]

end

theorem exists_spells_group (hpos : 0 < g.length) (hle : g.length ≤ 3) :
    ∃ digits, Spells g (encodeGroup g) digits (3 - g.length) := by
  match g, hpos, hle with
  | [a], _, _ => exact ⟨_, spells_one a⟩
  | [a, b], _, _ => exact ⟨_, spells_two a b⟩
  | [a, b, c], _, _ => exact ⟨_, spells_three a b c⟩

/-! ## Texts -/

/-- What is written without padding may stand in front. -/
theorem Spells.append (h : Spells as cs ds 0) (h' : Spells bs cs' ds' pads) :
    Spells (as ++ bs) (cs ++ cs') (ds ++ ds') pads where
  text_eq := by
    rw [h.text_eq, h'.text_eq, List.map_append, List.replicate_zero, List.append_nil,
      List.append_assoc]
  lt := List.forall_mem_append.2 ⟨h.lt, h'.lt⟩
  bits_eq := by
    rw [List.flatMap_append, h.bits_eq, h'.bits_eq, bitsOf_append, Nat.mul_zero,
      List.replicate_zero, List.append_nil, List.append_assoc]

/-- As many characters of padding as bytes are missing to a full group. -/
def padsOf (bs : Bytes) : Nat :=
  (3 - bs.length % 3) % 3

theorem toList_encode (bs : Bytes) : (encode bs).toList = (chunksOf 3 bs).flatMap encodeGroup :=
  String.toList_ofList

theorem exists_spells (bs : Bytes) :
    ∃ digits, Spells bs (encode bs).toList digits (padsOf bs) := by
  rw [toList_encode]
  induction bs using pieces_induction (n := 3) (by decide) with
  | nil =>
    rw [chunksOf_nil]
    exact ⟨[], rfl, nofun, rfl⟩
  | piece bs hbs ih =>
    have hpos : 0 < bs.length := List.length_pos_iff.2 hbs
    rcases Nat.le_total bs.length 3 with hshort | hlong
    · -- the last group
      have hpads : padsOf bs = 3 - bs.length := by
        rw [padsOf]
        omega
      rw [chunksOf_of_length_le hbs hshort, List.flatMap_singleton, hpads]
      exact exists_spells_group hpos hshort
    · obtain ⟨rest, hrest⟩ := ih
      have hthree : (bs.take 3).length = 3 := List.length_take_of_le hlong
      have hpads : padsOf (bs.drop 3) = padsOf bs := by
        rw [padsOf, padsOf, List.length_drop]
        omega
      obtain ⟨first, hfirst⟩ := exists_spells_group (g := bs.take 3) (by omega) (by omega)
      rw [hthree] at hfirst
      have hall := hfirst.append hrest
      rw [List.take_append_drop, hpads] at hall
      rw [chunksOf_eq hbs (by decide), List.flatMap_cons]
      exact ⟨_, hall⟩

/-- The digits and the padding are full groups of four characters. -/
theorem Spells.length_eq (h : Spells bs cs ds (padsOf bs)) :
    cs.length = 4 * (bs.length ⌈/⌉ 3) := by
  have hlen (vs : List Nat) : (vs.flatMap (fieldBits · 6)).length = 6 * vs.length := by
    simp [List.length_flatMap, Nat.mul_comm]
  have hbits := congrArg List.length h.bits_eq
  rw [hlen, List.length_append, length_bitsOf, List.length_replicate, padsOf] at hbits
  rw [h.text_eq, List.length_append, List.length_map, List.length_replicate,
    Nat.ceilDiv_eq_add_pred_div, padsOf]
  omega

/-- **Base64 text.**  It has four characters for every three bytes or less.  Its digits, six bits
    each, are the bits of the bytes and then zeros, and the padding makes up for the bytes that are
    missing in the last group.  No other text is decoded to the bytes.  Bytes whose groups are full
    may be written apart from those that follow. -/
theorem base64_text :
    (∀ bs : Bytes, (encode bs).length = 4 * (bs.length ⌈/⌉ 3) ∧
      (∃ digits : List Nat, (∀ v ∈ digits, v < 64 ∧ IsDigit (digit v)) ∧
        (encode bs).toList =
          digits.map digit ++ List.replicate ((3 - bs.length % 3) % 3) '=' ∧
        digits.flatMap (fieldBits · 6) =
          bitsOf bs ++ List.replicate (2 * ((3 - bs.length % 3) % 3)) false) ∧
      ∀ s, decode? s = some bs ↔ s = encode bs) ∧
    ∀ as bs : Bytes, 3 ∣ as.length → encode (as ++ bs) = encode as ++ encode bs := by
  refine ⟨fun bs => ?_, fun as bs h => encode_append h bs⟩
  obtain ⟨digits, h⟩ := exists_spells bs
  have hdigits : ∀ v ∈ digits, v < 64 ∧ IsDigit (digit v) :=
    fun v hv => ⟨h.lt v hv, isDigit_digit v (h.lt v hv)⟩
  exact ⟨h.length_eq, ⟨digits, hdigits, h.text_eq, h.bits_eq⟩, fun s => decode?_eq_some_iff⟩

/-- A full group in front of two bytes. -/
theorem base64_text_full_group :
    3 ∣ ([1, 2, 3] : Bytes).length ∧ encode [1, 2, 3, 0xFB, 0xFF] = "AQID+/8=" := by
  have hfull : 3 ∣ ([1, 2, 3] : Bytes).length := by decide
  have hfirst : encode [1, 2, 3] = "AQID" := by
    rw [encode, chunksOf_of_length_le (by decide) (by decide)]
    decide
  have hlast : encode [0xFB, 0xFF] = "+/8=" := by
    rw [encode, chunksOf_of_length_le (by decide) (by decide)]
    decide
  refine ⟨hfull, ?_⟩
  have happend := base64_text.2 [1, 2, 3] [0xFB, 0xFF] hfull
  rw [hfirst, hlast] at happend
  exact happend

end OtaPack.Base64
