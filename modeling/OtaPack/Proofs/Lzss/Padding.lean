/-
  What follows the last token of a compressed input.

  * `Cuts.of_zeros`: of the zeros after some tokens, every sixteen are one more reference, and those
    that are left over are no token;
  * `readTokens_append_zeros`: so zero bytes after a compressed input are a reference for every two;
  * `decode_padding`: the bits that fill up the last byte may be any, and of the zero bytes that
    follow every second one adds two bytes.
-/
import OtaPack.Proofs.Lzss.Size

namespace OtaPack.Lzss

open Bits

/-! ## Zeros -/

/-- The reference whose bits are all zeros. -/
def Token.zeros : Token :=
  .reference 0 0

theorem Token.toBits_zeros : zeros.toBits = List.replicate 16 false := by
  decide

/-- A literal begins with a bit that is set, and a reference has sixteen bits. -/
theorem Token.not_prefix_replicate {n : Nat} (hn : n < 16) (t : Token) :
    ¬t.toBits <+: List.replicate n false := by
  intro h
  obtain ⟨hlen, hzeros⟩ := List.prefix_replicate_iff.1 h
  cases t with
  | literal byte => exact Bool.noConfusion (List.cons.inj hzeros).1
  | reference =>
    rw [length_toBits] at hlen
    have hbits : 16 ≤ n := hlen
    omega

theorem tokenBits_replicate_zeros (k : Nat) :
    tokenBits (List.replicate k .zeros) = List.replicate (16 * k) false := by
  rw [tokenBits, List.flatMap_replicate, Token.toBits_zeros, List.flatten_replicate_replicate,
    Nat.mul_comm]

theorem bitsOf_replicate_zero (m : Nat) :
    bitsOf (List.replicate m 0) = List.replicate (8 * m) false := by
  have hbyte : byteBits 0 = List.replicate 8 false := by decide
  rw [bitsOf, List.flatMap_replicate, hbyte, List.flatten_replicate_replicate, Nat.mul_comm]

/-- **Zeros after some tokens.** -/
theorem Cuts.of_zeros (ts : List Token) (n : Nat) :
    Cuts (tokenBits ts ++ List.replicate n false) (ts ++ List.replicate (n / 16) .zeros)
      (List.replicate (n % 16) false) where
  bits_eq := by
    rw [tokenBits_append, tokenBits_replicate_zeros, List.append_assoc,
      List.replicate_append_replicate, Nat.div_add_mod]
  maximal := Token.not_prefix_replicate (Nat.mod_lt n (by decide))

/-! ## After a compressed input -/

theorem readTokens_append_zeros (x : Bytes) (m : Nat) :
    readTokens (encode x ++ List.replicate m 0) = tokens x ++ List.replicate (m / 2) .zeros := by
  obtain ⟨n, hn, hbits⟩ := bitsOf_encode x
  have hzeros : bitsOf (encode x ++ List.replicate m 0) =
      tokenBits (tokens x) ++ List.replicate (n + 8 * m) false := by
    rw [bitsOf_append, hbits, bitsOf_replicate_zero, List.append_assoc,
      List.replicate_append_replicate]
  -- the zeros that fill up the last byte are too few to matter
  have hcount : m / 2 = (n + 8 * m) / 16 := by omega
  rw [readTokens_eq_iff, hzeros, hcount]
  exact ⟨_, Cuts.of_zeros (tokens x) (n + 8 * m)⟩

/-- A single byte is written as it is. -/
theorem tokens_singleton (b : UInt8) : tokens [b] = [.literal b] := by
  have hall := foldl_expand_tokens [b]
  have hsum := sum_length_tokens [b]
  cases hts : tokens [b] with
  | nil =>
    rw [hts] at hall
    cases hall
  | cons t ts =>
    rw [hts] at hall hsum
    rw [List.map_cons, List.sum_cons, List.length_singleton] at hsum
    have hpos := t.length_pos
    have hnil : ts = [] := by
      cases ts with
      | nil => rfl
      | cons t' ts =>
        have hpos' := t'.length_pos
        rw [List.map_cons, List.sum_cons] at hsum
        omega
    subst hnil
    cases t with
    | literal c => rw [(List.cons.inj hall).1]
    | reference position excess =>
      have hlong := Token.two_le_length position excess
      omega

/-- **Padding and trailing zeros.**  The bits that fill up the last byte of a compressed input may
    have any values.  Of the zero bytes that follow it every two add two bytes, and a single one
    adds nothing. -/
theorem decode_padding (x : Bytes) :
    (∃ n < 8, bitsOf (encode x) = tokenBits (tokens x) ++ List.replicate n false ∧
      ∀ (stream : Bytes) (pad : List Bool), pad.length = n →
        bitsOf stream = tokenBits (tokens x) ++ pad → decode stream = x) ∧
      ∀ m, ∃ added, decode (encode x ++ List.replicate m 0) = x ++ added ∧
        added.length = 2 * (m / 2) := by
  constructor
  · obtain ⟨n, hn, hbits⟩ := bitsOf_encode x
    refine ⟨n, hn, hbits, ?_⟩
    rintro stream pad rfl hpad
    have hread : readTokens stream = tokens x :=
      readTokens_eq_iff.2 ⟨pad, hpad ▸ Cuts.of_short (Nat.lt_succ_of_lt hn)⟩
    rw [decode_eq_foldl_expand, hread, foldl_expand_tokens]
  · intro m
    have hread := readTokens_append_zeros x m
    rw [← readTokens_encode] at hread
    obtain ⟨added, hadded, hlen⟩ := decode_of_readTokens hread
    rw [decode_encode] at hadded
    refine ⟨added, hadded, ?_⟩
    rw [hlen, List.map_replicate, List.sum_replicate_nat, Nat.mul_comm]
    rfl

/-- The seven bits after a single literal may be ones. -/
theorem decode_padding_ones :
    bitsOf [0xA0, 0xFF] = tokenBits (tokens [0x41]) ++ List.replicate 7 true ∧
      decode [0xA0, 0xFF] = [0x41] := by
  obtain ⟨⟨n, hn, hencoded, hpadded⟩, -⟩ := decode_padding [0x41]
  have hbits : bitsOf [0xA0, 0xFF] = tokenBits (tokens [0x41]) ++ List.replicate 7 true := by
    rw [tokens_singleton]
    decide
  -- sixteen bits are the least that nine bits fit in
  have hseven : n = 7 := by
    have hlen := congrArg List.length hencoded
    rw [length_bitsOf, List.length_append, List.length_replicate, tokens_singleton] at hlen
    have hnine : (tokenBits [.literal 0x41]).length = 9 := rfl
    omega
  exact ⟨hbits, hpadded _ _ (by rw [hseven, List.length_replicate]) hbits⟩

end OtaPack.Lzss
