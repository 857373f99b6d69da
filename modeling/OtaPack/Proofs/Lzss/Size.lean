/-
  How long a compressed input is, and what a stream decompresses to.

  * `sum_length_tokens`: the tokens of an input stand for all its bytes;
  * `length_tokenBits_le`: no token takes more bits than as many literals as it stands for bytes;
  * `length_encode_lt`: so compression adds one bit for each byte at most;
  * `exists_counts`: literals and references counted, with the bits they take and the bytes they
    stand for; `length_decode_le`: so two bytes of a stream make seventeen bytes at most;
  * `length_bounds`: both bounds, and that no input is compressed to less.
-/
import Mathlib.Algebra.Order.Floor.Div
import OtaPack.Proofs.Lzss.RoundTrip

namespace OtaPack.Lzss

open Bits

/-! ## What compression adds -/

theorem sum_length_tokens (x : Bytes) : ((tokens x).map Token.length).sum = x.length := by
  obtain ⟨added, hadded, hsum⟩ := exists_foldl_expand [] (tokens x)
  rw [foldl_expand_tokens, List.nil_append] at hadded
  rw [← hsum, ← hadded]

theorem Token.bits_le (t : Token) : t.bits ≤ 9 * t.length := by
  cases t with
  | literal => exact Nat.le_refl 9
  | reference =>
    simp only [bits, length, positionBits, lengthBits, minMatch, literalLimit]
    omega

theorem length_tokenBits_le (ts : List Token) :
    (tokenBits ts).length ≤ 9 * (ts.map Token.length).sum := by
  induction ts with
  | nil => exact Nat.zero_le _
  | cons t ts ih =>
    rw [length_tokenBits_cons, List.map_cons, List.sum_cons, Nat.mul_add]
    exact Nat.add_le_add t.bits_le ih

theorem length_encode_lt (x : Bytes) : 8 * (encode x).length < 9 * x.length + 8 := by
  have hle := length_tokenBits_le (tokens x)
  rw [sum_length_tokens] at hle
  rw [encode, length_writeTokens]
  omega

/-! ## What decompression makes of a stream -/

/-- A literal takes nine bits for one byte, and a reference sixteen bits for up to seventeen. -/
theorem exists_counts (ts : List Token) :
    ∃ literals references, (tokenBits ts).length = 9 * literals + 16 * references ∧
      (ts.map Token.length).sum ≤ literals + maxMatch * references := by
  induction ts with
  | nil => exact ⟨0, 0, rfl, Nat.le_refl 0⟩
  | cons t ts ih =>
    obtain ⟨literals, references, hbits, hlen⟩ := ih
    rw [length_tokenBits_cons, List.map_cons, List.sum_cons, hbits]
    cases t with
    | literal byte =>
      have hone : (Token.literal byte).bits = 9 ∧ (Token.literal byte).length = 1 := ⟨rfl, rfl⟩
      exact ⟨literals + 1, references, by omega, by omega⟩
    | reference position excess =>
      have hsixteen : (Token.reference position excess).bits = 16 := rfl
      have hmax := Token.length_le (.reference position excess)
      exact ⟨literals, references + 1, by omega, by rw [Nat.mul_succ]; omega⟩

theorem length_decode (stream : Bytes) :
    (decode stream).length = ((readTokens stream).map Token.length).sum := by
  obtain ⟨added, hadded, hlen⟩ := exists_foldl_expand [] (readTokens stream)
  rw [decode_eq_foldl_expand, hadded, List.nil_append, hlen]

/-- **Two bytes of a stream make seventeen bytes at most**, whatever the stream is. -/
theorem length_decode_le (stream : Bytes) :
    (decode stream).length ≤ maxMatch * (stream.length / 2) := by
  obtain ⟨rest, hcuts⟩ := readTokens_eq_iff.1 (rfl : readTokens stream = _)
  have hbits := congrArg List.length hcuts.bits_eq
  rw [length_bitsOf, List.length_append] at hbits
  obtain ⟨literals, references, htokens, hlen⟩ := exists_counts (readTokens stream)
  have hmax : maxMatch = 17 := rfl
  rw [← length_decode, hmax] at hlen
  rw [hmax]
  -- a literal takes more than the byte by which the stream may be odd
  have hpairs : literals + 16 * references ≤ 16 * (stream.length / 2) := by
    rcases Nat.eq_zero_or_pos literals with rfl | hpos <;> omega
  omega

/-- **Sizes.**  Seventeen bytes are compressed to two bytes at least, and eight bytes to nine at
    most; and two bytes of any stream are decompressed to seventeen at most. -/
theorem length_bounds (x stream : Bytes) :
    2 * (x.length ⌈/⌉ 17) ≤ (encode x).length ∧ (encode x).length ≤ (9 * x.length) ⌈/⌉ 8 ∧
      (decode stream).length ≤ 17 * (stream.length / 2) := by
  refine ⟨?_, ?_, length_decode_le stream⟩
  · -- what is decompressed is the input again
    have hback := length_decode_le (encode x)
    rw [decode_encode] at hback
    have hceil : x.length ⌈/⌉ 17 ≤ (encode x).length / 2 :=
      (ceilDiv_le_iff_le_mul (by decide)).2 hback
    omega
  · have hlt := length_encode_lt x
    rw [Nat.ceilDiv_eq_add_pred_div]
    omega

end OtaPack.Lzss
