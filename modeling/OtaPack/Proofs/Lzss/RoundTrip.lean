/-
  What is compressed is decompressed to the same bytes.

  * `foldl_expand_tokens`: the tokens of an input expand to it;
  * `decode_writeTokens`: a written stream decodes to what its tokens expand to; `decode_tokens`:
    that of the tokens of an input decodes to the input;
  * `bitsOf_encode`, `readTokens_encode`: the bits of a compressed input, and the tokens read from
    it;
  * `decode_of_readTokens`: more tokens add the bytes that they stand for;
  * `decode_encode`: the round trip.
-/
import OtaPack.Proofs.Lzss.Greedy
import OtaPack.Proofs.Lzss.TokenStream

namespace OtaPack.Lzss

open Bits

theorem decode_writeTokens (ts : List Token) : decode (writeTokens ts) = ts.foldl expand [] := by
  rw [decode_eq_foldl_expand, readTokens_writeTokens]

theorem foldl_expand_tokens (x : Bytes) : (tokens x).foldl expand [] = x := by
  have hstart : blanks ++ [] = (window x).toList.take startPosition := by
    rw [toList_window, List.take_left' length_blanks, List.append_nil]
  have hall := foldl_expand_of_parses hstart (parses_tokens x)
  rw [toList_window] at hall
  exact List.append_cancel_left hall

theorem decode_tokens (x : Bytes) : decode (writeTokens (tokens x)) = x := by
  rw [decode_writeTokens, foldl_expand_tokens]

theorem bitsOf_encode (x : Bytes) :
    ∃ n < 8, bitsOf (encode x) = tokenBits (tokens x) ++ List.replicate n false :=
  bitsOf_writeTokens (tokens x)

theorem readTokens_encode (x : Bytes) : readTokens (encode x) = tokens x :=
  readTokens_writeTokens (tokens x)

/-- A stream with more tokens decodes to more bytes, as many as these tokens stand for. -/
theorem decode_of_readTokens {stream stream' : Bytes} {ts : List Token}
    (h : readTokens stream' = readTokens stream ++ ts) :
    ∃ added, decode stream' = decode stream ++ added ∧
      added.length = (ts.map Token.length).sum := by
  obtain ⟨added, hadded, hlen⟩ := exists_foldl_expand (decode stream) ts
  refine ⟨added, ?_, hlen⟩
  rw [decode_eq_foldl_expand, h, List.foldl_append, ← decode_eq_foldl_expand, hadded]

/-- **The round trip.**  Nothing is lost, and the zeros that fill up the last byte add nothing. -/
theorem decode_encode (x : Bytes) : decode (encode x) = x := by
  rw [encode, decode_tokens]

end OtaPack.Lzss
