/-
  Streams that are cut off.

  * `Cuts.append`: up to eight more bits complete one more token at most;
  * `readTokens_append_singleton`, `readTokens_append`: so does one more byte, and more bytes
    complete no more tokens than they are;
  * `readTokens_dropLast_encode`: without its last byte a compressed input lacks its last token;
  * `decode_truncated`: what is lost with the end of a stream.
-/
import OtaPack.Proofs.Lzss.RoundTrip

namespace OtaPack.Lzss

open Bits

variable {bits more rest : List Bool} {ts : List Token} {x : Bytes}

/-! ## One more byte -/

/-- A token that more bits complete reaches into them, so these end less than a byte after it. -/
theorem Cuts.append (h : Cuts bits ts rest) (hmore : more.length ≤ 8) :
    (∃ rest', Cuts (bits ++ more) ts rest') ∨
      ∃ t rest', Cuts (bits ++ more) (ts ++ [t]) rest' := by
  have hbits : bits ++ more = tokenBits ts ++ (rest ++ more) := by
    rw [h.bits_eq, List.append_assoc]
  by_cases hnext : ∃ t : Token, t.toBits <+: rest ++ more
  · obtain ⟨t, rest', hrest'⟩ := hnext
    have hlong : rest.length < t.toBits.length := by
      refine Nat.lt_of_not_le fun hle => h.maximal t ?_
      exact List.prefix_of_prefix_length_le ⟨rest', hrest'⟩ (List.prefix_append rest more) hle
    have hlen := congrArg List.length hrest'
    rw [List.length_append, List.length_append] at hlen
    refine .inr ⟨t, rest', ?_⟩
    rw [hbits, ← hrest', ← List.append_assoc]
    have hone : tokenBits (ts ++ [t]) = tokenBits ts ++ t.toBits := by
      simp [tokenBits]
    rw [← hone]
    exact Cuts.of_short (by omega)
  · exact .inl ⟨rest ++ more, hbits, fun t ht => hnext ⟨t, ht⟩⟩

theorem readTokens_append_singleton (stream : Bytes) (b : UInt8) :
    readTokens (stream ++ [b]) = readTokens stream ∨
      ∃ t, readTokens (stream ++ [b]) = readTokens stream ++ [t] := by
  obtain ⟨rest, h⟩ := readTokens_eq_iff.1 (rfl : readTokens stream = _)
  have hbits : bitsOf (stream ++ [b]) = bitsOf stream ++ byteBits b := by
    rw [bitsOf_append, bitsOf_cons, bitsOf_nil, List.append_nil]
  rcases h.append (Nat.le_of_eq (length_byteBits b)) with hsame | ⟨t, hnext⟩
  · exact .inl (readTokens_eq_iff.2 (hbits ▸ hsame))
  · exact .inr ⟨t, readTokens_eq_iff.2 (hbits ▸ hnext)⟩

/-! ## More bytes -/

theorem readTokens_append (stream more : Bytes) :
    ∃ ts, readTokens (stream ++ more) = readTokens stream ++ ts ∧ ts.length ≤ more.length := by
  induction more generalizing stream with
  | nil => exact ⟨[], by rw [List.append_nil, List.append_nil], Nat.le_refl _⟩
  | cons b more ih =>
    obtain ⟨ts, hts, hlen⟩ := ih (stream ++ [b])
    rw [List.append_assoc, List.singleton_append] at hts
    rw [hts, List.length_cons]
    rcases readTokens_append_singleton stream b with hsame | ⟨t, hnext⟩
    · exact ⟨ts, by rw [hsame], by omega⟩
    · refine ⟨t :: ts, ?_, by rw [List.length_cons]; omega⟩
      rw [hnext, List.append_assoc]
      rfl

theorem sum_length_le (ts : List Token) : (ts.map Token.length).sum ≤ maxMatch * ts.length := by
  induction ts with
  | nil => exact Nat.zero_le _
  | cons t ts ih =>
    have ht := t.length_le
    rw [List.map_cons, List.sum_cons, List.length_cons, Nat.mul_succ]
    omega

theorem decode_append (stream more : Bytes) :
    ∃ added, decode (stream ++ more) = decode stream ++ added ∧
      added.length ≤ maxMatch * more.length := by
  obtain ⟨ts, hts, hlen⟩ := readTokens_append stream more
  obtain ⟨added, hadded, hsum⟩ := decode_of_readTokens hts
  refine ⟨added, hadded, ?_⟩
  rw [hsum]
  exact Nat.le_trans (sum_length_le ts) (Nat.mul_le_mul_left _ hlen)

/-! ## The last byte of a compressed input -/

theorem tokens_ne_nil (hx : x ≠ []) : tokens x ≠ [] := by
  intro hnil
  have h := foldl_expand_tokens x
  rw [hnil] at h
  exact hx h.symm

theorem readTokens_nil : readTokens [] = [] := by
  have hcuts : Cuts (tokenBits [] ++ []) [] [] := Cuts.of_short (Nat.zero_lt_succ 8)
  exact readTokens_eq_iff.2 ⟨[], hcuts⟩

/-- What fills up the last byte is less than a byte, so some bits of the last token stand in it. -/
theorem readTokens_dropLast_encode (hx : x ≠ []) :
    readTokens (encode x).dropLast = (tokens x).dropLast := by
  have hread := readTokens_encode x
  obtain ⟨n, hn, hbits⟩ := bitsOf_encode x
  have hsize := congrArg List.length hbits
  rw [length_bitsOf, List.length_append, List.length_replicate] at hsize
  rcases List.eq_nil_or_concat (encode x) with hnil | ⟨stream, b, hcat⟩
  · rw [hnil, readTokens_nil] at hread
    exact absurd hread.symm (tokens_ne_nil hx)
  · rw [List.concat_eq_append] at hcat
    rw [hcat] at hread hsize ⊢
    rw [List.dropLast_concat]
    rcases readTokens_append_singleton stream b with hsame | ⟨t, hnext⟩
    · -- The bits of all tokens do not fit in front of the last byte.
      obtain ⟨rest, hcuts⟩ := readTokens_eq_iff.1 (hsame.symm.trans hread)
      have hshort := congrArg List.length hcuts.bits_eq
      rw [length_bitsOf, List.length_append] at hshort
      rw [List.length_append, List.length_singleton] at hsize
      omega
    · rw [← hread, hnext, List.dropLast_concat]

/-- **Truncation.**  What is left of a stream decompresses to a prefix, which lacks at most the
    longest match for every byte that is missing.  A compressed input without its last byte
    decompresses to all but the bytes of its last token. -/
theorem decode_truncated :
    (∀ (stream : Bytes) (k : Nat), decode (stream.take k) <+: decode stream ∧
      (decode stream).length ≤ (decode (stream.take k)).length + 17 * (stream.length - k)) ∧
    ∀ x : Bytes, x ≠ [] → ∃ ts t covered, tokens x = ts ++ [t] ∧ covered.length = t.length ∧
      1 ≤ t.length ∧ t.length ≤ 17 ∧ decode (encode x).dropLast ++ covered = x := by
  constructor
  · intro stream k
    obtain ⟨added, hadded, hlen⟩ := decode_append (stream.take k) (stream.drop k)
    rw [List.take_append_drop] at hadded
    rw [List.length_drop] at hlen
    rw [hadded, List.length_append]
    exact ⟨List.prefix_append _ _, Nat.add_le_add_left hlen _⟩
  · intro x hx
    have hlast := List.dropLast_concat_getLast (tokens_ne_nil hx)
    obtain ⟨covered, hcovered, hlen⟩ :=
      exists_expand (decode (encode x).dropLast) ((tokens x).getLast (tokens_ne_nil hx))
    refine ⟨_, _, covered, hlast.symm, hlen, Token.length_pos _, Token.length_le _, ?_⟩
    have hall := foldl_expand_tokens x
    rw [← hlast, List.foldl_append, ← readTokens_dropLast_encode hx,
      ← decode_eq_foldl_expand] at hall
    rw [← hcovered]
    exact hall

end OtaPack.Lzss
