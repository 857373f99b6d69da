/-
  Compression of an input that more bytes are added to.

  * `Extends w w'`: the window `w'` is the window `w` and more bytes;
  * `matchLength_extend`: a match that does not run into the end of the window keeps its length;
  * `tokenAt_extend`: so a token that does not is found again; `length_tokenAt_extend`: one that
    does becomes no shorter;
  * `Revises ts us`: the tokens `us` are the tokens `ts` up to the last of them;
    `revises_tokensFrom`: more input only revises the last token;
  * `settled ts`: the tokens that are not revised, whatever input follows;
  * `encode_extended`: what two inputs have in common of which one begins with the other.
-/
import OtaPack.Proofs.Lzss.RoundTrip

namespace OtaPack.Lzss

open Bits

/-- The window `w'` begins with the window `w`. -/
structure Extends (w w' : Array UInt8) : Prop where
  size_le : w.size ≤ w'.size
  getD_eq : ∀ i < w.size, w'.getD i 0 = w.getD i 0

theorem extends_window (x z : Bytes) : Extends (window x) (window (x ++ z)) where
  size_le := by
    rw [size_window, size_window, List.length_append]
    omega
  getD_eq i hi := by
    have hsame : window (x ++ z) = window x ++ z.toArray := by
      apply Array.toList_inj.1
      rw [Array.toList_append, toList_window, toList_window, List.append_assoc]
    rw [hsame, Array.getD_eq_getD_getElem?, Array.getD_eq_getD_getElem?,
      Array.getElem?_append_left hi]

variable {w w' : Array UInt8} {r i : Nat} {t t' : Token} {ts us : List Token}

/-! ## One token -/

theorem lookahead_le (h : Extends w w') (r : Nat) : lookahead w r ≤ lookahead w' r := by
  have hsize := h.size_le
  unfold lookahead
  omega

/-- The byte at which a match ends is still in the window, or no match is longer. -/
theorem matchLength_extend (h : Extends w w') (hi : i < r)
    (hend : r + matchLength w i r (lookahead w r) < w.size ∨
      matchLength w i r (lookahead w r) = maxMatch) :
    matchLength w' i r (lookahead w' r) = matchLength w i r (lookahead w r) := by
  obtain ⟨⟨hlook, hagree⟩, hgreatest⟩ := reaches_matchLength w r i
  have hleft : lookahead w r ≤ w.size - r := Nat.min_le_right _ _
  refine (Reaches.eq_matchLength ⟨⟨Nat.le_trans hlook (lookahead_le h r), ?_⟩, ?_⟩).symm
  · intro j hj
    rw [h.getD_eq _ (by omega), h.getD_eq _ (by omega)]
    exact hagree j hj
  · rintro n ⟨hn, hagree'⟩
    have hmax : n ≤ maxMatch := Nat.le_trans hn (Nat.min_le_left _ _)
    rcases hend with hinside | hfull
    · refine Nat.le_of_not_lt fun hlonger => ?_
      have hnext : matchLength w i r (lookahead w r) + 1 ≤ matchLength w i r (lookahead w r) := by
        refine hgreatest ⟨Nat.le_min_of_le_of_le (Nat.le_trans hlonger hmax) (by omega), ?_⟩
        intro j hj
        have hj' := hagree' j (Nat.lt_of_lt_of_le hj hlonger)
        rwa [h.getD_eq _ (by omega), h.getD_eq _ (by omega)] at hj'
      exact Nat.not_succ_le_self _ hnext
    · rw [hfull]
      exact hmax

/-- **A token that does not run into the end is found again.** -/
theorem tokenAt_extend (h : Extends w w') (hstart : startPosition ≤ r) (hr : r < w.size)
    (hend : r + (tokenAt w r).length < w.size ∨ (tokenAt w r).length = maxMatch) :
    tokenAt w' r = tokenAt w r := by
  have hfits := add_length_tokenAt_le hstart hr
  have hsame : candidates w' r = candidates w r := by
    refine List.map_congr_left fun d hd => ?_
    obtain ⟨hpos, hle⟩ := List.mem_range'_1.1 hd
    have hshort : (candidate w r d).length ≤ (tokenAt w r).length :=
      length_candidate_le (mem_candidates.2 ⟨d, hpos, Nat.lt_one_add_iff.1 hle, rfl⟩)
    have hlen : (candidate w r d).length = matchLength w (r - d) r (lookahead w r) := rfl
    rw [candidate, candidate, matchLength_extend h (by omega) (by omega)]
  unfold tokenAt
  rw [longestMatch_eq_foldl, longestMatch_eq_foldl, hsame, h.getD_eq r hr]

theorem Fits.extend (h : Extends w w') (ht : Fits w r t) : Fits w' r t := by
  have hsize := h.size_le
  cases ht with
  | literal hr =>
    rw [← h.getD_eq r hr]
    exact .literal (Nat.lt_of_lt_of_le hr hsize)
  | @reference i excess hi hnear hle heq =>
    refine .reference hi hnear (Nat.le_trans hle hsize) fun k hk => ?_
    rw [h.getD_eq _ (by omega), h.getD_eq _ (by omega)]
    exact heq k hk

theorem length_tokenAt_extend (h : Extends w w') (hstart : startPosition ≤ r) (hr : r < w.size) :
    (tokenAt w r).length ≤ (tokenAt w' r).length :=
  ((fits_tokenAt hstart hr).extend h).length_le

/-- A longer token takes as many bits at least. -/
theorem Token.bits_le_bits (h : t.length ≤ t'.length) : t.bits ≤ t'.bits := by
  cases t with
  | literal => exact t'.le_bits
  | reference position excess =>
    cases t' with
    | literal =>
      exact absurd (Nat.le_trans (two_le_length position excess) h) (Nat.not_succ_le_self 1)
    | reference => exact Nat.le_refl _

/-! ## All tokens -/

/-- The tokens `us` are the tokens `ts`, except that in the place of the last one another may stand
    that is no shorter, unless the last one is as long as a token can be.  More tokens may
    follow. -/
inductive Revises : List Token → List Token → Prop
  | nil {us : List Token} : Revises [] us
  | last {t t' : Token} {us : List Token} : t.length ≤ t'.length →
      (t.length = maxMatch → t' = t) → Revises [t] (t' :: us)
  | cons {t : Token} {ts us : List Token} : Revises ts us → Revises (t :: ts) (t :: us)

/-- **More input only revises the last token.** -/
theorem revises_tokensFrom (h : Extends w w') (hstart : startPosition ≤ r) (hr : r ≤ w.size) :
    Revises (tokensFrom w r) (tokensFrom w' r) := by
  refine tokensFrom_induction (motive := fun r _ => Revises (tokensFrom w r) (tokensFrom w' r))
    ?_ ?_ hstart hr
  · rw [tokensFrom_size]
    exact .nil
  · intro r _ hstart hlt ih
    rw [tokensFrom_of_lt hlt, tokensFrom_of_lt (Nat.lt_of_lt_of_le hlt h.size_le)]
    rcases Nat.eq_or_lt_of_le (add_length_tokenAt_le hstart hlt) with hlast | hmore
    · rw [hlast, tokensFrom_size]
      exact .last (length_tokenAt_extend h hstart hlt) fun hfull =>
        tokenAt_extend h hstart hlt (.inr hfull)
    · rw [tokenAt_extend h hstart hlt (.inl hmore)]
      exact .cons ih

/-- The tokens that are not revised: all but the last one, and that one too if it is as long as a
    token can be. -/
def settled (ts : List Token) : List Token :=
  if ∀ t ∈ ts.getLast?, t.length = maxMatch then ts else ts.dropLast

theorem prefix_settled (ts : List Token) : settled ts <+: ts := by
  unfold settled
  split
  · exact List.prefix_refl ts
  · exact List.dropLast_prefix ts

theorem settled_cons (t : Token) {ts : List Token} (hts : ts ≠ []) :
    settled (t :: ts) = t :: settled ts := by
  obtain ⟨t', ts, rfl⟩ := List.exists_cons_of_ne_nil hts
  rw [settled, settled, List.getLast?_cons_cons, List.dropLast_cons_cons]
  split <;> rfl

theorem Revises.keeps (h : Revises ts us) : settled ts <+: us := by
  induction h with
  | nil => exact List.nil_prefix
  | last _ hfull =>
    unfold settled
    split
    · rename_i hlast
      rw [hfull (hlast _ rfl)]
      exact List.prefix_append [_] _
    · exact List.nil_prefix
  | @cons t ts us _ ih =>
    cases ts with
    | nil => exact (prefix_settled [t]).trans (List.prefix_append [t] us)
    | cons t' ts =>
      rw [settled_cons t (List.cons_ne_nil t' ts)]
      exact (List.prefix_cons_inj t).2 ih

theorem Revises.length_tokenBits_le (h : Revises ts us) :
    (tokenBits ts).length ≤ (tokenBits us).length := by
  induction h with
  | nil => exact Nat.zero_le _
  | last hlen _ =>
    rw [length_tokenBits_cons, length_tokenBits_cons]
    exact Nat.add_le_add (Token.bits_le_bits hlen) (Nat.zero_le _)
  | cons _ ih =>
    rw [length_tokenBits_cons, length_tokenBits_cons]
    exact Nat.add_le_add_left ih _

/-! ## Compressed inputs -/

theorem prefix_bitsOf_encode {x : Bytes} (h : us <+: tokens x) :
    tokenBits us <+: bitsOf (encode x) := by
  obtain ⟨more, hmore⟩ := h
  obtain ⟨n, -, hbits⟩ := bitsOf_encode x
  rw [hbits, ← hmore, tokenBits_append, List.append_assoc]
  exact List.prefix_append _ _

/-- **A longer input.**  Its tokens begin with those of the shorter one, of which only the last may
    be missing, so both compressed inputs begin with the bits of these; and it takes no fewer
    bytes. -/
theorem encode_extended (x z : Bytes) :
    settled (tokens x) <+: tokens (x ++ z) ∧
      tokenBits (settled (tokens x)) <+: bitsOf (encode x) ∧
      tokenBits (settled (tokens x)) <+: bitsOf (encode (x ++ z)) ∧
      (encode x).length ≤ (encode (x ++ z)).length := by
  have hrevises : Revises (tokens x) (tokens (x ++ z)) :=
    revises_tokensFrom (extends_window x z) (Nat.le_refl _) (startPosition_le_size x)
  refine ⟨hrevises.keeps, prefix_bitsOf_encode (prefix_settled _),
    prefix_bitsOf_encode hrevises.keeps, ?_⟩
  rw [encode, encode, length_writeTokens, length_writeTokens]
  exact Nat.div_le_div_right (Nat.add_le_add_right hrevises.length_tokenBits_le 7)

end OtaPack.Lzss
