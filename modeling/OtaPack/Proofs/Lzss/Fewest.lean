/-
  No tokens for an input are fewer than those that compression finds.

  * `Rebuilds ts out x`: the tokens `ts`, each a byte or a copy of bytes that are not too far back,
    make `x` of the bytes `out`; `rebuilds_iff`: such tokens are the parses of the window;
  * `Fits.tail`: what is left of a token from a later place on is a token that fits there;
  * `Fits.end_le`: so the token that is found at the later place ends no earlier;
  * `length_tokensFrom_le`: after as many tokens no other parse is ahead, hence none ends earlier;
  * `tokens_fewest`: the tokens of an input are the fewest that make it.
-/
import Mathlib.Order.Bounds.Basic
import OtaPack.Proofs.Lzss.Greedy

namespace OtaPack.Lzss

variable {w : Array UInt8} {x out more : Bytes} {r g d n : Nat} {t : Token} {ts : List Token}

/-! ## Tokens that make an input -/

/-- The tokens make `x` of the bytes so far.  Each one is a byte, or a copy of as many bytes as a
    reference can tell, from one of the 2031 places before the end, where blanks stand before the
    first byte.  A copy may overlap itself.  It is told by the position of its place in the ring. -/
inductive Rebuilds : List Token → Bytes → Bytes → Prop
  | done {out : Bytes} : Rebuilds [] out out
  | literal {byte : UInt8} {ts : List Token} {out x : Bytes} :
      Rebuilds ts (out ++ [byte]) x → Rebuilds (.literal byte :: ts) out x
  | copy {distance : Nat} {excess : Fin lengthCount} {ts : List Token} {out x : Bytes} :
      1 ≤ distance → distance ≤ startPosition →
      Rebuilds ts (copyBack out distance (minMatch + excess)) x →
      Rebuilds (.reference (Fin.ofNat _ (startPosition + out.length - distance)) excess :: ts) out x

theorem length_copyBack (out : Bytes) (d n : Nat) : (copyBack out d n).length = out.length + n := by
  obtain ⟨added, hadded, hlen⟩ := exists_copyBack out d n
  rw [hadded, List.length_append, hlen]

theorem Rebuilds.exists_eq_append (h : Rebuilds ts out x) : ∃ more, x = out ++ more := by
  induction h with
  | done => exact ⟨[], (List.append_nil _).symm⟩
  | literal _ ih =>
    obtain ⟨more, rfl⟩ := ih
    exact ⟨_, List.append_assoc _ _ _⟩
  | @copy distance excess ts out x _ _ _ ih =>
    obtain ⟨more, rfl⟩ := ih
    obtain ⟨added, hadded, -⟩ := exists_copyBack out distance (minMatch + excess)
    exact ⟨added ++ more, by rw [hadded, List.append_assoc]⟩

theorem take_window (h : x = out ++ more) :
    blanks ++ out = (window x).toList.take (startPosition + out.length) := by
  rw [toList_window, h, ← List.append_assoc, List.take_left']
  rw [List.length_append, length_blanks]

theorem getD_window {c : UInt8} (h : x = out ++ c :: more) :
    startPosition + out.length < (window x).size ∧
      (window x).getD (startPosition + out.length) 0 = c := by
  have hlt : startPosition + out.length < (window x).size := by
    rw [size_window, h, List.length_append, List.length_cons]
    omega
  have hnext : x = (out ++ [c]) ++ more := by rw [h, List.append_assoc]; rfl
  have htake := take_window hnext
  rw [List.length_append, List.length_singleton, ← Nat.add_assoc, take_succ_window hlt,
    ← take_window h, ← List.append_assoc] at htake
  exact ⟨hlt, (List.cons.inj (List.append_cancel_left htake)).1.symm⟩

/-- What has been copied agrees with what it has been copied from, also where the two overlap. -/
theorem getD_of_copyBack (hd : 1 ≤ d) (hle : d ≤ startPosition) (h : x = copyBack out d n ++ more) :
    ∀ k < n, (window x).getD (startPosition + out.length - d + k) 0 =
      (window x).getD (startPosition + out.length + k) 0 := by
  induction n generalizing out with
  | zero => exact fun k hk => absurd hk (Nat.not_lt_zero k)
  | succ n ih =>
    obtain ⟨added, hadded, -⟩ := exists_copyBack (out ++ [lookBack out d]) d n
    have hfirst : x = out ++ lookBack out d :: (added ++ more) := by
      rw [h, copyBack, hadded, List.append_assoc, List.append_assoc]
      rfl
    obtain ⟨hlt, hbyte⟩ := getD_window hfirst
    rintro (_ | k) hk
    · rw [Nat.add_zero, Nat.add_zero, hbyte, ← lookBack_blanks_append, take_window hfirst,
        lookBack_take hd (Nat.le_add_right_of_le hle) (Nat.le_of_lt hlt)]
    · have hnext := ih h k (Nat.lt_of_succ_lt_succ hk)
      rw [List.length_append, List.length_singleton] at hnext
      rwa [show startPosition + out.length - d + (k + 1) =
          startPosition + (out.length + 1) - d + k by omega,
        show startPosition + out.length + (k + 1) = startPosition + (out.length + 1) + k by omega]

theorem Rebuilds.parses (h : Rebuilds ts out x) :
    Parses (window x) (startPosition + out.length) ts := by
  induction h with
  | @done out =>
    rw [← size_window]
    exact .nil
  | @literal byte ts out x hts ih =>
    obtain ⟨more, hmore⟩ := hts.exists_eq_append
    rw [List.append_assoc] at hmore
    obtain ⟨hlt, hbyte⟩ := getD_window hmore
    rw [List.length_append] at ih
    exact .cons (hbyte ▸ .literal hlt) ih
  | @copy distance excess ts out x hpos hle hts ih =>
    obtain ⟨more, hmore⟩ := hts.exists_eq_append
    have hend := length_copyBack out distance (minMatch + excess)
    have hsize : (window x).size =
        startPosition + (out.length + (minMatch + excess) + more.length) := by
      rw [size_window, hmore, List.length_append, hend]
    rw [hend, ← Nat.add_assoc] at ih
    refine .cons (.reference ?_ ?_ ?_ (getD_of_copyBack hpos hle hmore)) ih
    · omega
    · omega
    · omega

theorem rebuilds_of_parses (hts : Parses (window x) r ts)
    (h : blanks ++ out = (window x).toList.take r) : Rebuilds ts out x := by
  induction hts generalizing out with
  | nil =>
    rw [List.take_of_length_le (by simp), toList_window] at h
    rw [List.append_cancel_left h]
    exact .done
  | @cons r t ts ht _ ih =>
    have hnext := ih (blanks_append_expand h ht)
    cases ht with
    | literal => exact .literal hnext
    | @reference i excess hi hnear hle _ =>
      have hlen : startPosition + out.length = r := length_of_take h (by omega)
      have hring : startPosition ≤ ringSize := Nat.sub_le _ _
      have hplace : i = startPosition + out.length - (r - i) := by omega
      rw [expand, hlen, behind_ofNat hi (by omega)] at hnext
      rw [hplace]
      exact .copy (by omega) (by omega) hnext

/-- **Tokens that make an input are the parses of its window.** -/
theorem rebuilds_iff : Rebuilds ts [] x ↔ Parses (window x) startPosition ts :=
  ⟨Rebuilds.parses, fun hts => rebuilds_of_parses hts (take_window (List.nil_append x).symm)⟩

/-! ## No parse is ahead -/

/-- What is left of a match from a later place on is a match at the same distance. -/
theorem Fits.tail (h : Fits w r t) (hg : r ≤ g) (hend : g + minMatch ≤ r + t.length) :
    ∃ t', Fits w g t' ∧ g + t'.length = r + t.length := by
  cases h with
  | literal =>
    have hone : (Token.literal (w.getD r 0)).length + 1 = minMatch := rfl
    omega
  | @reference i excess hi hnear hle heq =>
    have hlen : (Token.reference (Fin.ofNat _ i) excess).length = minMatch + excess := rfl
    rw [hlen] at hend ⊢
    have hpast : g - r ≤ excess.val := by omega
    obtain ⟨left, hleft⟩ : ∃ left : Fin lengthCount, g - r + left.val = excess :=
      ⟨⟨excess - (g - r), by omega⟩, Nat.add_sub_cancel' hpast⟩
    refine ⟨.reference (Fin.ofNat _ (i + (g - r))) left, .reference ?_ ?_ ?_ ?_, ?_⟩
    · omega
    · omega
    · omega
    · intro k hk
      have hagree := heq (g - r + k) (by omega)
      rwa [← Nat.add_assoc, ← Nat.add_assoc, Nat.add_sub_cancel' hg] at hagree
    · rw [Token.length]
      omega

/-- **A later start, no earlier end.**  If a single byte is left of a token, any token covers it. -/
theorem Fits.end_le (h : Fits w r t) (hg : r ≤ g) : r + t.length ≤ g + (tokenAt w g).length := by
  by_cases hend : g + minMatch ≤ r + t.length
  · obtain ⟨t', ht', hsame⟩ := h.tail hg hend
    have hlen := ht'.length_le
    omega
  · have hpos := (tokenAt w g).length_pos
    simp only [minMatch, literalLimit] at hend
    omega

/-- From a place that is not behind another one, the tokens that are found are no more than those of
    a parse from the other one. -/
theorem length_tokensFrom_le (hts : Parses w r ts) (hrg : r ≤ g) (hstart : startPosition ≤ g)
    (hg : g ≤ w.size) : (tokensFrom w g).length ≤ ts.length := by
  induction hts generalizing g with
  | nil =>
    obtain rfl := Nat.le_antisymm hg hrg
    rw [tokensFrom_size]
  | cons ht _ ih =>
    rcases Nat.eq_or_lt_of_le hg with rfl | hlt
    · rw [tokensFrom_size]
      exact Nat.zero_le _
    · rw [tokensFrom_of_lt hlt]
      exact Nat.succ_le_succ (ih (ht.end_le hrg) (Nat.le_add_right_of_le hstart)
        (add_length_tokenAt_le hstart hlt))

/-- **The fewest tokens.**  The tokens of an input make it, and no others that make it are fewer. -/
theorem tokens_fewest (x : Bytes) :
    IsLeast (List.length '' {ts | Rebuilds ts [] x}) (tokens x).length := by
  refine ⟨⟨tokens x, rebuilds_iff.2 (parses_tokens x), rfl⟩, ?_⟩
  rintro _ ⟨ts, hts, rfl⟩
  exact length_tokensFrom_le (rebuilds_iff.1 hts) (Nat.le_refl _) (Nat.le_refl _)
    (startPosition_le_size x)

end OtaPack.Lzss
