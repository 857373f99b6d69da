/-
  The tokens that compression finds are a parse.

  * `longestMatch_spec`: the match found is a candidate, if it is worth a reference;
  * `fits_tokenAt`: the token for the bytes from `r` on stands for them; `Fits.length_le`: no token
    that does is longer;
  * `tokensFrom w r`: the tokens from `r` on, one after the other; `tokensFrom_induction`: how to
    prove something about them;
  * `parses_tokens`: the tokens of an input stand for all its bytes.
-/
import OtaPack.Lzss.Encode
import OtaPack.Proofs.Lzss.Parse
import OtaPack.Proofs.Lzss.Search

namespace OtaPack.Lzss

/-! ## The search for a match -/

/-- The longest match is a candidate that is not too far back, or nothing that is worth a
    reference. -/
theorem longestMatch_spec (w : Array UInt8) (r : Nat) :
    (longestMatch w r).length ≤ literalLimit ∨
      ∃ d, 1 ≤ d ∧ d ≤ startPosition ∧ longestMatch w r = candidate w r d := by
  rcases List.mem_cons.1 (firstLongest_longestMatch w r).mem with hnone | hcandidate
  · rw [hnone]
    exact Or.inl (Nat.le_refl _)
  · obtain ⟨d, hd, hle, heq⟩ := mem_candidates.1 hcandidate
    exact Or.inr ⟨d, hd, hle, heq.symm⟩

/-- A reference tells the length of a match that is worth it. -/
theorem minMatch_add_ofNat {n : Nat} (hworth : literalLimit < n) (hle : n ≤ maxMatch) :
    minMatch + (Fin.ofNat lengthCount (n - minMatch)).val = n := by
  simp only [Fin.ofNat, maxMatch, minMatch, literalLimit, lengthCount, lengthBits,
    Nat.reduceShiftLeft] at *
  omega

/-- A candidate of two bytes or more can be told by a reference. -/
theorem fits_candidate {w : Array UInt8} {r d : Nat} (hd : 1 ≤ d) (hle : d ≤ startPosition)
    (hstart : startPosition ≤ r) (hr : r < w.size)
    (hlong : literalLimit < (candidate w r d).length) :
    Fits w r (.reference (Fin.ofNat _ (candidate w r d).start)
      (Fin.ofNat _ ((candidate w r d).length - minMatch))) := by
  have hlook : (candidate w r d).length ≤ lookahead w r := matchLength_le _ _ _ _
  have hmax : lookahead w r ≤ maxMatch := Nat.min_le_left _ _
  have hleft : lookahead w r ≤ w.size - r := Nat.min_le_right _ _
  have hlen := minMatch_add_ofNat hlong (Nat.le_trans hlook hmax)
  refine Fits.reference (i := r - d) (by omega) (by omega) (by rw [hlen]; omega) ?_
  intro k hk
  rw [hlen] at hk
  exact getD_of_lt_matchLength hk

/-- **The token for the bytes from `r` on stands for them.** -/
theorem fits_tokenAt {w : Array UInt8} {r : Nat} (hstart : startPosition ≤ r) (hr : r < w.size) :
    Fits w r (tokenAt w r) := by
  unfold tokenAt
  by_cases hshort : (longestMatch w r).length ≤ literalLimit
  · rw [if_pos hshort]
    exact Fits.literal hr
  · rw [if_neg hshort]
    rcases longestMatch_spec w r with h | ⟨d, hd, hle, hm⟩
    · exact absurd h hshort
    · rw [hm] at hshort ⊢
      exact fits_candidate hd hle hstart hr (Nat.lt_of_not_le hshort)

theorem add_length_tokenAt_le {w : Array UInt8} {r : Nat} (hstart : startPosition ≤ r)
    (hr : r < w.size) : r + (tokenAt w r).length ≤ w.size :=
  length_le_of_fits (fits_tokenAt hstart hr)

/-! ## The longest token -/

/-- The token for the bytes from `r` on is as long as the longest match. -/
theorem length_tokenAt (w : Array UInt8) (r : Nat) :
    (tokenAt w r).length = (longestMatch w r).length := by
  unfold tokenAt
  by_cases hshort : (longestMatch w r).length ≤ literalLimit
  · rw [if_pos hshort]
    exact Nat.le_antisymm ((firstLongest_longestMatch w r).length_le List.mem_cons_self) hshort
  · rw [if_neg hshort]
    rcases longestMatch_spec w r with h | ⟨d, -, -, hm⟩
    · exact absurd h hshort
    · have hlook : (longestMatch w r).length ≤ lookahead w r := by
        rw [hm]
        exact matchLength_le _ _ _ _
      exact minMatch_add_ofNat (Nat.lt_of_not_le hshort)
        (Nat.le_trans hlook (Nat.min_le_left _ _))

theorem length_candidate_le {w : Array UInt8} {r : Nat} {m : Match} (hm : m ∈ candidates w r) :
    m.length ≤ (tokenAt w r).length := by
  rw [length_tokenAt]
  exact (firstLongest_longestMatch w r).length_le (List.mem_cons_of_mem _ hm)

/-- **No token that fits is longer.** -/
theorem Fits.length_le {w : Array UInt8} {r : Nat} {t : Token} (h : Fits w r t) :
    t.length ≤ (tokenAt w r).length := by
  cases h with
  | literal => exact Token.length_pos _
  | @reference i excess hi hnear hle heq =>
    have hlook : minMatch + excess.val ≤ lookahead w r :=
      Nat.le_min_of_le_of_le (Token.length_le (.reference 0 excess)) (Nat.le_sub_of_add_le' hle)
    exact Nat.le_trans ((reaches_matchLength w r i).2 ⟨hlook, heq⟩)
      (length_candidate_le (mem_candidates_of_near hi hnear))

/-! ## All tokens -/

theorem tokensOnto_of_lt {w : Array UInt8} {r : Nat} (hr : r < w.size) (acc : Array Token) :
    tokensOnto w r acc = tokensOnto w (r + (tokenAt w r).length) (acc.push (tokenAt w r)) := by
  rw [tokensOnto, if_pos hr]

theorem tokensOnto_of_not_lt {w : Array UInt8} {r : Nat} (hr : ¬ r < w.size) (acc : Array Token) :
    tokensOnto w r acc = acc := by
  rw [tokensOnto, if_neg hr]

/-- The tokens for the bytes of the window from `r` on. -/
def tokensFrom (w : Array UInt8) (r : Nat) : List Token :=
  (tokensOnto w r #[]).toList

theorem toList_tokensOnto (w : Array UInt8) (r : Nat) (acc : Array Token) :
    (tokensOnto w r acc).toList = acc.toList ++ tokensFrom w r := by
  induction hk : w.size - r using Nat.strongRecOn generalizing r acc with
  | _ k ih =>
    rw [tokensFrom]
    by_cases hr : r < w.size
    · have hlt : w.size - (r + (tokenAt w r).length) < k := by
        have := (tokenAt w r).length_pos
        omega
      rw [tokensOnto_of_lt hr, tokensOnto_of_lt hr, ih _ hlt _ _ rfl, ih _ hlt _ _ rfl,
        Array.toList_push, Array.toList_push, List.append_assoc]
      rfl
    · rw [tokensOnto_of_not_lt hr, tokensOnto_of_not_lt hr, List.append_nil]

theorem tokensFrom_of_lt {w : Array UInt8} {r : Nat} (hr : r < w.size) :
    tokensFrom w r = tokenAt w r :: tokensFrom w (r + (tokenAt w r).length) := by
  rw [tokensFrom, tokensOnto_of_lt hr, toList_tokensOnto]
  rfl

theorem tokensFrom_size (w : Array UInt8) : tokensFrom w w.size = [] := by
  rw [tokensFrom, tokensOnto_of_not_lt (Nat.lt_irrefl _)]

/-- What holds of no tokens at the end, and of the tokens from a place on whenever it holds of all
    but the first of them, holds of the tokens from every place on. -/
theorem tokensFrom_induction {w : Array UInt8} {motive : Nat → List Token → Prop}
    (done : motive w.size [])
    (next : ∀ r ts, startPosition ≤ r → r < w.size → motive (r + (tokenAt w r).length) ts →
      motive r (tokenAt w r :: ts))
    {r : Nat} (hstart : startPosition ≤ r) (hr : r ≤ w.size) : motive r (tokensFrom w r) := by
  induction hk : w.size - r using Nat.strongRecOn generalizing r with
  | _ k ih =>
    rcases Nat.eq_or_lt_of_le hr with rfl | hlt
    · rw [tokensFrom_size]
      exact done
    · have hend := add_length_tokenAt_le hstart hlt
      have hpos := (tokenAt w r).length_pos
      rw [tokensFrom_of_lt hlt]
      exact next r _ hstart hlt (ih _ (by omega) (by omega) hend rfl)

theorem parses_tokensFrom {w : Array UInt8} {r : Nat} (hstart : startPosition ≤ r)
    (hr : r ≤ w.size) : Parses w r (tokensFrom w r) :=
  tokensFrom_induction Parses.nil
    (fun _ _ hstart hlt hrest => Parses.cons (fits_tokenAt hstart hlt) hrest) hstart hr

theorem size_window (x : Bytes) : (window x).size = startPosition + x.length := by
  rw [← Array.length_toList, toList_window, List.length_append, length_blanks]

theorem startPosition_le_size (x : Bytes) : startPosition ≤ (window x).size := by
  rw [size_window]
  exact Nat.le_add_right _ _

/-- **The tokens of an input stand for all its bytes.** -/
theorem parses_tokens (x : Bytes) : Parses (window x) startPosition (tokens x) :=
  parses_tokensFrom (Nat.le_refl _) (startPosition_le_size x)

end OtaPack.Lzss
