/-
  What is chosen at every place.

  * `Chosen w r t`: the token that a search through all earlier places in reach chooses for the
    bytes from `r` on: the longest match, the nearest of these, or the byte itself if no match is
    worth it; `chosen_tokenAt`, `Chosen.unique`: that is the token, and there is no other;
  * `ChosenFrom w r ts`: tokens that are chosen like this, one after the other, up to the end;
  * `encode_exhaustive`: the tokens of a compressed input are chosen like this.
-/
import OtaPack.Proofs.Lzss.Greedy
import OtaPack.Proofs.Lzss.TokenStream

namespace OtaPack.Lzss

variable {w : Array UInt8} {r i n : Nat} {t t' : Token} {ts : List Token}

/-- The place `i` is before `r`, and not too far. -/
def InReach (r i : Nat) : Prop :=
  r ≤ i + startPosition ∧ i < r

/-- The token that an exhaustive search chooses for the bytes from `r` on. -/
inductive Chosen (w : Array UInt8) (r : Nat) : Token → Prop
  | literal : r < w.size → (∀ i n, InReach r i → Reaches w r i n → n < minMatch) →
      Chosen w r (.literal (w.getD r 0))
  | reference {i : Nat} {excess : Fin lengthCount} : InReach r i →
      Reaches w r i (minMatch + excess) →
      (∀ i' n, InReach r i' → Reaches w r i' n →
        n ≤ minMatch + excess ∧ (n = minMatch + excess → i' ≤ i)) →
      Chosen w r (.reference (Fin.ofNat _ i) excess)

/-- Tokens that are chosen one after the other, each from where the one before it ends, up to the
    end of the window. -/
inductive ChosenFrom (w : Array UInt8) : Nat → List Token → Prop
  | done : ChosenFrom w w.size []
  | next {r : Nat} {t : Token} {ts : List Token} : Chosen w r t →
      ChosenFrom w (r + t.length) ts → ChosenFrom w r (t :: ts)

/-! ## One token -/

theorem Chosen.lt_size (h : Chosen w r t) : r < w.size := by
  cases h with
  | literal hr _ => exact hr
  | @reference i excess _ hreach _ =>
    have hle : minMatch + excess.val ≤ w.size - r :=
      Nat.le_trans hreach.1.1 (Nat.min_le_right _ _)
    have hpos : 0 < minMatch := by decide
    omega

theorem Chosen.unique (h : Chosen w r t) (h' : Chosen w r t') : t = t' := by
  cases h with
  | literal _ hnone =>
    cases h' with
    | literal => rfl
    | reference hi hreach _ =>
      exact absurd (hnone _ _ hi hreach) (Nat.not_lt_of_le (Nat.le_add_right _ _))
  | @reference i excess hi hreach hbest =>
    cases h' with
    | literal _ hnone =>
      exact absurd (hnone _ _ hi hreach) (Nat.not_lt_of_le (Nat.le_add_right _ _))
    | @reference i' excess' hi' hreach' hbest' =>
      obtain ⟨hle, hnear⟩ := hbest _ _ hi' hreach'
      obtain ⟨hle', hnear'⟩ := hbest' _ _ hi hreach
      have hexcess : excess = excess' := Fin.ext (by omega)
      subst hexcess
      rw [Nat.le_antisymm (hnear' rfl) (hnear rfl)]

/-- A place in reach is that of a candidate. -/
theorem exists_candidate (hi : InReach r i) (hn : Reaches w r i n) :
    ⟨i, n⟩ ∈ candidates w r := by
  rw [hn.eq_matchLength]
  exact mem_candidates_of_near hi.2 hi.1

/-- **What is found is what an exhaustive search chooses.** -/
theorem chosen_tokenAt (hstart : startPosition ≤ r) (hr : r < w.size) :
    Chosen w r (tokenAt w r) := by
  have hlongest {i n : Nat} (hi : InReach r i) (hn : Reaches w r i n) :
      n ≤ (longestMatch w r).length :=
    (firstLongest_longestMatch w r).length_le (List.mem_cons_of_mem _ (exists_candidate hi hn))
  unfold tokenAt
  by_cases hshort : (longestMatch w r).length ≤ literalLimit
  · rw [if_pos hshort]
    refine .literal hr fun i n hi hn => ?_
    exact Nat.lt_succ_of_le (Nat.le_trans (hlongest hi hn) hshort)
  · rw [if_neg hshort]
    have hworth := Nat.lt_of_not_le hshort
    have hnearest {m : Match} := start_le_longestMatch (m := m) hworth
    rcases longestMatch_spec w r with h | ⟨d, hd, hle, hm⟩
    · exact absurd h hshort
    · rw [hm] at hworth hlongest hnearest ⊢
      have hlook : (candidate w r d).length ≤ lookahead w r := matchLength_le _ _ _ _
      have hlen := minMatch_add_ofNat hworth (Nat.le_trans hlook (Nat.min_le_left _ _))
      refine .reference (i := r - d) ⟨by omega, by omega⟩ ?_ ?_
      · rw [hlen]
        exact reaches_matchLength w r (r - d)
      · rw [hlen]
        exact fun i n hi hn => ⟨hlongest hi hn, hnearest (exists_candidate hi hn)⟩

/-! ## All tokens -/

theorem chosenFrom_iff (hstart : startPosition ≤ r) (hr : r ≤ w.size) :
    ChosenFrom w r ts ↔ tokensFrom w r = ts := by
  constructor
  · intro h
    induction h with
    | done => exact tokensFrom_size w
    | @next r t ts hchosen _ ih =>
      have hlt := hchosen.lt_size
      have hsame := (chosen_tokenAt hstart hlt).unique hchosen
      have hend := add_length_tokenAt_le hstart hlt
      rw [hsame] at hend
      rw [tokensFrom_of_lt hlt, hsame, ih (by omega) hend]
  · rintro rfl
    exact tokensFrom_induction ChosenFrom.done
      (fun _ _ hstart hlt hrest => ChosenFrom.next (chosen_tokenAt hstart hlt) hrest) hstart hr

/-- **The search is exhaustive.**  Every token is the one that a search through all places in reach
    chooses, and the next one starts where it ends, up to the end of the input.  To end a search
    early and to pass over candidates whose first byte differs does not change what is found. -/
theorem encode_exhaustive (x : Bytes) (ts : List Token) :
    (encode x = writeTokens ts ↔ ChosenFrom (window x) startPosition ts) ∧
      ∀ r, longestMatch (window x) r = (candidates (window x) r).foldl Match.better .none ∧
        longestMatch (window x) r = ((candidates (window x) r).filter fun m =>
          (window x).getD m.start 0 = (window x).getD r 0).foldl Match.better .none := by
  refine ⟨?_, fun r => ⟨longestMatch_eq_foldl _ r, longestMatch_eq_foldl_filter _ r⟩⟩
  rw [chosenFrom_iff (Nat.le_refl _) (by rw [size_window]; exact Nat.le_add_right _ _)]
  exact ⟨writeTokens_injective, congrArg writeTokens⟩

end OtaPack.Lzss
