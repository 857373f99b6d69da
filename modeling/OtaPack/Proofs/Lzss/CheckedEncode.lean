/-
  Compression with a check at each step.

  * `checkedExtend`, `checkedScan`, `checkedToken`: a match, the search and a step of the
    compression, in which every sum, difference, index and field is checked;
  * `checkedEncode`: the compression of an input in such steps;
  * `checkedToken_eq`: inside the window no check fails, and the token is that of the compression;
  * `Reached size w r`: the compression of the window comes to the place `r`; `Reached.bounds`: all
    these places are inside the window;
  * `checkedEncode_eq`: the compression with checks is the compression.
-/
import OtaPack.Proofs.Checked
import OtaPack.Proofs.Lzss.Greedy

namespace OtaPack.Lzss

open Checked

/-! ## Steps -/

section
variable (size : Nat)

/-- Extends a match of `n` bytes as far as the bytes agree, up to `limit`. -/
def checkedExtend (w : Array UInt8) (i r limit n : Nat) : Checked Nat :=
  if h : n < limit then do
    let a ← index w (← word size (i + n))
    let b ← index w (← word size (r + n))
    if a = b then
      let _ ← word size (n + 1)
      checkedExtend w i r limit (n + 1)
    else .ok n
  else .ok n
termination_by limit - n

/-- Looks at `left` candidates from the place `low` on, the last one first, and keeps the best
    match.  Candidates with another first byte than `c` are passed over. -/
def checkedScan (w : Array UInt8) (r limit : Nat) (c : UInt8) (low : Nat) :
    (left : Nat) → Match → Checked Match
  | 0, best => .ok best
  | left + 1, best => do
    let i := low + left
    if (← index w i) = c then
      let n ← checkedExtend size w i r limit 1
      if best.length < n then
        if n = limit then .ok ⟨i, n⟩ else checkedScan w r limit c low left ⟨i, n⟩
      else checkedScan w r limit c low left best
    else checkedScan w r limit c low left best

/-- The token for the bytes of the window from `r` on, and the place after them. -/
def checkedToken (w : Array UInt8) (r : Nat) : Checked (Token × Nat) := do
  let limit := min maxMatch (← minus w.size r)
  let c ← index w r
  let low ← minus r startPosition
  let m ← checkedScan size w r limit c low (r - low) .none
  if m.length ≤ literalLimit then
    return (.literal c, ← word size (r + 1))
  else
    let position ← fits positionBits (m.start &&& (ringSize - 1))
    let excess ← fits lengthBits (← minus m.length minMatch)
    return (.reference position excess, ← word size (r + m.length))

end

variable {size : Nat} {w : Array UInt8} {r : Nat} {t : Token} {next : Nat}

/-- A step goes forward. -/
theorem lt_of_checkedToken (h : checkedToken size w r = .ok (t, next)) : r < next := by
  obtain ⟨left, -, h⟩ := exists_of_bind_eq_ok h
  obtain ⟨c, -, h⟩ := exists_of_bind_eq_ok h
  obtain ⟨low, -, h⟩ := exists_of_bind_eq_ok h
  obtain ⟨m, -, h⟩ := exists_of_bind_eq_ok h
  split at h
  · obtain ⟨n, hn, h⟩ := exists_of_bind_eq_ok h
    cases h
    rw [eq_of_word hn]
    exact Nat.lt_succ_self r
  · rename_i hlong
    obtain ⟨position, -, h⟩ := exists_of_bind_eq_ok h
    obtain ⟨n, -, h⟩ := exists_of_bind_eq_ok h
    obtain ⟨excess, -, h⟩ := exists_of_bind_eq_ok h
    obtain ⟨n, hn, h⟩ := exists_of_bind_eq_ok h
    cases h
    rw [eq_of_word hn]
    exact Nat.lt_add_of_pos_right (by omega)

/-! ## No check fails -/

theorem checkedExtend_eq {i limit n : Nat} (hi : i ≤ r) (hlimit : r + limit ≤ w.size)
    (hsize : w.size < size) :
    checkedExtend size w i r limit n = .ok (extendMatch w i r limit n) := by
  induction hk : limit - n using Nat.strongRecOn generalizing n with
  | _ k ih =>
    rw [checkedExtend, extendMatch]
    by_cases hn : n < limit
    · rw [dif_pos hn, word_of_lt (by omega), word_of_lt (by omega), word_of_lt (by omega)]
      simp only [ok_bind]
      rw [index_of_lt (by omega), index_of_lt (by omega)]
      simp only [ok_bind]
      by_cases heq : w.getD (i + n) 0 = w.getD (r + n) 0
      · rw [if_pos heq, if_pos ⟨hn, heq⟩]
        exact ih _ (by omega) rfl
      · rw [if_neg heq, if_neg fun h => heq h.2]
    · rw [dif_neg hn, if_neg fun h => hn h.1]

/-- A match whose first byte agrees may be counted from there. -/
theorem extendMatch_one {i limit : Nat} (hlimit : 0 < limit) (heq : w.getD i 0 = w.getD r 0) :
    extendMatch w i r limit 1 = matchLength w i r limit := by
  rw [matchLength, extendMatch.eq_def w i r limit 0, if_pos ⟨hlimit, heq⟩]

theorem checkedScan_eq {low left d : Nat} {best : Match} (hd : low + left + d = r + 1)
    (hpos : 1 ≤ d) (hr : r < w.size) (hsize : w.size < size) :
    checkedScan size w r (lookahead w r) (w.getD r 0) low left best =
      .ok (((List.range' d left).map (candidate w r)).foldl Match.better best) := by
  induction left generalizing d best with
  | zero => rfl
  | succ left ih =>
    have hi : low + left = r - d := by omega
    have hpositive : 0 < lookahead w r := by
      rw [lookahead]
      exact Nat.lt_min.2 ⟨by decide, by omega⟩
    have hlimit : r + lookahead w r ≤ w.size := by
      have hle : lookahead w r ≤ w.size - r := Nat.min_le_right _ _
      omega
    have hrest (best : Match) := @ih (d + 1) best (by omega) (by omega)
    rw [List.range'_succ, List.map_cons, List.foldl_cons, checkedScan, index_of_lt (by omega)]
    simp only [ok_bind]
    by_cases heq : w.getD (low + left) 0 = w.getD r 0
    · have hlength : extendMatch w (low + left) r (lookahead w r) 1 = (candidate w r d).length := by
        rw [extendMatch_one hpositive heq, candidate, hi]
      have hcandidate : ⟨low + left, (candidate w r d).length⟩ = candidate w r d := by
        rw [hi, candidate]
      rw [if_pos heq, checkedExtend_eq (by omega) hlimit hsize, hlength]
      simp only [ok_bind, hcandidate, hrest]
      by_cases hlonger : best.length < (candidate w r d).length
      · rw [if_pos hlonger, Match.better, if_pos hlonger]
        split
        · rename_i hfull
          rw [foldl_better_of_full hfull]
        · rfl
      · rw [if_neg hlonger, Match.better, if_neg hlonger]
    · have hzero : (candidate w r d).length = 0 := by
        rw [hi] at heq
        exact matchLength_of_ne heq
      rw [if_neg heq, hrest, better_of_le (by rw [hzero]; exact Nat.zero_le _)]

/-- A place in the window as a position in the ring. -/
theorem fits_position (i : Nat) :
    fits positionBits (i &&& (ringSize - 1)) = .ok (Fin.ofNat ringSize i) := by
  have hmod : i &&& (ringSize - 1) = i % ringSize := Nat.and_two_pow_sub_one_eq_mod i positionBits
  rw [hmod]
  exact fits_of_lt (Nat.mod_lt i (by decide))

/-- The length of a match that is worth it, in its field. -/
theorem fits_excess {n : Nat} (hworth : literalLimit < n) (hle : n ≤ maxMatch) :
    fits lengthBits (n - minMatch) = .ok (Fin.ofNat lengthCount (n - minMatch)) := by
  have hlt : n - minMatch < lengthCount := by
    have := minMatch_add_ofNat hworth hle
    simp only [maxMatch, minMatch, literalLimit] at *
    omega
  rw [fits_of_lt hlt]
  exact congrArg Except.ok (Fin.ext (Nat.mod_eq_of_lt hlt).symm)

/-- **Inside the window no check fails**, and the token is that of the compression. -/
theorem checkedToken_eq (hstart : startPosition ≤ r) (hr : r < w.size) (hsize : w.size < size) :
    checkedToken size w r = .ok (tokenAt w r, r + (tokenAt w r).length) := by
  have hbest : checkedScan size w r (min maxMatch (w.size - r)) (w.getD r 0) (r - startPosition)
      (r - (r - startPosition)) .none = .ok (longestMatch w r) := by
    rw [Nat.sub_sub_self hstart, longestMatch_eq_foldl]
    exact checkedScan_eq (by omega) (Nat.le_refl 1) hr hsize
  have hnext := add_length_tokenAt_le hstart hr
  have hlength := length_tokenAt w r
  have hmax := (tokenAt w r).length_le
  rw [checkedToken, minus_of_le (by omega), index_of_lt hr, minus_of_le hstart]
  simp only [ok_bind, hbest]
  by_cases hshort : (longestMatch w r).length ≤ literalLimit
  · have htoken : tokenAt w r = .literal (w.getD r 0) := if_pos hshort
    rw [if_pos hshort, word_of_lt (by omega), htoken]
    rfl
  · have htoken : tokenAt w r = .reference (Fin.ofNat _ (longestMatch w r).start)
        (Fin.ofNat _ ((longestMatch w r).length - minMatch)) := if_neg hshort
    have hworth := Nat.lt_of_not_le hshort
    rw [hlength] at hnext hmax ⊢
    rw [if_neg hshort, fits_position, minus_of_le hworth, word_of_lt (by omega), htoken]
    simp only [ok_bind, fits_excess hworth hmax]
    rfl

/-! ## Runs -/

/-- Moves the tokens for the bytes of the window from `r` on to the end of `acc`. -/
def checkedTokens (size : Nat) (w : Array UInt8) (r : Nat) (acc : Array Token) :
    Checked (Array Token) :=
  if r < w.size then
    match _h : checkedToken size w r with
    | .ok (t, next) => checkedTokens size w next (acc.push t)
    | .error fault => .error fault
  else .ok acc
termination_by w.size - r
decreasing_by
  have := lt_of_checkedToken _h
  omega

/-- Compresses a byte string. -/
def checkedEncode (size : Nat) (input : Bytes) : Checked Bytes := do
  let _ ← word size (startPosition + input.length)
  return writeTokens (← checkedTokens size (window input) startPosition #[]).toList

/-- The compression of the window `w` comes to the place `r`. -/
inductive Reached (size : Nat) (w : Array UInt8) : Nat → Prop
  | start : Reached size w startPosition
  | step {r next : Nat} {t : Token} : Reached size w r → r < w.size →
      checkedToken size w r = .ok (t, next) → Reached size w next

/-- **All places that a compression comes to are inside the window.** -/
theorem Reached.bounds (h : Reached size w r) (hw : startPosition ≤ w.size)
    (hsize : w.size < size) : startPosition ≤ r ∧ r ≤ w.size := by
  induction h with
  | start => exact ⟨Nat.le_refl _, hw⟩
  | step _ hr htoken ih =>
    obtain ⟨hstart, -⟩ := ih
    rw [checkedToken_eq hstart hr hsize] at htoken
    cases htoken
    exact ⟨Nat.le_trans hstart (Nat.le_add_right _ _), add_length_tokenAt_le hstart hr⟩

theorem checkedTokens_eq (hstart : startPosition ≤ r) (hsize : w.size < size)
    (acc : Array Token) : checkedTokens size w r acc = .ok (tokensOnto w r acc) := by
  fun_induction tokensOnto w r acc with
  | case1 r acc hr t ih =>
    rw [checkedTokens, if_pos hr]
    split <;> rename_i htoken <;> rw [checkedToken_eq hstart hr hsize] at htoken <;> cases htoken
    exact ih (Nat.le_trans hstart (Nat.le_add_right _ _))
  | case2 r acc hr => rw [checkedTokens, if_neg hr]

/-- **The compression with checks is the compression.** -/
theorem checkedEncode_eq {input : Bytes} (h : startPosition + input.length < size) :
    checkedEncode size input = .ok (encode input) := by
  have hsize : (window input).size < size := by
    rw [size_window]
    exact h
  rw [checkedEncode, word_of_lt h, ok_bind, checkedTokens_eq (Nat.le_refl _) hsize]
  rfl

end OtaPack.Lzss
