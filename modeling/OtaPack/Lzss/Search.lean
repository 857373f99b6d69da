/-
  Searching the window for the best match.

  The window is the blanks that the ring starts with and then the whole input, so that a place in
  the window is a ring position modulo the ring's size.  A match may run into the bytes that it
  produces itself.

  * `window input`: the blanks and the input;
  * `matchLength w i r limit`: how many bytes from `i` on, up to `limit`, are those from `r` on;
  * `Match`, `longestMatch w r`: the longest match for the bytes from `r` on, the nearest of those
    of equal length.  The search goes from the nearest candidate to the farthest, accepts only
    longer matches, and ends early at one that cannot be beaten;
  * `matchLength_le` and `getD_of_lt_matchLength`: the matching bytes agree, up to the limit.
-/
import OtaPack.Lzss.Token

namespace OtaPack.Lzss

/-- The blanks of the ring and then the input. -/
def window (input : Bytes) : Array UInt8 :=
  Array.replicate startPosition blank ++ input

/-! ## The length of a match -/

/-- Extends a match of `n` bytes as far as the bytes agree, up to `limit`. -/
def extendMatch (w : Array UInt8) (i r limit n : Nat) : Nat :=
  if n < limit ∧ w.getD (i + n) 0 = w.getD (r + n) 0 then extendMatch w i r limit (n + 1) else n
termination_by limit - n

/-- How many bytes from `i` on, up to `limit`, agree with those from `r` on. -/
def matchLength (w : Array UInt8) (i r limit : Nat) : Nat :=
  extendMatch w i r limit 0

theorem extendMatch_le {w : Array UInt8} {i r limit n : Nat} (h : n ≤ limit) :
    extendMatch w i r limit n ≤ limit := by
  fun_induction extendMatch w i r limit n with
  | case1 n hn ih => exact ih hn.1
  | case2 => exact h

/-- The bytes that an extension adds agree. -/
theorem getD_of_lt_extendMatch {w : Array UInt8} {i r limit n k : Nat} (hk : n ≤ k)
    (h : k < extendMatch w i r limit n) : w.getD (i + k) 0 = w.getD (r + k) 0 := by
  fun_induction extendMatch w i r limit n with
  | case1 n hn ih =>
    by_cases e : k = n
    · exact e ▸ hn.2
    · exact ih (by omega) h
  | case2 => omega

theorem matchLength_le (w : Array UInt8) (i r limit : Nat) : matchLength w i r limit ≤ limit :=
  extendMatch_le (Nat.zero_le _)

/-- The bytes of a match agree. -/
theorem getD_of_lt_matchLength {w : Array UInt8} {i r limit k : Nat}
    (h : k < matchLength w i r limit) : w.getD (i + k) 0 = w.getD (r + k) 0 :=
  getD_of_lt_extendMatch (Nat.zero_le _) h

/-! ## The best match -/

/-- A match: where it starts in the window, and its length. -/
structure Match where
  start : Nat
  length : Nat
deriving DecidableEq, Repr

/-- A single byte is always there to be written, so only longer matches count. -/
def Match.none : Match := ⟨0, literalLimit⟩

/-- The better of two matches, where the first one wins if both are of the same length. -/
def Match.better (m m' : Match) : Match :=
  if m.length < m'.length then m' else m

/-- Looks at the candidates at the distances `d`, `d + 1`, … behind `r`, `left` of them, and keeps
    the best match. -/
def scan (w : Array UInt8) (r limit : Nat) : (left d : Nat) → Match → Match
  | 0, _, best => best
  | left + 1, d, best =>
    let best := best.better ⟨r - d, matchLength w (r - d) r limit⟩
    -- nothing is longer than the limit
    if best.length = limit then best else scan w r limit left (d + 1) best

/-- How many bytes the match for the bytes from `r` on may have. -/
def lookahead (w : Array UInt8) (r : Nat) : Nat :=
  min maxMatch (w.size - r)

/-- The longest match for the bytes from `r` on, and of those the nearest. -/
def longestMatch (w : Array UInt8) (r : Nat) : Match :=
  scan w r (lookahead w r) startPosition 1 .none

end OtaPack.Lzss
