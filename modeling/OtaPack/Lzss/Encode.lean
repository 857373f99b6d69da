/-
  LZSS compression.

  * `tokenAt w r`: the token for the bytes of the window from `r` on, which is a reference to the
    longest match if that is worth it, and a literal otherwise;
  * `tokens input`: the tokens for an input, each starting where the one before it ends;
  * `encode input`: the tokens as a byte stream.
-/
import OtaPack.Lzss.Search

namespace OtaPack.Lzss

/-- The token for the bytes of the window from `r` on. -/
def tokenAt (w : Array UInt8) (r : Nat) : Token :=
  let m := longestMatch w r
  if m.length ≤ literalLimit then .literal (w.getD r 0)
  else .reference (Fin.ofNat _ m.start) (Fin.ofNat _ (m.length - minMatch))

/-- Moves the tokens for the bytes of the window from `r` on to the end of `acc`. -/
def tokensOnto (w : Array UInt8) (r : Nat) (acc : Array Token) : Array Token :=
  if r < w.size then
    let t := tokenAt w r
    tokensOnto w (r + t.length) (acc.push t)
  else acc
termination_by w.size - r
decreasing_by
  have := (tokenAt w r).length_pos
  omega

/-- The tokens for an input. -/
def tokens (input : Bytes) : List Token :=
  (tokensOnto (window input) startPosition #[]).toList

/-- Compresses a byte string. -/
def encode (input : Bytes) : Bytes :=
  writeTokens (tokens input)

end OtaPack.Lzss
