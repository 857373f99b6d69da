/-
  Parses: sequences of tokens that stand for what is left of a window.

  * `Fits w r t`: the token `t` stands for bytes of the window from `r` on: the byte there, or bytes
    that agree with those of an earlier place, which may overlap them;
  * `Parses w r ts`: the tokens `ts` stand for all bytes from `r` on;
  * `foldl_expand_of_parses`: expanding the tokens of a parse gives these bytes.
-/
import OtaPack.Lzss.Search
import OtaPack.Proofs.Lzss.History

namespace OtaPack.Lzss

/-- The token stands for bytes of the window from `r` on. -/
inductive Fits (w : Array UInt8) (r : Nat) : Token → Prop
  | literal : r < w.size → Fits w r (.literal (w.getD r 0))
  | reference {i : Nat} {excess : Fin lengthCount} : i < r → r ≤ i + startPosition →
      r + (minMatch + excess) ≤ w.size →
      (∀ k < minMatch + excess.val, w.getD (i + k) 0 = w.getD (r + k) 0) →
      Fits w r (.reference (Fin.ofNat _ i) excess)

/-- The tokens stand for all bytes of the window from `r` on. -/
inductive Parses (w : Array UInt8) : Nat → List Token → Prop
  | nil : Parses w w.size []
  | cons {r : Nat} {t : Token} {ts : List Token} : Fits w r t → Parses w (r + t.length) ts →
      Parses w r (t :: ts)

theorem length_le_of_fits {w : Array UInt8} {r : Nat} {t : Token} (h : Fits w r t) :
    r + t.length ≤ w.size := by
  cases h with
  | literal hr => exact hr
  | reference _ _ hle _ => exact hle

/-- What stands before the first byte. -/
def blanks : Bytes :=
  List.replicate startPosition blank

@[simp] theorem length_blanks : blanks.length = startPosition :=
  List.length_replicate

theorem toList_window (x : Bytes) : (window x).toList = blanks ++ x := by
  simp [window, blanks]

theorem lookBack_blanks_append (out : Bytes) (d : Nat) :
    lookBack (blanks ++ out) d = lookBack out d := by
  simp only [lookBack, blanks, List.reverse_append, List.reverse_replicate,
    List.getD_eq_getElem?_getD]
  rcases Nat.lt_or_ge (d - 1) out.reverse.length with h | h
  · rw [List.getElem?_append_left h]
  · rw [List.getElem?_append_right h, List.getElem?_eq_none h, List.getElem?_replicate]
    split <;> rfl

theorem lookBack_take {w : Array UInt8} {r d : Nat} (hd : 1 ≤ d) (hdr : d ≤ r) (hr : r ≤ w.size) :
    lookBack (w.toList.take r) d = w.getD (r - d) 0 := by
  have hlen : (w.toList.take r).length = r := by
    rw [List.length_take, Array.length_toList, Nat.min_eq_left hr]
  have hlt : r - d < w.size := by omega
  rw [lookBack, List.getD_eq_getElem?_getD, List.getElem?_reverse (by omega), hlen,
    List.getElem?_take_of_lt (by omega), show r - 1 - (d - 1) = r - d by omega,
    Array.getElem?_toList, Array.getElem?_eq_getElem hlt, Array.getD, dif_pos hlt]
  rfl

theorem take_succ_window {w : Array UInt8} {r : Nat} (hr : r < w.size) :
    w.toList.take (r + 1) = w.toList.take r ++ [w.getD r 0] := by
  rw [List.take_add_one, Array.getElem?_toList, Array.getElem?_eq_getElem hr, Array.getD,
    dif_pos hr]
  rfl

theorem length_of_take {w : Array UInt8} {out : Bytes} {r : Nat}
    (h : blanks ++ out = w.toList.take r) (hr : r ≤ w.size) : startPosition + out.length = r := by
  rw [← length_blanks, ← List.length_append, h, List.length_take, Array.length_toList,
    Nat.min_eq_left hr]

/-- Bytes that agree with earlier ones are copied, also where the two overlap: what is copied is
    part of the window already. -/
theorem blanks_append_copyBack {w : Array UInt8} {out : Bytes} {r d n : Nat}
    (h : blanks ++ out = w.toList.take r) (hd : 1 ≤ d) (hdr : d ≤ r) (hn : r + n ≤ w.size)
    (heq : ∀ k < n, w.getD (r - d + k) 0 = w.getD (r + k) 0) :
    blanks ++ copyBack out d n = w.toList.take (r + n) := by
  induction n generalizing out r with
  | zero => exact h
  | succ n ih =>
    have hread : lookBack out d = w.getD r 0 := by
      rw [← lookBack_blanks_append, h, lookBack_take hd hdr (by omega)]
      exact heq 0 (by omega)
    rw [copyBack, hread, show r + (n + 1) = r + 1 + n by omega]
    refine ih ?_ (by omega) (by omega) ?_
    · rw [← List.append_assoc, h, take_succ_window (by omega)]
    · intro k hk
      have := heq (k + 1) (by omega)
      rwa [show r + 1 - d + k = r - d + (k + 1) by omega, show r + 1 + k = r + (k + 1) by omega]

theorem blanks_append_expand {w : Array UInt8} {out : Bytes} {r : Nat} {t : Token}
    (h : blanks ++ out = w.toList.take r) (ht : Fits w r t) :
    blanks ++ expand out t = w.toList.take (r + t.length) := by
  cases ht with
  | literal hr => rw [expand, ← List.append_assoc, h, Token.length, take_succ_window hr]
  | @reference i excess hi hnear hle heq =>
    have hlen : startPosition + out.length = r := length_of_take h (by omega)
    have hring : startPosition ≤ ringSize := Nat.sub_le _ _
    rw [expand, hlen, behind_ofNat hi (by omega)]
    refine blanks_append_copyBack h (by omega) (by omega) hle ?_
    intro k hk
    rw [show r - (r - i) + k = i + k by omega]
    exact heq k hk

/-- **A parse expands to the bytes that it stands for.** -/
theorem foldl_expand_of_parses {w : Array UInt8} {out : Bytes} {r : Nat} {ts : List Token}
    (h : blanks ++ out = w.toList.take r) (hts : Parses w r ts) :
    blanks ++ ts.foldl expand out = w.toList := by
  induction hts generalizing out with
  | nil => rw [List.foldl_nil, h, List.take_of_length_le (by simp)]
  | cons ht _ ih => exact ih (blanks_append_expand h ht)

end OtaPack.Lzss
