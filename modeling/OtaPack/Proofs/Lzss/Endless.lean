/-
  Decompression over an endless history.

  All places are numbered: the first byte stands at 2031, and blanks without end stand before it.  A
  reference tells its position modulo the size of the ring only.  What it copies there is the last
  place before the end that has this position, looked for anew for every byte.

  * `historyAt out w`: the byte at the place `w`, and `endOf out`: where the next byte goes;
  * `Copies q n out out'`: `n` bytes are copied one at a time, for the places `q`, `q + 1`, …;
    `copies_iff`: that is copying at one distance;
  * `Emits ts out out'`: what the tokens stand for is appended; `emits_iff`;
  * `decode_eq_iff`: the ring decoder is the one over the endless history, for every stream.
-/
import Mathlib.Data.Int.ModEq
import Mathlib.Order.Bounds.Basic
import OtaPack.Proofs.Lzss.History
import OtaPack.Proofs.Lzss.TokenStream

namespace OtaPack.Lzss

open Bits

/-! ## The history -/

/-- The byte at a place: blanks without end, and all bytes so far from the start position on. -/
def historyAt (out : Bytes) (w : ℤ) : UInt8 :=
  if w < startPosition then blank else out.getD (w - startPosition).toNat blank

/-- The place of the next byte. -/
def endOf (out : Bytes) : ℤ :=
  startPosition + out.length

/-- Copies `n` bytes one at a time.  For the place `q` it is the byte at the last place before the
    end that has the same position in the ring, and so on for the places after `q`. -/
inductive Copies : ℤ → ℕ → Bytes → Bytes → Prop
  | done {q : ℤ} {out : Bytes} : Copies q 0 out out
  | byte {q w : ℤ} {n : ℕ} {out out' : Bytes} :
      IsGreatest {v : ℤ | v < endOf out ∧ v ≡ q [ZMOD ringSize]} w →
      Copies (q + 1) n (out ++ [historyAt out w]) out' → Copies q (n + 1) out out'

/-- Appends what some tokens stand for, one after the other. -/
inductive Emits : List Token → Bytes → Bytes → Prop
  | done {out : Bytes} : Emits [] out out
  | literal {byte : UInt8} {ts : List Token} {out out' : Bytes} :
      Emits ts (out ++ [byte]) out' → Emits (.literal byte :: ts) out out'
  | reference {position : Fin ringSize} {excess : Fin lengthCount} {ts : List Token}
      {out mid out' : Bytes} : Copies position (minMatch + excess) out mid → Emits ts mid out' →
      Emits (.reference position excess :: ts) out out'

/-! ## Copying at one distance -/

variable {out out' : Bytes} {q w : ℤ} {d n : ℕ} {ts : List Token}

theorem endOf_append_singleton (out : Bytes) (c : UInt8) : endOf (out ++ [c]) = endOf out + 1 := by
  simp only [endOf, List.length_append, List.length_singleton]
  omega

theorem historyAt_endOf_sub (out : Bytes) (hd : 1 ≤ d) :
    historyAt out (endOf out - d) = lookBack out d := by
  unfold historyAt endOf lookBack
  rw [List.getD_eq_getElem?_getD, List.getD_eq_getElem?_getD]
  split
  · rw [List.getElem?_eq_none (by rw [List.length_reverse]; omega)]
    rfl
  · rw [List.getElem?_reverse (by omega)]
    congr 2
    omega

/-- Of the places with one position, the last before the end is less than a ring away. -/
theorem isGreatest_place_iff (hd : 1 ≤ d) (hle : d ≤ ringSize)
    (hq : endOf out - d ≡ q [ZMOD ringSize]) :
    IsGreatest {v : ℤ | v < endOf out ∧ v ≡ q [ZMOD ringSize]} w ↔ w = endOf out - d := by
  have hlast : IsGreatest {v : ℤ | v < endOf out ∧ v ≡ q [ZMOD ringSize]} (endOf out - d) := by
    refine ⟨⟨by omega, hq⟩, ?_⟩
    rintro v ⟨hv, hvq⟩
    have hdiff : (ringSize : ℤ) ∣ v - (endOf out - d) := (hq.trans hvq.symm).dvd
    obtain ⟨k, hk⟩ := hdiff
    simp only [ringSize, positionBits, Nat.reduceShiftLeft, Nat.cast_ofNat] at hle hk
    omega
  constructor
  · intro hw
    exact hw.unique hlast
  · rintro rfl
    exact hlast

/-- Copying from the endless history is copying at one distance: the place that is copied moves on
    with the end. -/
theorem copies_iff (hd : 1 ≤ d) (hle : d ≤ ringSize) (hq : endOf out - d ≡ q [ZMOD ringSize]) :
    Copies q n out out' ↔ copyBack out d n = out' := by
  induction n generalizing q out with
  | zero =>
    constructor
    · rintro ⟨⟩
      rfl
    · rintro rfl
      exact .done
  | succ n ih =>
    have hnext : endOf (out ++ [lookBack out d]) - d ≡ q + 1 [ZMOD ringSize] := by
      rw [endOf_append_singleton, add_sub_right_comm]
      exact hq.add_right 1
    rw [copyBack, ← ih hnext]
    constructor
    · intro h
      cases h with
      | byte hw hrest =>
        obtain rfl := (isGreatest_place_iff hd hle hq).1 hw
        rwa [historyAt_endOf_sub out hd] at hrest
    · intro h
      refine .byte ((isGreatest_place_iff hd hle hq).2 rfl) ?_
      rwa [historyAt_endOf_sub out hd]

/-! ## Tokens -/

/-- A position that a reference tells is as far behind the end as `behind` says. -/
theorem endOf_sub_behind (out : Bytes) (p : Fin ringSize) :
    endOf out - behind (startPosition + out.length) p ≡ p.val [ZMOD ringSize] := by
  have h : ((p.val + behind (startPosition + out.length) p : ℕ) : ℤ) ≡
      endOf out [ZMOD ringSize] := by
    rw [endOf, ← Nat.cast_add, Int.natCast_modEq_iff]
    exact add_behind _ p
  have h' := h.symm.sub_right (behind (startPosition + out.length) p : ℤ)
  rwa [Nat.cast_add, add_sub_cancel_right] at h'

theorem emits_iff : Emits ts out out' ↔ ts.foldl expand out = out' := by
  induction ts generalizing out with
  | nil =>
    constructor
    · rintro ⟨⟩
      rfl
    · rintro rfl
      exact .done
  | cons t ts ih =>
    rw [List.foldl_cons, ← ih]
    cases t with
    | literal byte =>
      constructor
      · intro h
        cases h with
        | literal hrest => exact hrest
      · exact .literal
    | reference position excess =>
      have hcopies (mid : Bytes) : Copies position (minMatch + excess) out mid ↔
          expand out (.reference position excess) = mid :=
        copies_iff (behind_pos _ position) (behind_le _ position) (endOf_sub_behind out position)
      constructor
      · intro h
        cases h with
        | reference hcopy hrest =>
          rwa [← (hcopies _).1 hcopy] at hrest
      · intro h
        exact .reference ((hcopies _).2 rfl) h

/-- **The ring decoder is the decoder over the endless history.**  Whatever the stream is, it is cut
    into as many complete tokens as there are, and these are expanded without a ring. -/
theorem decode_eq_iff (stream out : Bytes) :
    decode stream = out ↔
      ∃ ts rest, Cuts (bitsOf stream) ts rest ∧ Emits ts [] out := by
  rw [decode_eq_foldl_expand, ← emits_iff]
  constructor
  · intro h
    obtain ⟨rest, hcuts⟩ := readTokens_eq_iff.1 (rfl : readTokens stream = _)
    exact ⟨_, rest, hcuts, h⟩
  · rintro ⟨ts, rest, hcuts, h⟩
    rwa [readTokens_eq_iff.2 ⟨rest, hcuts⟩]

/-- A byte, and five more that are copied from the bytes that they write themselves. -/
example : decode [0xA0, 0xBF, 0x79, 0x80] = [0x41, 0x41, 0x41, 0x41, 0x41, 0x41] := by
  rw [decode_eq_foldl_expand]
  cbv

/-- The position of the next byte is a whole ring back, where there are blanks at first. -/
example : decode [0x7E, 0xF1] = [0x20, 0x20, 0x20] := by
  rw [decode_eq_foldl_expand]
  cbv

end OtaPack.Lzss
