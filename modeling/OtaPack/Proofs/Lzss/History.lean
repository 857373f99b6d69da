/-
  Decompression without a ring: all bytes so far are kept, and there are blanks before them.

  * `lookBack out d`: the byte `d` places back;
  * `copyBack out d n`: `n` bytes appended, each the one `d` places back at that moment;
  * `behind r p`: how far the ring position `p` is behind the place `r`;
  * `expand out t`: what a token stands for, appended; `exists_expand`: nothing is taken away;
  * `Ring.Tracks`: every slot of the ring is the byte at its distance; kept by `push` and `copy`;
  * `decode_eq_foldl_expand`: the ring decoder is the one without a ring.
-/
import Mathlib.Algebra.Ring.Nat
import OtaPack.Lzss.Decode

namespace OtaPack.Lzss

/-! ## Bytes so far -/

/-- The byte `d` places back, which is a blank if there are fewer bytes. -/
def lookBack (out : Bytes) (d : Nat) : UInt8 :=
  out.reverse.getD (d - 1) blank

/-- Appends `n` bytes, each of which is the one `d` places back at that moment. -/
def copyBack (out : Bytes) (d : Nat) : (n : Nat) → Bytes
  | 0 => out
  | n + 1 => copyBack (out ++ [lookBack out d]) d n

theorem exists_copyBack (out : Bytes) (d n : Nat) :
    ∃ added, copyBack out d n = out ++ added ∧ added.length = n := by
  induction n generalizing out with
  | zero => exact ⟨[], (List.append_nil out).symm, rfl⟩
  | succ n ih =>
    obtain ⟨added, hcopy, hlen⟩ := ih (out ++ [lookBack out d])
    refine ⟨lookBack out d :: added, ?_, by rw [List.length_cons, hlen]⟩
    rw [copyBack, hcopy, List.append_assoc]
    rfl

theorem lookBack_append_one (out : Bytes) (c : UInt8) : lookBack (out ++ [c]) 1 = c := by
  simp [lookBack]

theorem lookBack_append_succ (out : Bytes) (c : UInt8) {d : Nat} (hd : 1 ≤ d) :
    lookBack (out ++ [c]) (d + 1) = lookBack out d := by
  obtain ⟨k, rfl⟩ : ∃ k, d = k + 1 := ⟨d - 1, by omega⟩
  simp [lookBack]

/-- How far the ring position `p` is behind the place `r`: from `1` to the size of the ring. -/
def behind (r : Nat) (p : Fin ringSize) : Nat :=
  ringSize - (p + ringSize - r % ringSize) % ringSize

/-- Appends what a token stands for. -/
def expand (out : Bytes) : Token → Bytes
  | .literal byte => out ++ [byte]
  | .reference position excess =>
    copyBack out (behind (startPosition + out.length) position) (minMatch + excess)

/-- A token adds as many bytes as its length tells. -/
theorem exists_expand (out : Bytes) (t : Token) :
    ∃ added, expand out t = out ++ added ∧ added.length = t.length := by
  cases t with
  | literal byte => exact ⟨[byte], rfl, rfl⟩
  | reference position excess => exact exists_copyBack _ _ _

theorem exists_foldl_expand (out : Bytes) (ts : List Token) :
    ∃ added, ts.foldl expand out = out ++ added ∧ added.length = (ts.map Token.length).sum := by
  induction ts generalizing out with
  | nil => exact ⟨[], (List.append_nil out).symm, rfl⟩
  | cons t ts ih =>
    obtain ⟨first, hfirst, hlen⟩ := exists_expand out t
    obtain ⟨others, hothers, hlens⟩ := ih (out ++ first)
    refine ⟨first ++ others, ?_, ?_⟩
    · rw [List.foldl_cons, hfirst, hothers, List.append_assoc]
    · rw [List.length_append, hlen, hlens, List.map_cons, List.sum_cons]

theorem behind_pos (r : Nat) (p : Fin ringSize) : 1 ≤ behind r p := by
  have := Nat.mod_lt (p + ringSize - r % ringSize) (y := ringSize) (by decide)
  simp only [behind]
  omega

theorem behind_le (r : Nat) (p : Fin ringSize) : behind r p ≤ ringSize :=
  Nat.sub_le _ _

theorem add_behind (r : Nat) (p : Fin ringSize) :
    (p + behind r p) % ringSize = r % ringSize := by
  have := p.isLt
  simp only [behind, ringSize, positionBits, Nat.reduceShiftLeft] at *
  omega

/-- A place of the window that is not too far back has the distance that it seems to have. -/
theorem behind_ofNat {r i : Nat} (hi : i < r) (hr : r ≤ i + ringSize) :
    behind r (Fin.ofNat _ i) = r - i := by
  simp only [behind, Fin.ofNat, ringSize, positionBits, Nat.reduceShiftLeft] at *
  omega

/-! ## The ring -/

namespace Ring

/-- The ring shows the bytes so far: the slot `d` places behind the next one holds the byte `d`
    places back. -/
structure Tracks (ring : Ring) : Prop where
  next_eq : ring.next.val = (startPosition + ring.out.size) % ringSize
  slot_eq : ∀ (p : Fin ringSize) (d : Nat), 1 ≤ d → d ≤ ringSize →
    (p + d) % ringSize = ring.next.val → ring.slots[p] = lookBack ring.out.toList d

theorem tracks_start : start.Tracks where
  next_eq := rfl
  slot_eq p d _ _ _ := by
    simp [start, lookBack]

theorem val_next_push (ring : Ring) (c : UInt8) :
    (ring.push c).next.val = (ring.next + 1) % ringSize := by
  rw [push, Fin.val_add]
  rfl

theorem toList_out_push (ring : Ring) (c : UInt8) :
    (ring.push c).out.toList = ring.out.toList ++ [c] := by
  simp [push]

/-- **One more byte.** -/
theorem Tracks.push {ring : Ring} (h : ring.Tracks) (c : UInt8) : (ring.push c).Tracks where
  next_eq := by
    rw [val_next_push, size_out_push, h.next_eq, Nat.mod_add_mod, Nat.add_assoc]
  slot_eq p d hd hle hp := by
    have hlt := ring.next.isLt
    have hslot : (ring.push c).slots[p] = (ring.slots.set ring.next c)[p] := rfl
    rw [val_next_push] at hp
    rw [toList_out_push, hslot]
    by_cases hone : d = 1
    · -- the slot that has just been written
      have hpn : ring.next.val = p.val := by
        simp only [ringSize, positionBits, Nat.reduceShiftLeft] at *
        omega
      subst hone
      simp [lookBack_append_one, hpn]
    · -- a slot that is one place further behind than it was
      have hp' : (p + (d - 1)) % ringSize = ring.next.val := by
        simp only [ringSize, positionBits, Nat.reduceShiftLeft] at *
        omega
      have hne : ring.next.val ≠ p.val := by
        simp only [ringSize, positionBits, Nat.reduceShiftLeft] at *
        omega
      have hold := h.slot_eq p (d - 1) (by omega) (by omega) hp'
      have hlook : lookBack (ring.out.toList ++ [c]) d = lookBack ring.out.toList (d - 1) := by
        have := lookBack_append_succ ring.out.toList c (d := d - 1) (by omega)
        rwa [Nat.sub_add_cancel hd] at this
      rw [hlook, ← hold]
      simp [hne]

/-- **A copy keeps its distance.**  Position and place of writing move on together, so a copy may
    run into the bytes that it writes and past the end of the ring. -/
theorem Tracks.copy {ring : Ring} (h : ring.Tracks) {position : Fin ringSize} {d : Nat}
    (hd : 1 ≤ d) (hle : d ≤ ringSize) (hp : (position + d) % ringSize = ring.next.val) (n : Nat) :
    (ring.copy position n).Tracks ∧
      (ring.copy position n).out.toList = copyBack ring.out.toList d n := by
  induction n generalizing ring position with
  | zero => exact ⟨h, rfl⟩
  | succ n ih =>
    have hread : ring.slots.get position = lookBack ring.out.toList d :=
      h.slot_eq position d hd hle hp
    have hp' : (position + 1).val + d = (position + 1) % ringSize + d := by
      rw [Fin.val_add]
      rfl
    rw [Ring.copy, copyBack, hread, ← toList_out_push]
    refine ih (h.push _) ?_
    rw [val_next_push, hp', Nat.mod_add_mod, ← hp, Nat.mod_add_mod]
    congr 1
    omega

/-- **One more token.** -/
theorem Tracks.apply {ring : Ring} (h : ring.Tracks) (t : Token) :
    (ring.apply t).Tracks ∧ (ring.apply t).out.toList = expand ring.out.toList t := by
  cases t with
  | literal byte => exact ⟨h.push byte, toList_out_push ring byte⟩
  | reference position excess =>
    refine h.copy (behind_pos _ _) (behind_le _ _) ?_ _
    rw [add_behind, h.next_eq, Array.length_toList]

theorem Tracks.foldl {ring : Ring} (h : ring.Tracks) (ts : List Token) :
    (ts.foldl Ring.apply ring).out.toList = ts.foldl expand ring.out.toList := by
  induction ts generalizing ring with
  | nil => rfl
  | cons t ts ih =>
    obtain ⟨h', hout⟩ := h.apply t
    rw [List.foldl_cons, List.foldl_cons, ih h', hout]

end Ring

/-- **The ring decoder needs no ring.** -/
theorem decode_eq_foldl_expand (stream : Bytes) :
    decode stream = (readTokens stream).foldl expand [] :=
  Ring.tracks_start.foldl (readTokens stream)

end OtaPack.Lzss
