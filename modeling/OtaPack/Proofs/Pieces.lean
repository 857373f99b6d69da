/-
  Lists that are cut into pieces of one length.

  * `pieces_induction`: what holds of no elements, and of a list whenever it holds of all but its
    first piece, holds of every list;
  * `chunksOf_of_length_le`: a short list is one piece;
  * `length_of_mem_chunksOf`: no piece is empty or too long;
  * `chunksOf_append`: a list that is cut without a rest may be cut apart from what follows it;
  * `chunksOf_flatMap`: lists of one length that are put together are cut apart again.
-/
import OtaPack.Bytes

namespace OtaPack

variable {α β : Type} {n : Nat}

/-- What holds of no elements, and of a list whenever it holds of all but its first piece, holds of
    every list. -/
theorem pieces_induction {motive : List α → Prop} (hn : n ≠ 0) (nil : motive [])
    (piece : ∀ l, l ≠ [] → motive (l.drop n) → motive l) (l : List α) : motive l := by
  induction hk : l.length using Nat.strongRecOn generalizing l with
  | _ k ih =>
    by_cases hl : l = []
    · exact hl ▸ nil
    · have hpos : 0 < l.length := List.length_pos_iff.2 hl
      refine piece l hl (ih _ ?_ _ rfl)
      rw [List.length_drop]
      omega

theorem chunksOf_of_length_le {l : List α} (hl : l ≠ []) (hle : l.length ≤ n) :
    chunksOf n l = [l] := by
  have hn : n ≠ 0 := by
    have hpos : 0 < l.length := List.length_pos_iff.2 hl
    omega
  rw [chunksOf_eq hl hn, List.take_of_length_le hle, List.drop_of_length_le hle, chunksOf_nil]

theorem length_of_mem_chunksOf (hn : n ≠ 0) {l piece : List α} (h : piece ∈ chunksOf n l) :
    0 < piece.length ∧ piece.length ≤ n := by
  induction l using pieces_induction hn with
  | nil =>
    rw [chunksOf_nil] at h
    cases h
  | piece l hl ih =>
    rw [chunksOf_eq hl hn] at h
    rcases List.mem_cons.1 h with rfl | h
    · have hpos : 0 < l.length := List.length_pos_iff.2 hl
      rw [List.length_take]
      omega
    · exact ih h

theorem chunksOf_append (hn : n ≠ 0) {as : List α} (h : n ∣ as.length) (bs : List α) :
    chunksOf n (as ++ bs) = chunksOf n as ++ chunksOf n bs := by
  induction as using pieces_induction hn with
  | nil => rw [chunksOf_nil, List.nil_append, List.nil_append]
  | piece as has ih =>
    have hle : n ≤ as.length := Nat.le_of_dvd (List.length_pos_iff.2 has) h
    have hrest : n ∣ (as.drop n).length := by
      rw [List.length_drop]
      exact Nat.dvd_sub h (Nat.dvd_refl n)
    rw [chunksOf_eq (List.append_ne_nil_of_left_ne_nil has bs) hn, chunksOf_eq has hn,
      List.take_append_of_le_length hle, List.drop_append_of_le_length hle, ih hrest,
      List.cons_append]

theorem chunksOf_flatMap {f : β → List α} (hn : n ≠ 0) {gs : List β}
    (h : ∀ g ∈ gs, (f g).length = n) : chunksOf n (gs.flatMap f) = gs.map f := by
  induction gs with
  | nil => exact chunksOf_nil n
  | cons g gs ih =>
    obtain ⟨hg, hgs⟩ := List.forall_mem_cons.1 h
    have hne : (g :: gs).flatMap f ≠ [] := by
      rw [List.flatMap_cons]
      intro hnil
      rw [(List.append_eq_nil_iff.1 hnil).1] at hg
      exact hn hg.symm
    rw [chunksOf_eq hne hn, List.flatMap_cons, List.take_left' hg, List.drop_left' hg, ih hgs]
    rfl

end OtaPack
