/-
  Byte strings, 32-bit little-endian words, and pieces of a list.

  * `Bytes`: a byte string, as a list;
  * `littleEndian w`: the four bytes of the word `w`, the lowest first;
  * `ofLittleEndian`: the word of four bytes;
  * `chunksOf n l`: `l` cut into pieces of `n`, the last one possibly shorter;
  * `chunksOf_eq`: the first piece and the pieces of the rest;
  * `flatten_chunksOf`: the pieces put together again are `l`.
-/

namespace OtaPack

/-- A byte string. -/
abbrev Bytes := List UInt8

/-- The four bytes of a word, the lowest first. -/
def littleEndian (w : UInt32) : Bytes :=
  [w.toUInt8, (w >>> 8).toUInt8, (w >>> 16).toUInt8, (w >>> 24).toUInt8]

/-- The word whose bytes are `a`, `b`, `c` and `d`, the lowest first. -/
def ofLittleEndian (a b c d : UInt8) : UInt32 :=
  a.toUInt32 ||| (b.toUInt32 <<< 8) ||| (c.toUInt32 <<< 16) ||| (d.toUInt32 <<< 24)

@[simp] theorem length_littleEndian (w : UInt32) : (littleEndian w).length = 4 := rfl

/-! ## Pieces of a list -/

variable {α : Type}

/-- Moves the pieces of `l` to the end of `acc`. -/
def chunksOnto (n : Nat) (l : List α) (acc : Array (List α)) : Array (List α) :=
  if _h : l = [] ∨ n = 0 then acc
  else chunksOnto n (l.drop n) (acc.push (l.take n))
termination_by l.length
decreasing_by
  have hl : l.length ≠ 0 := fun h' => _h (.inl (List.eq_nil_of_length_eq_zero h'))
  have hn : n ≠ 0 := fun h' => _h (.inr h')
  simp only [List.length_drop]
  omega

/-- The list cut into pieces of `n` elements, of which only the last one may be shorter.  Pieces of
    no elements hold nothing, so there are none for `n = 0`. -/
def chunksOf (n : Nat) (l : List α) : List (List α) :=
  (chunksOnto n l #[]).toList

/-- What is collected already stays in front. -/
theorem toList_chunksOnto (n : Nat) (l : List α) (acc : Array (List α)) :
    (chunksOnto n l acc).toList = acc.toList ++ chunksOf n l := by
  induction hk : l.length using Nat.strongRecOn generalizing l acc with
  | _ k ih =>
    by_cases h : l = [] ∨ n = 0
    · simp [chunksOf, chunksOnto, h]
    · have hlt : (l.drop n).length < k := by
        have hl : l.length ≠ 0 := fun h' => h (.inl (List.eq_nil_of_length_eq_zero h'))
        have hn : n ≠ 0 := fun h' => h (.inr h')
        simp only [List.length_drop]
        omega
      have step (a : Array (List α)) :
          chunksOnto n l a = chunksOnto n (l.drop n) (a.push (l.take n)) := by
        rw [chunksOnto, dif_neg h]
      rw [chunksOf, step, step, ih _ hlt _ _ rfl, ih _ hlt _ _ rfl]
      simp

/-- The pieces are the first `n` elements and the pieces of the rest. -/
theorem chunksOf_eq {n : Nat} {l : List α} (hl : l ≠ []) (hn : n ≠ 0) :
    chunksOf n l = l.take n :: chunksOf n (l.drop n) := by
  rw [chunksOf, chunksOnto, dif_neg (by simp [hl, hn]), toList_chunksOnto]
  rfl

@[simp] theorem chunksOf_nil (n : Nat) : chunksOf n ([] : List α) = [] := by
  rw [chunksOf, chunksOnto, dif_pos (.inl rfl)]

/-- Nothing is lost by cutting. -/
theorem flatten_chunksOf {n : Nat} (hn : n ≠ 0) (l : List α) : (chunksOf n l).flatten = l := by
  induction hk : l.length using Nat.strongRecOn generalizing l with
  | _ k ih =>
    by_cases hl : l = []
    · simp [hl]
    · have hlt : (l.drop n).length < k := by
        have h' : l.length ≠ 0 := fun h' => hl (List.eq_nil_of_length_eq_zero h')
        simp only [List.length_drop]
        omega
      rw [chunksOf_eq hl hn, List.flatten_cons, ih _ hlt _ rfl, List.take_append_drop]

end OtaPack
