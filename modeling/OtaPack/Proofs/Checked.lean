/-
  Computing with checks.

  A computation that checks each of its steps stops at the first one that goes wrong.

  * `Checked.Fault`: why it stops;
  * `word size n`, `minus m n`, `shiftRight v n`, `index a i`, `store a i b`, `fits n v`,
    `upTo last n`: a number in a machine word of `size` values, a difference of numbers, a word that
    is shifted, an element of an array, an array with another element, a number in a field of `n`
    bits, and a place that does not pass the last one;
  * `word_of_lt`, `minus_of_le`, `shiftRight_of_lt`, `index_of_lt`, `store_of_lt`, `fits_of_lt`,
    `upTo_of_le`: when a check passes.

  Memory is not checked: an array grows as far as it has to.
-/
import OtaPack.Outcome

namespace OtaPack

/-- Why a computation stops. -/
inductive Checked.Fault where
  /-- The array has no such element. -/
  | index
  /-- The difference is below zero. -/
  | underflow
  /-- The number needs more than a machine word. -/
  | overflow
  /-- The shift is by more bits than a word has. -/
  | shift
  /-- The number needs more bits than its field has. -/
  | truncation
  /-- The place is past the last one. -/
  | past
deriving DecidableEq, Repr

/-- A value, or why there is none. -/
abbrev Checked := Except Checked.Fault

namespace Checked

/-- A number in a machine word. -/
def word (size n : Nat) : Checked Nat :=
  if n < size then .ok n else .error .overflow

/-- The difference of two numbers. -/
def minus (m n : Nat) : Checked Nat :=
  if n ≤ m then .ok (m - n) else .error .underflow

/-- A word that is shifted to the right. -/
def shiftRight (v : UInt64) (n : Nat) : Checked UInt64 :=
  if n < 64 then .ok (v >>> UInt64.ofNat n) else .error .shift

/-- An element of an array. -/
def index (a : Array UInt8) (i : Nat) : Checked UInt8 :=
  match a[i]? with
  | some b => .ok b
  | none => .error .index

/-- An array with another element. -/
def store (a : Array UInt8) (i : Nat) (b : UInt8) : Checked (Array UInt8) :=
  if i < a.size then .ok (a.setIfInBounds i b) else .error .index

/-- A number in a field of `n` bits. -/
def fits (n v : Nat) : Checked (Fin (1 <<< n)) :=
  if h : v < 1 <<< n then .ok ⟨v, h⟩ else .error .truncation

/-- A place up to the last one. -/
def upTo (last n : Nat) : Checked Nat :=
  if n ≤ last then .ok n else .error .past

variable {a : Array UInt8} {b : UInt8} {size m n i v : Nat}

theorem word_of_lt (h : n < size) : word size n = .ok n :=
  if_pos h

theorem eq_of_word (h : word size n = .ok m) : m = n := by
  unfold word at h
  split at h
  · exact (Except.ok.inj h).symm
  · cases h

theorem minus_of_le (h : n ≤ m) : minus m n = .ok (m - n) :=
  if_pos h

theorem shiftRight_of_lt {v : UInt64} (h : n < 64) : shiftRight v n = .ok (v >>> UInt64.ofNat n) :=
  if_pos h

theorem index_of_lt (h : i < a.size) : index a i = .ok (a.getD i 0) := by
  rw [index, Array.getElem?_eq_getElem h, Array.getD_eq_getD_getElem?, Array.getElem?_eq_getElem h]
  rfl

theorem store_of_lt (h : i < a.size) (b : UInt8) : store a i b = .ok (a.setIfInBounds i b) :=
  if_pos h

theorem fits_of_lt (h : v < 1 <<< n) : fits n v = .ok ⟨v, h⟩ :=
  dif_pos h

theorem upTo_of_le {last : Nat} (h : n ≤ last) : upTo last n = .ok n :=
  if_pos h

theorem eq_of_upTo {last : Nat} (h : upTo last n = .ok m) : m = n := by
  unfold upTo at h
  split at h
  · exact (Except.ok.inj h).symm
  · cases h

end Checked

end OtaPack
