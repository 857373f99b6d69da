/-
  Which decimal numbers are too large for a 64-bit binary floating-point number.

  A number is given as a significand below `2 ^ 64` and a decimal exponent.  It is brought into
  binary in two roundings, of the significand and of the power of ten, and one of their product.

  * `roundToDouble n`: `n` rounded to 53 significant bits, a tie going to the even neighbour;
  * `absorb s ds`: the significand after as many of the digits `ds` as fit, and the digits left;
  * `Overflows s e`: `s` times ten to the power of `e` is rounded to infinity;
  * `roundToDouble_of_lt`: short numbers are kept.
-/

namespace OtaPack.Json

/-- The number of significant bits. -/
def precision : Nat := 53

/-- `n` rounded to 53 significant bits, a tie going to the even neighbour. -/
def roundToDouble (n : Nat) : Nat :=
  let excess := n.log2 + 1 - precision
  let unit := 1 <<< excess
  let q := n / unit
  let twice := 2 * (n % unit)
  (if unit < twice ∨ (unit = twice ∧ q % 2 = 1) then q + 1 else q) * unit

/-- The least number that is rounded to infinity: half a unit above the greatest finite one. -/
def infinityBound : Nat := (1 <<< 54 - 1) <<< 970

/-- The greatest exponent of a power of ten that is finite. -/
def maxPower : Nat := 308

/-- The product of `s` and ten to the power of `e` is rounded to infinity. -/
def Overflows (s : Nat) (e : Int) : Prop :=
  0 < s ∧ 0 ≤ e ∧
    (maxPower < e.toNat ∨ infinityBound ≤ roundToDouble s * roundToDouble (Nat.pow 10 e.toNat))

instance (s : Nat) (e : Int) : Decidable (Overflows s e) :=
  inferInstanceAs (Decidable (_ ∧ _))

/-- Appends the digits `ds` to the significand `s` as long as it stays below `2 ^ 64`.  Returns the
    significand and the digits that did not fit. -/
def absorb (s : Nat) : (ds : List Nat) → Nat × List Nat
  | [] => (s, [])
  | d :: ds => if 10 * s + d < UInt64.size then absorb (10 * s + d) ds else (s, d :: ds)

/-- A number of at most 53 bits is kept. -/
theorem roundToDouble_of_lt {n : Nat} (h : n < 1 <<< precision) : roundToDouble n = n := by
  have hlog : n.log2 + 1 - precision = 0 := by
    by_cases h0 : n = 0
    · simp [h0, precision]
    · rw [Nat.one_shiftLeft] at h
      have := (Nat.log2_lt h0).2 h
      omega
  simp [roundToDouble, hlog, Nat.mod_one]

end OtaPack.Json
