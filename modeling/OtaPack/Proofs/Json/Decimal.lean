/-
  Numbers in plain decimal.

  * `PlainDecimal n s`: `s` are the digits of `n`, without a sign, a point or zeros in front;
    `plainDecimal_toString`: numbers are written so;
  * `Numeral.ofWhole`: the numeral of digits alone; `PlainDecimal.isWhole`: these are such digits;
  * `not_tooLarge_ofWhole`, `word32?_ofWhole`: below `2 ^ 32` it is within the range of a double,
    and the word of this value.
-/
import OtaPack.Proofs.Json.Numeral

namespace OtaPack.Json

/-- The digits of a number, of which the first is zero only if there are no others. -/
structure PlainDecimal (n : Nat) (s : String) : Prop where
  ne_nil : s.toList ≠ []
  isDigit : ∀ c ∈ s.toList, c.isDigit
  eq_zero : s.toList.head? = some '0' → s.toList = ['0']
  value : Numeral.ofDigits (s.toList.map fun c => c.toNat - '0'.toNat) = n

/-! ## Writing -/

theorem head?_toDigits {n : Nat} (h : 0 < n) : (Nat.toDigits 10 n).head? ≠ some '0' := by
  induction n using Nat.strongRecOn with
  | _ n ih =>
    by_cases hlt : n < 10
    · rw [Nat.toDigits_of_lt_base hlt]
      have hdigit : ∀ k < 10, 0 < k → [Nat.digitChar k].head? ≠ some '0' := by decide
      exact hdigit n hlt h
    · have hhead := ih (n / 10) (Nat.div_lt_self h (by decide)) (by omega)
      have hne : Nat.toDigits 10 (n / 10) ≠ [] := Nat.toDigits_ne_nil
      obtain ⟨c, cs, hcs⟩ := List.exists_cons_of_ne_nil hne
      rw [hcs] at hhead
      rw [Nat.toDigits_of_base_le (by decide) (Nat.not_lt.1 hlt), hcs]
      exact hhead

/-- Numbers are written in plain decimal. -/
theorem plainDecimal_toString (n : Nat) : PlainDecimal n (toString n) := by
  have hdigits : (toString n).toList = Nat.toDigits 10 n := by
    rw [Nat.toString_eq_ofList_toDigits, String.toList_ofList]
  constructor
  · rw [hdigits]
    exact Nat.toDigits_ne_nil
  · rw [hdigits]
    intro c hc
    exact Nat.isDigit_of_mem_toDigits (by decide) (by decide) hc
  · rw [hdigits]
    intro hzero
    rcases Nat.eq_zero_or_pos n with rfl | hpos
    · rfl
    · exact absurd hzero (head?_toDigits hpos)
  · rw [hdigits, Numeral.ofDigits, List.foldl_map, ← Nat.ofDigitChars_eq_foldl]
    exact Nat.ofDigitChars_ten_toDigits

/-! ## Digits alone -/

/-- The numeral of digits alone. -/
def Numeral.ofWhole (ds : List Nat) : Numeral where
  negative := false
  whole := ds
  fraction := none
  exponent := none

theorem IsWhole.isNumeral {cs : List Char} (h : IsWhole cs) :
    IsNumeral (.ofWhole (digitValues cs)) cs := by
  have hnumeral : IsNumeral (.ofWhole (digitValues cs)) ([] ++ (cs ++ ([] ++ []))) :=
    @IsNumeral.intro false none none cs [] [] h .absent .absent
  rwa [List.append_nil, List.append_nil] at hnumeral

theorem PlainDecimal.isWhole {n : Nat} {s : String} (h : PlainDecimal n s) : IsWhole s.toList where
  ne_nil := h.ne_nil
  isDigit := h.isDigit
  eq_zero := h.eq_zero

/-! ## Words -/

theorem le_foldl_digits (ds : List Nat) (s : Nat) : s ≤ ds.foldl (fun n d => 10 * n + d) s := by
  induction ds generalizing s with
  | nil => exact Nat.le_refl s
  | cons d ds ih => exact Nat.le_trans (by omega) (ih (10 * s + d))

/-- All digits of a number below `2 ^ 64` go into the significand. -/
theorem absorb_of_lt {ds : List Nat} {s : Nat}
    (h : ds.foldl (fun n d => 10 * n + d) s < UInt64.size) :
    absorb s ds = (ds.foldl (fun n d => 10 * n + d) s, []) := by
  induction ds generalizing s with
  | nil => rfl
  | cons d ds ih =>
    rw [absorb, if_pos (Nat.lt_of_le_of_lt (le_foldl_digits ds _) h)]
    exact ih h

theorem not_tooLarge_ofWhole {ds : List Nat} (h : Numeral.ofDigits ds < UInt32.size) :
    ¬ (Numeral.ofWhole ds).TooLarge := by
  have habsorb : absorb 0 ds = (Numeral.ofDigits ds, []) :=
    absorb_of_lt (Nat.lt_of_lt_of_le h (by decide))
  have hscaled : (Numeral.ofWhole ds).scaled = (Numeral.ofDigits ds, 0) := by
    simp only [Numeral.scaled, Numeral.ofWhole, habsorb]
    rfl
  have hshort : Numeral.ofDigits ds < 1 <<< precision := Nat.lt_of_lt_of_le h (by decide)
  have hbound : UInt32.size ≤ infinityBound := by decide
  have hone : roundToDouble (Nat.pow 10 (Int.toNat 0)) = 1 := roundToDouble_of_lt (by decide)
  rw [Numeral.TooLarge, hscaled]
  rintro ⟨-, -, hpower | hlarge⟩
  · exact absurd hpower (Nat.not_lt_zero maxPower)
  · rw [roundToDouble_of_lt hshort, hone, Nat.mul_one] at hlarge
    omega

theorem word32?_ofWhole {ds : List Nat} {w : UInt32} (h : Numeral.ofDigits ds = w.toNat) :
    (Numeral.ofWhole ds).word32? = some w := by
  have hlt : Numeral.ofDigits ds < UInt32.size := h ▸ w.toNat_lt
  rw [Numeral.word32?, if_neg (by simp [Numeral.ofWhole])]
  rw [show (Numeral.ofWhole ds).whole = ds from rfl, if_pos hlt, h, UInt32.ofNat_toNat]

end OtaPack.Json
