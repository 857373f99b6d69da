/-
  Strings as they are written between quotes.

  * `spellsChar_escapeChar`, `spells_flatMap_escapeChar`: a character, and a string, is written as
    one of its spellings, so that it is read back;
  * `quote_of_plain`: a string without quotes, backslashes and control characters is written
    as it is.
-/
import Mathlib.Tactic.SplitIfs
import OtaPack.Proofs.Json.Spelling

namespace OtaPack.Json

/-- The digits of a control character are those of its number. -/
theorem isUnit_control {c : Char} (h : c < ' ') :
    IsUnit c.toNat ['u', '0', '0', Nat.digitChar (c.toNat / 16), Nat.digitChar (c.toNat % 16)] := by
  have hlt : c.toNat < 32 := h
  have hunit := IsUnit.intro (i := 0) (j := 0) (k := c.toNat / 16) (l := c.toNat % 16)
    ⟨by decide, .inl rfl⟩ ⟨by decide, .inl rfl⟩ ⟨by omega, .inl rfl⟩ ⟨by omega, .inl rfl⟩
  have hsum : ((0 * 16 + 0) * 16 + c.toNat / 16) * 16 + c.toNat % 16 = c.toNat := by
    omega
  rwa [hsum] at hunit

/-- Every character is written as a spelling of it. -/
theorem spellsChar_escapeChar (c : Char) : SpellsChar c (escapeChar c) := by
  unfold escapeChar
  split_ifs with hquote hback hbackspace htab hline hform hreturn hlow
  · subst hquote
    exact .letter .quote
  · subst hback
    exact .letter .backslash
  · subst hbackspace
    exact .letter .backspace
  · subst htab
    exact .letter .tab
  · subst hline
    exact .letter .lineFeed
  · subst hform
    exact .letter .formFeed
  · subst hreturn
    exact .letter .carriageReturn
  · exact .unit (isUnit_control hlow)
  · exact .plain hquote hback hlow

theorem spells_flatMap_escapeChar (s : List Char) : Spells s (s.flatMap escapeChar) := by
  induction s with
  | nil => exact .nil
  | cons c s ih => exact .cons (spellsChar_escapeChar c) ih

/-! ## Strings without escapes -/

theorem escapeChar_eq_self {c : Char} (hquote : c ≠ '"') (hback : c ≠ '\\') (hlow : ¬ c < ' ') :
    escapeChar c = [c] := by
  have hne (d : Char) (hd : d < ' ') : c ≠ d := fun h => hlow (h ▸ hd)
  rw [escapeChar, if_neg hquote, if_neg hback, if_neg (hne _ (by decide)),
    if_neg (hne _ (by decide)), if_neg (hne _ (by decide)), if_neg (hne _ (by decide)),
    if_neg (hne _ (by decide)), if_neg hlow]

theorem quote_of_plain {s : String} (h : ∀ c ∈ s.toList, c ≠ '"' ∧ c ≠ '\\' ∧ ¬ c < ' ') :
    quote s = "\"" ++ s ++ "\"" := by
  have hself (cs : List Char) (hcs : ∀ c ∈ cs, c ≠ '"' ∧ c ≠ '\\' ∧ ¬ c < ' ') :
      cs.flatMap escapeChar = cs := by
    induction cs with
    | nil => rfl
    | cons c cs ih =>
      obtain ⟨⟨hquote, hback, hlow⟩, hrest⟩ := List.forall_mem_cons.1 hcs
      rw [List.flatMap_cons, escapeChar_eq_self hquote hback hlow, ih hrest]
      rfl
  rw [quote, hself _ h, String.ofList_append, String.ofList_append, String.ofList_toList]

end OtaPack.Json
