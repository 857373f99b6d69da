/-
  Comparing names while ignoring the case of ASCII letters.

  * `foldCase s`: the characters of `s` with `A` to `Z` made small, all others kept;
  * `SameLetters s t`: `s` and `t` agree up to the case of ASCII letters.  Nothing is trimmed, and
    a letter outside ASCII is equal to itself only.
-/

namespace OtaPack.Text

/-- The characters of `s`, with the ASCII capitals made small. -/
def foldCase (s : String) : List Char :=
  s.toList.map Char.toLower

/-- Two texts agree up to the case of ASCII letters. -/
def SameLetters (s t : String) : Prop :=
  foldCase s = foldCase t

instance (s t : String) : Decidable (SameLetters s t) :=
  inferInstanceAs (Decidable (foldCase s = foldCase t))

theorem SameLetters.refl (s : String) : SameLetters s s := rfl

theorem SameLetters.symm {s t : String} (h : SameLetters s t) : SameLetters t s := Eq.symm h

theorem SameLetters.trans {s t u : String} (h : SameLetters s t) (h' : SameLetters t u) :
    SameLetters s u := Eq.trans h h'

end OtaPack.Text
