/-
  Passing over a value of any type.

  The enclosing arrays and objects are kept on a stack, so values may be nested to any depth.  What
  is passed over is checked for its form alone: numbers may be of any size, and surrogates need no
  partner.

  * `skipValue cs`: the characters after the value at the front of `cs`;
  * `skipAlong`: the same from within a value, at a given `Place` and inside given brackets.
-/
import OtaPack.Json.Lexeme

namespace OtaPack.Json

/-- What encloses a value. -/
inductive Bracket where
  | array
  | object
deriving DecidableEq, Repr

/-- The character that ends an array or an object. -/
def Bracket.closing : Bracket → Char
  | array => ']'
  | object => '\x7d'

/-- Where in a value the reading has come to. -/
inductive Place where
  /-- A value has to follow. -/
  | value
  /-- A bracket has just been opened. -/
  | opened
  /-- A value has just ended. -/
  | ended
deriving DecidableEq, Repr

/-- The order in which places are passed without taking a character. -/
def Place.rank : Place → Nat
  | value => 0
  | ended => 0
  | opened => 1

/-- Passes over a value that opens no bracket and begins with `c`. -/
def skipScalar (c : Char) (cs : List Char) : Except Problem (List Char) :=
  if c = '"' then skipQuoted cs
  else if c = '-' ∨ c.isDigit then (readNumeral .malformed (c :: cs)).map Prod.snd
  else if c = 'n' then expectWord ['u', 'l', 'l'] cs
  else if c = 't' then expectWord ['r', 'u', 'e'] cs
  else if c = 'f' then expectWord ['a', 'l', 's', 'e'] cs
  else .error .malformed

/-- Passes over the name of a member and the colon after it. -/
def skipName (cs : List Char) : Except Problem (List Char) :=
  match skipBlanks cs with
  | [] => .error .endOfText
  | c :: cs =>
    if c = '"' then
      match skipQuoted cs with
      | .ok rest => expectWord [':'] (skipBlanks rest)
      | .error p => .error p
    else .error .malformed

/-- Passes over what stands in front of a value inside a bracket: nothing in an array, the name in
    an object. -/
def Bracket.skipLead : Bracket → List Char → Except Problem (List Char)
  | array, cs => .ok cs
  | object, cs => skipName cs

theorem length_of_skipScalar {c : Char} {cs rest : List Char} (h : skipScalar c cs = .ok rest) :
    rest.length ≤ cs.length := by
  unfold skipScalar at h
  split at h
  · exact Nat.le_of_lt (length_of_skipQuoted h)
  split at h
  · obtain ⟨⟨n, r⟩, hr, e⟩ := exists_of_map_eq_ok h
    have := length_of_readNumeral hr
    cases e
    exact Nat.le_of_lt_succ this
  split at h
  · have := length_of_expectWord h; omega
  split at h
  · have := length_of_expectWord h; omega
  split at h
  · have := length_of_expectWord h; omega
  · cases h

theorem length_of_skipName {cs rest : List Char} (h : skipName cs = .ok rest) :
    rest.length ≤ cs.length := by
  have hb := length_skipBlanks_le cs
  unfold skipName at h
  split at h
  · cases h
  rename_i c cs' hc
  rw [hc, List.length_cons] at hb
  split at h
  · split at h
    · rename_i r hr
      have := length_of_skipQuoted hr
      have := length_skipBlanks_le r
      have := length_of_expectWord h
      omega
    · cases h
  · cases h

theorem Bracket.length_of_skipLead {b : Bracket} {cs rest : List Char}
    (h : b.skipLead cs = .ok rest) : rest.length ≤ cs.length := by
  cases b with
  | array => cases h; exact Nat.le_refl _
  | object => exact length_of_skipName h

/-- Passes over what is left of a value, inside the brackets of `stack`. -/
def skipAlong (place : Place) (stack : List Bracket) (cs : List Char) :
    Except Problem (List Char) :=
  match place, stack with
  | .ended, [] => .ok cs
  | .ended, top :: below =>
    match _h : skipBlanks cs with
    | [] => .error .endOfText
    | c :: rest =>
      if c = top.closing then skipAlong .ended below rest
      else if c = ',' then
        match _h' : top.skipLead rest with
        | .ok after => skipAlong .value (top :: below) after
        | .error p => .error p
      else .error .malformed
  | .opened, [] => .error .malformed
  | .opened, top :: below =>
    match _h : skipBlanks cs with
    | [] => .error .endOfText
    | c :: rest =>
      if c = top.closing then skipAlong .ended below rest
      else
        match _h' : top.skipLead (c :: rest) with
        | .ok after => skipAlong .value (top :: below) after
        | .error p => .error p
  | .value, stack =>
    match _h : skipBlanks cs with
    | [] => .error .endOfText
    | c :: rest =>
      if c = '[' then skipAlong .opened (.array :: stack) rest
      else if c = '\x7b' then skipAlong .opened (.object :: stack) rest
      else
        match _h' : skipScalar c rest with
        | .ok after => skipAlong .ended stack after
        | .error p => .error p
termination_by (cs.length, place.rank)
decreasing_by
  all_goals
    have hb := length_skipBlanks_le cs
    rw [_h, List.length_cons] at hb
  -- a closing bracket, or a comma and what leads in a value
  · exact Prod.Lex.left _ _ (by omega)
  · have := Bracket.length_of_skipLead _h'
    exact Prod.Lex.left _ _ (by omega)
  -- nothing need be taken between an opening bracket and the first value
  · exact Prod.Lex.left _ _ (by omega)
  · have := Bracket.length_of_skipLead _h'
    rw [List.length_cons] at this
    by_cases he : after.length = cs.length
    · rw [he]; exact Prod.Lex.right _ (by decide)
    · exact Prod.Lex.left _ _ (by omega)
  -- an opening bracket, or a scalar
  · exact Prod.Lex.left _ _ (by omega)
  · exact Prod.Lex.left _ _ (by omega)
  · have := length_of_skipScalar _h'
    exact Prod.Lex.left _ _ (by omega)

/-- Passes over the value at the front of a text. -/
def skipValue (cs : List Char) : Except Problem (List Char) :=
  skipAlong .value [] cs

theorem length_of_skipAlong {place : Place} {stack : List Bracket} {cs rest : List Char}
    (h : skipAlong place stack cs = .ok rest) : rest.length ≤ cs.length := by
  fun_induction skipAlong place stack cs with
  | case1 => cases h; exact Nat.le_refl _
  | case2 => cases h
  | case3 cs top below r hb ih =>
    have hl := length_skipBlanks_le cs
    rw [hb, List.length_cons] at hl
    have := ih h
    omega
  | case4 cs top below r after hlead hb hc ih =>
    have hl := length_skipBlanks_le cs
    rw [hb, List.length_cons] at hl
    have := Bracket.length_of_skipLead hlead
    have := ih h
    omega
  | case5 => cases h
  | case6 => cases h
  | case7 => cases h
  | case8 => cases h
  | case9 cs top below r hb ih =>
    have hl := length_skipBlanks_le cs
    rw [hb, List.length_cons] at hl
    have := ih h
    omega
  | case10 cs top below c r hb hc after hlead ih =>
    have hl := length_skipBlanks_le cs
    have := Bracket.length_of_skipLead hlead
    rw [hb] at hl
    have := ih h
    omega
  | case11 => cases h
  | case12 => cases h
  | case13 cs stack r hb ih =>
    have hl := length_skipBlanks_le cs
    rw [hb, List.length_cons] at hl
    have := ih h
    omega
  | case14 cs stack r hb _ ih =>
    have hl := length_skipBlanks_le cs
    rw [hb, List.length_cons] at hl
    have := ih h
    omega
  | case15 cs stack c r hb _ _ after hs ih =>
    have hl := length_skipBlanks_le cs
    rw [hb, List.length_cons] at hl
    have := length_of_skipScalar hs
    have := ih h
    omega
  | case16 => cases h

theorem length_of_skipValue {cs rest : List Char} (h : skipValue cs = .ok rest) :
    rest.length ≤ cs.length :=
  length_of_skipAlong h

end OtaPack.Json
