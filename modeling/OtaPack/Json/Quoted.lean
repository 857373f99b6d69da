/-
  Quoted strings.

  * `quote s`: the string between quotes, with quotes, backslashes and the characters below the
    blank escaped;
  * `readQuoted`: reads a string whose opening quote has been taken.  An escape above the basic
    plane is a pair of surrogates, and a surrogate without its partner is refused;
  * `skipQuoted`: passes over such a string.  Surrogates are not paired up;
  * `length_of_readQuoted`, `length_of_skipQuoted`: both take at least the closing quote.
-/
import OtaPack.Json.Basic

namespace OtaPack.Json

/-! ## Writing -/

/-- A character as it stands between quotes. -/
def escapeChar (c : Char) : List Char :=
  if c = '"' then ['\\', '"']
  else if c = '\\' then ['\\', '\\']
  else if c = '\x08' then ['\\', 'b']
  else if c = '\t' then ['\\', 't']
  else if c = '\n' then ['\\', 'n']
  else if c = '\x0c' then ['\\', 'f']
  else if c = '\r' then ['\\', 'r']
  else if c < ' ' then
    ['\\', 'u', '0', '0', Nat.digitChar (c.toNat / 16), Nat.digitChar (c.toNat % 16)]
  else [c]

/-- A string between quotes. -/
def quote (s : String) : String :=
  String.ofList (['"'] ++ s.toList.flatMap escapeChar ++ ['"'])

/-! ## Escapes -/

/-- The character of an escape of one letter. -/
def shortEscape? (c : Char) : Option Char :=
  if c = '"' ∨ c = '\\' ∨ c = '/' then some c
  else if c = 'b' then some '\x08'
  else if c = 'f' then some '\x0c'
  else if c = 'n' then some '\n'
  else if c = 'r' then some '\r'
  else if c = 't' then some '\t'
  else none

/-- The value of a hexadecimal digit. -/
def hexValue? (c : Char) : Option Nat :=
  if '0' ≤ c ∧ c ≤ '9' then some (c.toNat - '0'.toNat)
  else if 'a' ≤ c ∧ c ≤ 'f' then some (c.toNat - 'a'.toNat + 10)
  else if 'A' ≤ c ∧ c ≤ 'F' then some (c.toNat - 'A'.toNat + 10)
  else none

/-- The value of four hexadecimal digits. -/
def hexUnit? (a b c d : Char) : Option Nat := do
  return (((← hexValue? a) * 16 + (← hexValue? b)) * 16 + (← hexValue? c)) * 16 + (← hexValue? d)

/-- Reads the four digits of a code unit.  The text ends too early if fewer than four bytes of it
    are left. -/
def readUnit (cs : List Char) : Except Problem (Nat × List Char) :=
  match cs with
  | a :: b :: c :: d :: rest =>
    match hexUnit? a b c d with
    | some u => .ok (u, rest)
    | none => .error .malformed
  | _ => .error (if (String.ofList cs).utf8ByteSize < 4 then .endOfText else .malformed)

/-- The code units that stand first in a pair. -/
def isHighSurrogate (u : Nat) : Bool := 0xD800 ≤ u ∧ u ≤ 0xDBFF

/-- The code units that stand second in a pair. -/
def isLowSurrogate (u : Nat) : Bool := 0xDC00 ≤ u ∧ u ≤ 0xDFFF

/-- The character of a pair of code units. -/
def ofSurrogates (high low : Nat) : Char :=
  Char.ofNat (0x10000 + (high - 0xD800) * 0x400 + (low - 0xDC00))

/-- Reads a character given by code units, after the first `\u`. -/
def readUnits (cs : List Char) : Except Problem (Char × List Char) := do
  let (u, cs) ← readUnit cs
  if isLowSurrogate u then .error .malformed
  else if isHighSurrogate u then
    let cs ← expectWord ['\\', 'u'] cs
    let (low, cs) ← readUnit cs
    if isLowSurrogate low then return (ofSurrogates u low, cs) else .error .malformed
  else return (Char.ofNat u, cs)

/-- Reads an escape, after its backslash. -/
def readEscape : List Char → Except Problem (Char × List Char)
  | [] => .error .endOfText
  | c :: cs =>
    if c = 'u' then readUnits cs
    else match shortEscape? c with
      | some e => .ok (e, cs)
      | none => .error .malformed

/-- Passes over an escape, after its backslash. -/
def skipEscape : List Char → Except Problem (List Char)
  | [] => .error .endOfText
  | c :: cs =>
    if c = 'u' then (readUnit cs).map Prod.snd
    else if (shortEscape? c).isSome then .ok cs
    else .error .malformed

theorem length_of_readUnit {cs rest : List Char} {u : Nat} (h : readUnit cs = .ok (u, rest)) :
    rest.length + 4 = cs.length := by
  unfold readUnit at h
  split at h
  · split at h
    · cases h; rfl
    · cases h
  · cases h

theorem length_of_readUnits {cs rest : List Char} {c : Char} (h : readUnits cs = .ok (c, rest)) :
    rest.length < cs.length := by
  simp only [readUnits, bind, Except.bind] at h
  split at h
  · cases h
  rename_i p hp
  obtain ⟨u, cs₁⟩ := p
  have l₁ := length_of_readUnit hp
  simp only at h
  split at h
  · cases h
  split at h
  · split at h
    · cases h
    rename_i cs₂ h₂
    have l₂ := length_of_expectWord h₂
    split at h
    · cases h
    rename_i q hq
    obtain ⟨low, cs₃⟩ := q
    have l₃ := length_of_readUnit hq
    simp only at h
    split at h
    · simp only [pure, Except.pure, Except.ok.injEq, Prod.mk.injEq] at h
      rw [← h.2]
      omega
    · cases h
  · simp only [pure, Except.pure, Except.ok.injEq, Prod.mk.injEq] at h
    rw [← h.2]
    omega

theorem length_of_readEscape {cs rest : List Char} {c : Char} (h : readEscape cs = .ok (c, rest)) :
    rest.length < cs.length := by
  cases cs with
  | nil => cases h
  | cons d ds =>
    simp only [readEscape] at h
    split at h
    · have := length_of_readUnits h
      simp only [List.length_cons]
      omega
    · split at h
      · cases h; simp
      · cases h

theorem length_of_skipEscape {cs rest : List Char} (h : skipEscape cs = .ok rest) :
    rest.length < cs.length := by
  cases cs with
  | nil => cases h
  | cons d ds =>
    simp only [skipEscape] at h
    split at h
    · cases hu : readUnit ds with
      | error => rw [hu] at h; cases h
      | ok p =>
        have := length_of_readUnit hu
        rw [hu] at h
        cases h
        simp only [List.length_cons]
        omega
    · split at h
      · cases h; simp
      · cases h

/-! ## Strings -/

/-- Reads the rest of a string whose first characters are those of `acc`, the last one in front. -/
def readQuotedOnto (cs acc : List Char) : Except Problem (String × List Char) :=
  match cs with
  | [] => .error .endOfText
  | c :: rest =>
    if c = '"' then .ok (String.ofList acc.reverse, rest)
    else if c = '\\' then
      match _h : readEscape rest with
      | .ok (e, rest) => readQuotedOnto rest (e :: acc)
      | .error p => .error p
    else if c < ' ' then .error .malformed
    else readQuotedOnto rest (c :: acc)
termination_by cs.length
decreasing_by
  · have := length_of_readEscape _h
    simp only [List.length_cons]
    omega
  · simp

/-- Reads a string, after its opening quote. -/
def readQuoted (cs : List Char) : Except Problem (String × List Char) :=
  readQuotedOnto cs []

/-- Passes over a string, after its opening quote. -/
def skipQuoted (cs : List Char) : Except Problem (List Char) :=
  match cs with
  | [] => .error .endOfText
  | c :: rest =>
    if c = '"' then .ok rest
    else if c = '\\' then
      match _h : skipEscape rest with
      | .ok rest => skipQuoted rest
      | .error p => .error p
    else if c < ' ' then .error .malformed
    else skipQuoted rest
termination_by cs.length
decreasing_by
  · have := length_of_skipEscape _h
    simp only [List.length_cons]
    omega
  · simp

theorem length_of_readQuotedOnto {cs acc rest : List Char} {s : String}
    (h : readQuotedOnto cs acc = .ok (s, rest)) : rest.length < cs.length := by
  fun_induction readQuotedOnto cs acc with
  | case1 => cases h
  | case2 => cases h; simp
  | case3 acc rest₁ e rest₂ he _ ih =>
    have := length_of_readEscape he
    have := ih h
    simp only [List.length_cons]
    omega
  | case4 => cases h
  | case5 => cases h
  | case6 acc c rest₁ h₁ h₂ h₃ ih =>
    have := ih h
    simp only [List.length_cons]
    omega

theorem length_of_readQuoted {cs rest : List Char} {s : String}
    (h : readQuoted cs = .ok (s, rest)) : rest.length < cs.length :=
  length_of_readQuotedOnto h

theorem length_of_skipQuoted {cs rest : List Char} (h : skipQuoted cs = .ok rest) :
    rest.length < cs.length := by
  fun_induction skipQuoted cs with
  | case1 => cases h
  | case2 => cases h; simp
  | case3 rest₁ rest₂ he _ ih =>
    have := length_of_skipEscape he
    have := ih h
    simp only [List.length_cons]
    omega
  | case4 => cases h
  | case5 => cases h
  | case6 c rest₁ h₁ h₂ h₃ ih =>
    have := ih h
    simp only [List.length_cons]
    omega

end OtaPack.Json
