/-
  Showing a text where control sequences mean nothing.

  A control sequence begins with the escape character and tells a terminal to do something.  It is
  left out of a text that is not for a terminal, together with all control characters other than
  white space.

  * `Pending`, `Pending.next`: the sequence that is still open, and how a character continues it;
  * `Pending.shows`: the characters that are shown;
  * `withoutControls s`: the text as it is shown.
-/

namespace OtaPack.Text

/-- White space that moves on: tabs, and the ends of lines and pages. -/
def isBreak (c : Char) : Bool :=
  c = '\t' ∨ c = '\n' ∨ c = '\x0c' ∨ c = '\r'

/-- Characters that are shown outside of control sequences. -/
def isVisible (c : Char) : Bool :=
  isBreak c ∨ (' ' ≤ c ∧ c ≠ '\x7f')

/-- A control sequence that is still open. -/
inductive Pending where
  | nothing
  /-- The escape character. -/
  | escape
  /-- The escape character and others that wait for a last one. -/
  | intermediate
  /-- The parameters of a control function, after `[`. -/
  | control
  /-- A command for the system, after `]`. -/
  | command
  /-- A string for the device, after `P`, of which nothing has been read. -/
  | device
  /-- Parameters of a string for the device. -/
  | deviceControl
  /-- What stands between the parameters and the string. -/
  | deviceIntermediate
  /-- The string itself, or one after `X`, `^` or `_`, or one with parameters that are not well
      formed. -/
  | string
deriving DecidableEq, Repr

/-- What is open after one more character that is not shown.  The escape character begins a new
    sequence anywhere, and two other characters cancel the one that is open. -/
def Pending.next (p : Pending) (c : Char) : Pending :=
  if c = '\x1b' then escape
  else if c = '\x18' ∨ c = '\x1a' then nothing
  else match p with
    | nothing => nothing
    | escape =>
      if ' ' ≤ c ∧ c ≤ '/' then intermediate
      else if c = '[' then control
      else if c = ']' then command
      else if c = 'P' then device
      else if c = 'X' ∨ c = '^' ∨ c = '_' then string
      else if '0' ≤ c ∧ c ≤ '~' then nothing
      else escape
    | intermediate => if '0' ≤ c ∧ c ≤ '~' then nothing else intermediate
    | control => if '@' ≤ c ∧ c ≤ '~' then nothing else control
    | command => if c = '\x07' then nothing else command
    | device =>
      if ' ' ≤ c ∧ c ≤ '/' then deviceIntermediate
      else if '0' ≤ c ∧ c ≤ '?' then deviceControl
      else if '@' ≤ c ∧ c ≤ '~' then string
      else device
    | deviceControl =>
      if ' ' ≤ c ∧ c ≤ '/' then deviceIntermediate
      else if '<' ≤ c ∧ c ≤ '~' then string
      else deviceControl
    | deviceIntermediate => if '0' ≤ c ∧ c ≤ '~' then string else deviceIntermediate
    | string => if 0x9C ∈ String.utf8EncodeChar c then nothing else string

/-- Whether a character is shown.  A sequence lets tabs and line ends through, and is suspended by
    them: what follows is shown up to the next control character, which goes on with the sequence.
    Commands and strings let nothing through. -/
def Pending.shows (p : Pending) (suspended : Bool) (c : Char) : Bool :=
  if suspended ∨ p = nothing then isVisible c
  else isBreak c ∧ p ∈ [escape, intermediate, control]

/-- The characters that are shown, after those that left `p` open.  A character outside of ASCII
    that is shown ends a sequence that is suspended. -/
def shownFrom (p : Pending) (suspended : Bool) : List Char → List Char
  | [] => []
  | c :: cs =>
    if p.shows suspended c then c :: shownFrom (if c.toNat < 0x80 then p else .nothing) true cs
    else shownFrom (p.next c) false cs

/-- The text without control sequences, and without control characters other than white space. -/
def withoutControls (s : String) : String :=
  String.ofList (shownFrom .nothing false s.toList)

end OtaPack.Text
