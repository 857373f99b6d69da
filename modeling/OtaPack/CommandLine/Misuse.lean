/-
  Why a command line is refused, and what ends its reading early.

  * `Misuse`: the causes; `Misuse.pieces`, `Misuse.message`: the text that tells them;
  * `Halt`: a misuse, or the wish for help or for the version, which is granted where it is read.
-/
import OtaPack.CommandLine.Grammar
import OtaPack.CommandLine.Number
import OtaPack.Error
import OtaPack.Text.Controls

namespace OtaPack.CommandLine

/-- Why a command line is refused. -/
inductive Misuse where
  /-- The board is not a supported one. -/
  | unknownBoard (name : String) (e : PackError)
  /-- The argument has no place where it stands. -/
  | unexpected (arg : String)
  | unknownCommand (name : String)
  /-- A switch has been given a value. -/
  | unexpectedValue (s : Switch) (value : String)
  | missingValue (s : Setting)
  | invalidValue (s : Setting) (value : String)
  /-- The value is no number that the setting can have. -/
  | invalidNumber (s : Setting) (value : String) (fault : NumberFault)
  | repeated (c : Choice)
  /-- Two options exclude each other. -/
  | excluded (s other : Switch)
  /-- Arguments are missing. -/
  | missing (labels : List String)
  /-- Nothing has been given at all. -/
  | nothingGiven
deriving DecidableEq, Repr

/-- A value that is refused, and the reason. -/
def refusal (value label reason : String) : List String :=
  ["error:", " invalid value '", value, "' for '", label,
    "'" ++ reason ++ "\n\nFor more information, try '", "--help", "'."]

/-- What is refused, with one piece that has been given set off. -/
def complaint (before given after : String) : List String :=
  ["error:", before, given, after ++ "\n\nFor more information, try '", "--help", "'."]

/-- The text that tells a misuse, in pieces.  A piece differs in style from its neighbours. -/
def Misuse.pieces : Misuse → List String
  | unknownBoard name e => refusal name Slot.board.label (": " ++ e.message)
  | unexpected arg => complaint " unexpected argument '" arg "' found"
  | unknownCommand name => complaint " unrecognized subcommand '" name "'"
  | unexpectedValue s value =>
    ["error:", " unexpected value '", value, "' for '", s.label,
      "' found; no more were expected\n\nFor more information, try '", "--help", "'."]
  | missingValue s => complaint " a value is required for '" s.label "' but none was supplied"
  | invalidValue s value => refusal value s.label ""
  | invalidNumber s value fault => refusal value s.label (": " ++ fault.message)
  | repeated c => complaint " the argument '" c.label "' cannot be used multiple times"
  | excluded s other =>
    ["error:", " the argument '", s.label, "' cannot be used with '", other.label,
      "'\n\nFor more information, try '", "--help", "'."]
  | missing labels =>
    complaint " the following required arguments were not provided:\n  "
      ("\n  ".intercalate labels) ""
  | nothingGiven => []

/-- The text that tells a misuse, as it is shown.  A change of style ends every control sequence
    that has been left open, so each piece is shown on its own. -/
def Misuse.message (m : Misuse) : String :=
  String.join (m.pieces.map Text.withoutControls)

/-- What ends the reading of a command line. -/
inductive Halt where
  | misuse (m : Misuse)
  | help
  | version
deriving DecidableEq, Repr

end OtaPack.CommandLine
