/-
  The console: the streams of text that a program sends to whoever runs it.

  * `Console.Stream`: the output, and what is told about errors;
  * `Console m`: sends a text to a stream, in any monad, and tells whether it has been taken;
  * `Console.printLines`: sends lines that may get lost; `Console.sendLines`: sends lines up to the
    first one that is not taken.
-/

namespace OtaPack

/-- A stream of text that goes to whoever runs the program. -/
inductive Console.Stream where
  | output
  /-- What is told about errors. -/
  | errors
deriving DecidableEq, Repr

/-- The streams of a program. -/
class Console (m : Type → Type) where
  /-- Sends a text to a stream.  Returns whether the stream has taken it. -/
  send : Console.Stream → String → m Bool

namespace Console

variable {m : Type → Type} [Monad m] [Console m]

/-- Sends lines to a stream in order, each with its end.  Nobody minds if one gets lost. -/
def printLines (s : Stream) (lines : List String) : m Unit :=
  lines.forM fun line => do
    let _ ← send s (line ++ "\n")

/-- Sends lines to a stream in order, each with its end, up to the first one that is not taken.
    Returns whether all have been taken. -/
def sendLines (s : Stream) : List String → m Bool
  | [] => return true
  | line :: rest => do
    if ← send s (line ++ "\n") then sendLines s rest else return false

end Console

end OtaPack
