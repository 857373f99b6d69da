/-
  Messages, and computations that leave messages behind.

  * `Log.Level`, from `error` (always of interest) to `trace` (hardly ever);
  * `Log.Threshold`: the least urgent level that is still shown, or nothing at all;
  * `Log.Entry`: a message with its level; `tagged` puts the level in front, `line` leaves the tag
    of plain information away;
  * `Logged α`: a value and the messages left on the way to it, in order.  The value never depends
    on the messages, so `Logged` is a monad in which the value can be read off on its own
    (`value_bind`).
-/

namespace OtaPack

namespace Log

/-- How urgent a message is. -/
inductive Level where
  | error
  | warn
  | info
  | debug
  | trace
deriving DecidableEq, Repr

/-- The place of a level in the order, the most urgent first. -/
def Level.rank : Level → Nat
  | error => 1
  | warn => 2
  | info => 3
  | debug => 4
  | trace => 5

/-- The tag of a level. -/
def Level.tag : Level → String
  | error => "ERROR"
  | warn => "WARN"
  | info => "INFO"
  | debug => "DEBUG"
  | trace => "TRACE"

/-- Which messages are shown: those up to a level, or none. -/
inductive Threshold where
  | off
  | upTo (level : Level)
deriving DecidableEq, Repr

/-- Whether messages of level `l` are shown. -/
def Threshold.shows : Threshold → Level → Bool
  | off, _ => false
  | upTo m, l => l.rank ≤ m.rank

/-- The threshold of a name, which is written in small letters. -/
def Threshold.ofName? : String → Option Threshold
  | "off" => some off
  | "error" => some (upTo .error)
  | "warn" => some (upTo .warn)
  | "info" => some (upTo .info)
  | "debug" => some (upTo .debug)
  | "trace" => some (upTo .trace)
  | _ => none

/-- A message and its level. -/
structure Entry where
  level : Level
  text : String
deriving DecidableEq, Repr

/-- The message with its level in front. -/
def Entry.tagged (e : Entry) : String :=
  e.level.tag ++ ": " ++ e.text

/-- The message as it is shown: plain information stands without a tag. -/
def Entry.line (e : Entry) : String :=
  if e.level = .info then e.text else e.tagged

/-- The lines shown for `log` under a threshold. -/
def shown (t : Threshold) (log : List Entry) : List String :=
  (log.filter fun e => t.shows e.level).map Entry.line

end Log

/-- A value and the messages that were left on the way to it. -/
structure Logged (α : Type) where
  log : List Log.Entry
  value : α

namespace Logged

instance : Monad Logged where
  pure a := ⟨[], a⟩
  bind x f := ⟨x.log ++ (f x.value).log, (f x.value).value⟩

/-- Leaves one message. -/
def note (level : Log.Level) (text : String) : Logged Unit :=
  ⟨[⟨level, text⟩], ()⟩

variable {α β : Type}

@[simp] theorem value_pure (a : α) : (pure a : Logged α).value = a := rfl

@[simp] theorem value_bind (x : Logged α) (f : α → Logged β) :
    (x >>= f).value = (f x.value).value := rfl

end Logged

end OtaPack
