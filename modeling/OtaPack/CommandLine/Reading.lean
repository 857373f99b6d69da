/-
  Reading the arguments of one scope.

  Arguments are read from left to right.  The value of an option, or of a slot, waits until the next
  argument shows that it is complete, and only then it is looked at (`Reading.settle`).  So of two
  faults the one that is met first in this way counts.

  * `Reading`: what has been read so far; `Waiting`: an argument that is still to be settled;
  * `Reading.takeOption`, `Reading.takeLetters`, `Reading.takePlain`: take an argument;
  * `readArguments`: takes all arguments of a scope.
-/
import OtaPack.CommandLine.Misuse

namespace OtaPack.CommandLine

/-! ## Values -/

/-- What the arguments of a scope say. -/
structure Values where
  switches : List Switch := []
  verbosity : Option Log.Threshold := none
  chunkSize : Option UInt32 := none
  delay : Option UInt32 := none
  /-- The name of a board, as it stands in the list of boards. -/
  board : Option String := none
  input : Option String := none
  output : Option String := none
deriving DecidableEq, Repr

/-- Whether an option has been given. -/
def Values.has (v : Values) : Choice → Bool
  | .switch s => s ∈ v.switches
  | .setting .verbose => v.verbosity.isSome
  | .setting .chunkSize => v.chunkSize.isSome
  | .setting .delay => v.delay.isSome

/-- The number that a setting has been given. -/
def numberFor (s : Setting) (text : String) : Except Halt UInt32 :=
  (word32 text).mapError fun fault => .misuse (.invalidNumber s text fault)

/-- The values with one more setting. -/
def Values.set (v : Values) (s : Setting) (text : String) : Except Halt Values :=
  if v.has (.setting s) then .error (.misuse (.repeated (.setting s)))
  else match s with
    | .verbose =>
      match Log.Threshold.ofName? text with
      | some t => .ok { v with verbosity := some t }
      | none => .error (.misuse (if text = "" then .missingValue s else .invalidValue s text))
    | .chunkSize => (numberFor s text).map fun w => { v with chunkSize := some w }
    | .delay => (numberFor s text).map fun w => { v with delay := some w }

/-- The values with one more slot filled. -/
def Values.fill (v : Values) (slot : Slot) (text : String) : Except Halt Values :=
  match slot with
  | .board =>
    match Board.lookup text with
    | .ok b => .ok { v with board := some b.name }
    | .error e => .error (.misuse (.unknownBoard text e))
  | .input => .ok { v with input := some text }
  | .output => .ok { v with output := some text }

/-- The values with one more switch.  The wish for help or for the version is granted at once. -/
def Values.turnOn (v : Values) (s : Switch) : Except Halt Values :=
  if v.has (.switch s) then .error (.misuse (.repeated (.switch s)))
  else match s with
    | .help => .error .help
    | .version => .error .version
    | s => .ok { v with switches := v.switches ++ [s] }

/-! ## Arguments -/

/-- An argument that is still to be looked at. -/
inductive Waiting where
  | nothing
  /-- A setting that has to be followed by its value. -/
  | forValue (s : Setting)
  | setting (s : Setting) (text : String)
  | slot (s : Slot) (text : String)
deriving DecidableEq, Repr

/-- What has been read of the arguments of a scope. -/
structure Reading where
  scope : Scope
  waiting : Waiting := .nothing
  values : Values := {}
  /-- The slots that are still empty. -/
  slots : List Slot
deriving DecidableEq, Repr

namespace Reading

/-- Nothing has been read. -/
def start (scope : Scope) : Reading where
  scope
  slots := scope.slots

/-- Looks at the argument that waits. -/
def settle (r : Reading) : Except Halt Reading :=
  match r.waiting with
  | .nothing => .ok r
  | .forValue s => .error (.misuse (.missingValue s))
  | .setting s text => do
    let values ← r.values.set s text
    return { r with values, waiting := .nothing }
  | .slot s text => do
    let values ← r.values.fill s text
    return { r with values, waiting := .nothing }

/-- Takes a switch. -/
def takeSwitch (r : Reading) (s : Switch) : Except Halt Reading := do
  let r ← r.settle
  let values ← r.values.turnOn s
  return { r with values }

/-- Takes a setting, with its value if that is attached to it. -/
def takeSetting (r : Reading) (s : Setting) : (attached : Option String) → Except Halt Reading
  | some text => do
    let r ← r.settle
    let values ← r.values.set s text
    return { r with values }
  | none => do
    let r ← r.settle
    return { r with waiting := .forValue s }

/-- Takes an option in its long form: the word after two dashes, and a value after `=`. -/
def takeOption (r : Reading) (arg : List Char) : Except Halt Reading :=
  let word := String.ofList (arg.takeWhile (· ≠ '='))
  let attached : Option String :=
    match arg.dropWhile (· ≠ '=') with
    | [] => none
    | _ :: value => some (String.ofList value)
  match r.scope.long? word, attached with
  | none, _ => .error (.misuse (.unexpected ("--" ++ word)))
  | some { choice := .switch s, .. }, none => r.takeSwitch s
  | some { choice := .switch s, .. }, some value => .error (.misuse (.unexpectedValue s value))
  | some { choice := .setting s, .. }, attached => r.takeSetting s attached

/-- Takes options by their letters.  A setting takes the characters after its letter as its value,
    without a leading `=`. -/
def takeLetters (r : Reading) : List Char → Except Halt Reading
  | [] => .ok r
  | c :: cs =>
    match r.scope.letter? c with
    | none => .error (.misuse (.unexpected (String.ofList ['-', c])))
    | some { choice := .switch s, .. } =>
      match r.takeSwitch s with
      | .ok r => r.takeLetters cs
      | .error h => .error h
    | some { choice := .setting s, .. } =>
      match cs with
      | [] => r.takeSetting s none
      | '=' :: value => r.takeSetting s (some (String.ofList value))
      | value => r.takeSetting s (some (String.ofList value))

/-- Takes an argument for the next empty slot. -/
def takeSlot (r : Reading) (arg : String) : Except Halt Reading :=
  match r.slots, r.scope with
  | [], .program => .error (.misuse (.unknownCommand arg))
  | [], .command _ => .error (.misuse (.unexpected arg))
  | slot :: slots, _ => do
    let r ← r.settle
    return { r with waiting := .slot slot arg, slots }

/-- Takes an argument that is not an option: the value that a setting waits for, or a slot's. -/
def takePlain (r : Reading) (arg : String) : Except Halt Reading :=
  match r.waiting with
  | .forValue s => .ok { r with waiting := .setting s arg }
  | _ => r.takeSlot arg

/-- Takes an argument that may be an option. -/
def take (r : Reading) (arg : String) : Except Halt Reading :=
  match arg.toList with
  | '-' :: '-' :: word => r.takeOption word
  | '-' :: c :: cs => r.takeLetters (c :: cs)
  | _ => r.takePlain arg

/-- Takes arguments that all stand for slots. -/
def takeSlots (r : Reading) : List String → Except Halt Reading
  | [] => r.settle
  | arg :: args =>
    match r.takeSlot arg with
    | .ok r => r.takeSlots args
    | .error h => .error h

/-- Whether the next argument is the value of a setting. -/
def awaitsValue (r : Reading) : Bool :=
  match r.waiting with
  | .forValue _ => true
  | _ => false

end Reading

/-- Takes the arguments of a scope.  After two dashes there are no more options. -/
def readArguments (r : Reading) : List String → Except Halt Reading
  | [] => r.settle
  | arg :: args =>
    if arg = "--" then r.takeSlots args
    else match r.take arg with
      | .ok r => readArguments r args
      | .error h => .error h

end OtaPack.CommandLine
