/-
  What a command line asks for.

  * `Task`: a job whose board is told by its name;
  * `Request`: nothing, the list of boards, or a job, under a threshold for messages;
  * `Request.ofArguments`: the request of a command line, or what ends its reading;
  * `Report`: how a run ends;
  * `Request.run`, `run`: does what is asked for, with all output but the usage of the program.
-/
import OtaPack.CommandLine.Reading
import OtaPack.Job

namespace OtaPack.CommandLine

/-- A job whose board is told by its name. -/
structure Task where
  conversion : Conversion String
  input : String
  output : String

/-- What a command line asks for. -/
inductive Request where
  | nothing
  | boards
  | job (threshold : Log.Threshold) (j : Job)
  /-- A container for a board whose name is not found when it is looked up again. -/
  | unresolved

/-- A task as a request.  Its board is looked up by its name. -/
def Task.request (threshold : Log.Threshold) (t : Task) : Request :=
  match t.conversion.resolve? Board.find? with
  | some conversion => .job threshold { conversion, input := t.input, output := t.output }
  | none => .unresolved

/-! ## From arguments to requests -/

/-- The input and the output, which both have to be given. -/
def Values.files (v : Values) : Except Halt (String × String) :=
  match v.input, v.output with
  | some input, some output => .ok (input, output)
  | some _, none => .error (.misuse (.missing [Slot.output.label]))
  | none, _ => .error (.misuse (.missing [Slot.input.label, Slot.output.label]))

/-- The mode of a container. -/
def Values.mode (v : Values) : Except Halt Mode :=
  if .uncompressed ∈ v.switches ∧ .lzss ∈ v.switches then
    .error (.misuse (.excluded .uncompressed .lzss))
  else if .lzss ∈ v.switches then .ok (.compressed .lzss)
  else if .uncompressed ∈ v.switches then .ok .plain
  else .ok .precompressed

/-- The direction of the compression, exactly one of which has to be given. -/
def Values.direction (v : Values) : Except Halt (Conversion String) :=
  if .encode ∈ v.switches ∧ .decode ∈ v.switches then
    .error (.misuse (.excluded .encode .decode))
  else if .encode ∈ v.switches then .ok .compress
  else if .decode ∈ v.switches then .ok .decompress
  else .error (.misuse (.missing [s!"<{Switch.encode.label}|{Switch.decode.label}>"]))

/-- The conversion of a command, or none for the list of boards. -/
def Values.conversion (v : Values) : Command → Except Halt (Option (Conversion String))
  | .encode => do
    let mode ← v.mode
    match v.board with
    | some board => return some (.container board mode)
    | none =>
      .error (.misuse (.missing [Slot.board.label, Slot.input.label, Slot.output.label]))
  | .base64 => return some .base64
  | .json =>
    return some (.document (v.chunkSize.getD Transfer.defaultChunkSize)
      (v.delay.getD Transfer.defaultDelay))
  | .lzss => return some (← v.direction)
  | .boards => return none

/-- What a command with its arguments asks for.  The threshold of the program holds unless the
    command has been given one of its own. -/
structure Inner where
  /-- The conversion and its files, or none for the list of boards. -/
  task : Option Task
  verbosity : Option Log.Threshold

/-- Reads the arguments of a command. -/
def readCommand (c : Command) (args : List String) : Except Halt Inner := do
  let r ← readArguments (.start (.command c)) args
  match ← r.values.conversion c with
  | none => return ⟨none, r.values.verbosity⟩
  | some conversion =>
    let (input, output) ← r.values.files
    return ⟨some { conversion, input, output }, r.values.verbosity⟩

/-- Reads the arguments after the word for help: the name of a command, at most. -/
def readHelp : List String → Halt
  | [] => .help
  | [name] =>
    if name = "help" ∨ (Command.ofName? name).isSome then .help
    else .misuse (.unknownCommand name)
  | name :: other :: _ =>
    if name = "help" ∨ (Command.ofName? name).isSome then .misuse (.unknownCommand other)
    else .misuse (.unknownCommand name)

/-- The request of a command with its arguments, after those in front of it.  What stands in front
    is settled last. -/
def finish (r : Reading) (inner : Inner) : Except Halt Request := do
  let r ← r.settle
  let threshold := (inner.verbosity <|> r.values.verbosity).getD (.upTo .info)
  match inner.task with
  | some t => return t.request threshold
  | none => return .boards

/-- Reads the arguments of the program, up to a command. -/
def readProgram (r : Reading) : List String → Except Halt Request
  | [] => do
    let r ← r.settle
    if r.values.verbosity.isSome then return .nothing else .error (.misuse .nothingGiven)
  | arg :: args =>
    if arg = "--" then do
      let r ← r.takeSlots args
      if r.values.verbosity.isSome then return .nothing else .error (.misuse .nothingGiven)
    else if r.awaitsValue then
      match r.take arg with
      | .ok r => readProgram r args
      | .error h => .error h
    else if arg = "help" then .error (readHelp args)
    else match Command.ofName? arg with
      | some c => do finish r (← readCommand c args)
      | none =>
        match r.take arg with
        | .ok r => readProgram r args
        | .error h => .error h

/-- The request of a command line. -/
def Request.ofArguments (args : List String) : Except Halt Request :=
  readProgram (.start .program) args

/-! ## From requests to reports -/

/-- How a run ends. -/
structure Report where
  exitCode : Nat := 0
  /-- Whether the usage of the program is shown. -/
  usage : Bool := false
deriving DecidableEq, Repr

/-- The line of a board in the list of boards. -/
def boardLine (b : Board) : String :=
  let name := b.name ++ String.ofList (List.replicate (20 - b.name.length) ' ')
  let ids := match b.usbIds? with
    | some ids => "  usb " ++ Hex.digits 4 ids.vendor ++ ":" ++ Hex.digits 4 ids.product
    | none => ""
  name ++ " " ++ Hex.word b.magic ++ ids

/-- The version of the program. -/
def versionLine : String := "bin2ota-rs 0.3.0-dev"

variable {m : Type → Type} [Monad m] [Console m]

/-- Prints why a run fails, which ends it. -/
def failWith (exitCode : Nat) (text : String) : m Report := do
  Console.printLines .errors [text]
  return { exitCode }

/-- Breaks off a run that cannot go on. -/
def breakOff : m Report :=
  return { exitCode := 101 }

/-- Ends a run whose command line was not read to its end. -/
def Halt.run : Halt → m Report
  | .misuse .nothingGiven => return { exitCode := 2, usage := true }
  | .misuse reason => failWith 2 reason.message
  | .help => return { usage := true }
  | .version => do
    Console.printLines .output [versionLine]
    return {}

/-- Does what is asked for. -/
def Request.run [FileSystem m] : Request → m Report
  | .nothing => return {}
  | .boards => do
    if ← Console.sendLines .output (Board.all.map boardLine) then return {} else breakOff
  | .job threshold j => do
    match ← j.run threshold with
    | .ok () => return {}
    | .error (.pack e) => failWith 1 ("Error: " ++ e.inspect)
    | .error (.os e) => failWith 1 ("Error: " ++ e.inspect)
    | .error .stopped => breakOff
  | .unresolved => breakOff

/-- Does what a command line asks for. -/
def run [FileSystem m] (args : List String) : m Report :=
  match Request.ofArguments args with
  | .ok request => request.run
  | .error h => h.run

end OtaPack.CommandLine
