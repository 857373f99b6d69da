/-
  The words of the command line.

  * `Command`: what can be asked for;
  * `Switch`, `Setting`: options without and with a value; `Choice`: either of them;
  * `Slot`: arguments that are known by their order;
  * `Scope`: the program itself or one of its commands, with the options (`Scope.options`) and slots
    (`Scope.slots`) that may be given there.
-/
import OtaPack.Log

namespace OtaPack.CommandLine

/-- What can be asked for. -/
inductive Command where
  | encode
  | base64
  | json
  | lzss
  | boards
deriving DecidableEq, Repr

/-- The command of a name. -/
def Command.ofName? : String → Option Command
  | "encode" => some encode
  | "base64" => some base64
  | "json" => some json
  | "lzss" => some lzss
  | "boards" => some boards
  | _ => none

/-- An option without a value. -/
inductive Switch where
  | uncompressed
  | lzss
  | encode
  | decode
  | help
  | version
deriving DecidableEq, Repr

/-- An option with a value. -/
inductive Setting where
  | verbose
  | chunkSize
  | delay
deriving DecidableEq, Repr

/-- An option. -/
inductive Choice where
  | switch (s : Switch)
  | setting (s : Setting)
deriving DecidableEq, Repr

/-- An argument that is known by its place among the others of its kind. -/
inductive Slot where
  | board
  | input
  | output
deriving DecidableEq, Repr

/-- The word for a slot. -/
def Slot.label : Slot → String
  | board => "<BOARD>"
  | input => "<INPUT>"
  | output => "<OUTPUT>"

/-- The words for an option: the long one, and the letter if there is one. -/
structure Spelling where
  long : String
  letter : Option Char := none
  choice : Choice
deriving DecidableEq, Repr

/-- Where an argument stands: in front of the command, or after it. -/
inductive Scope where
  | program
  | command (c : Command)
deriving DecidableEq, Repr

namespace Scope

/-- The options of every scope. -/
def commonOptions : List Spelling :=
  [{ long := "verbose", letter := some 'v', choice := .setting .verbose },
   { long := "help", letter := some 'h', choice := .switch .help }]

/-- The options of one scope alone. -/
def ownOptions : Scope → List Spelling
  | program => [{ long := "version", letter := some 'V', choice := .switch .version }]
  | command .encode =>
    [{ long := "uncompressed", letter := some 'u', choice := .switch .uncompressed },
     { long := "lzss", letter := some 'l', choice := .switch .lzss }]
  | command .json =>
    [{ long := "chunk-size", letter := some 'c', choice := .setting .chunkSize },
     { long := "delay", letter := some 'd', choice := .setting .delay }]
  | command .lzss =>
    [{ long := "encode", choice := .switch .encode },
     { long := "decode", choice := .switch .decode }]
  | command .base64 | command .boards => []

/-- The options that may be given in a scope. -/
def options (scope : Scope) : List Spelling :=
  scope.ownOptions ++ commonOptions

/-- The slots of a scope, in order. -/
def slots : Scope → List Slot
  | program | command .boards => []
  | command .encode => [.board, .input, .output]
  | command .base64 | command .json | command .lzss => [.input, .output]

/-- The option of a long word. -/
def long? (scope : Scope) (word : String) : Option Spelling :=
  scope.options.find? fun s => s.long = word

/-- The option of a letter. -/
def letter? (scope : Scope) (letter : Char) : Option Spelling :=
  scope.options.find? fun s => s.letter = some letter

end Scope

/-- The words for a setting and its value. -/
def Setting.label : Setting → String
  | verbose => "--verbose <VERBOSE>"
  | chunkSize => "--chunk-size <CHUNK_SIZE>"
  | delay => "--delay <DELAY>"

/-- The word for a switch. -/
def Switch.label : Switch → String
  | uncompressed => "--uncompressed"
  | lzss => "--lzss"
  | encode => "--encode"
  | decode => "--decode"
  | help => "--help"
  | version => "--version"

/-- The words for an option. -/
def Choice.label : Choice → String
  | switch s => s.label
  | setting s => s.label

end OtaPack.CommandLine
