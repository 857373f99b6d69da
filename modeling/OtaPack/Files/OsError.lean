/-
  Why the system refuses a file operation.

  * `OsError`: the causes; `OsError.code`, `OsError.kind` and `OsError.message`: the number, the
    name of its class and the words for each;
  * `OsError.ofCode`: the cause of a number;
  * `OsError.describe`, `OsError.inspect`: a cause for people, and with all its parts.
-/

namespace OtaPack

/-- Why the system refuses a file operation. -/
inductive OsError where
  | notPermitted
  | notFound
  | noSuchDevice
  | outOfMemory
  | permissionDenied
  | notADirectory
  | isADirectory
  | invalidArgument
  | textFileBusy
  | storageFull
  | nameTooLong
  /-- A path cannot hold the character NUL, so the system is not even asked. -/
  | nulInPath
  /-- Any other cause, with its number and its words. -/
  | other (code : Nat) (text : String)
deriving DecidableEq, Repr

namespace OsError

/-- The number of the cause, if the system gave one. -/
def code : OsError → Option Nat
  | notPermitted => some 1
  | notFound => some 2
  | noSuchDevice => some 6
  | outOfMemory => some 12
  | permissionDenied => some 13
  | notADirectory => some 20
  | isADirectory => some 21
  | invalidArgument => some 22
  | textFileBusy => some 26
  | storageFull => some 28
  | nameTooLong => some 36
  | nulInPath => none
  | other code _ => some code

/-- The class of the cause. -/
def kind : OsError → String
  | notPermitted => "PermissionDenied"
  | notFound => "NotFound"
  | noSuchDevice => "Uncategorized"
  | outOfMemory => "OutOfMemory"
  | permissionDenied => "PermissionDenied"
  | notADirectory => "NotADirectory"
  | isADirectory => "IsADirectory"
  | invalidArgument => "InvalidInput"
  | textFileBusy => "ExecutableFileBusy"
  | storageFull => "StorageFull"
  | nameTooLong => "InvalidFilename"
  | nulInPath => "InvalidInput"
  | other .. => "Uncategorized"

/-- The cause in words. -/
def message : OsError → String
  | notPermitted => "Operation not permitted"
  | notFound => "No such file or directory"
  | noSuchDevice => "No such device or address"
  | outOfMemory => "Cannot allocate memory"
  | permissionDenied => "Permission denied"
  | notADirectory => "Not a directory"
  | isADirectory => "Is a directory"
  | invalidArgument => "Invalid argument"
  | textFileBusy => "Text file busy"
  | storageFull => "No space left on device"
  | nameTooLong => "File name too long"
  | nulInPath => "file name contained an unexpected NUL byte"
  | other _ text => text

/-- The cause of a number, told by `text` if it is none of the common ones. -/
def ofCode (code : Nat) (text : String) : OsError :=
  let common := [notPermitted, notFound, noSuchDevice, outOfMemory, permissionDenied, notADirectory,
    isADirectory, invalidArgument, textFileBusy, storageFull, nameTooLong]
  (common.find? fun e => e.code = some code).getD (other code text)

/-- The cause for people. -/
def describe (e : OsError) : String :=
  match e.code with
  | some n => s!"{e.message} (os error {n})"
  | none => e.message

/-- The cause with all its parts. -/
def inspect (e : OsError) : String :=
  match e.code with
  | some n => s!"Os \x7b code: {n}, kind: {e.kind}, message: \"{e.message}\" \x7d"
  | none => s!"Error \x7b kind: {e.kind}, message: \"{e.message}\" \x7d"

end OsError

end OtaPack
