/-
  The program: does what its arguments ask for on the files of the system.

  * the file operations and the streams of the system as instances of `FileSystem` and `Console`;
  * `main`: does what is asked for, shows the usage if need be, and ends with the exit code.
-/
import OtaPack.CommandLine.Request

namespace OtaPack

/-- The number of a cause.  Some operations give it with its sign turned round. -/
def errorNumber (code : UInt32) : Nat :=
  if code.toNat < 1 <<< 31 then code.toNat else UInt32.size - code.toNat

/-- The cause of a failed operation. -/
def OsError.ofIO : IO.Error → OsError
  | .alreadyExists _ code text | .noFileOrDirectory _ code text | .invalidArgument _ code text
  | .permissionDenied _ code text | .resourceExhausted _ code text
  | .inappropriateType _ code text | .noSuchThing _ code text | .interrupted _ code text
  | .otherError code text | .resourceBusy code text | .resourceVanished code text
  | .unsupportedOperation code text | .hardwareFault code text
  | .unsatisfiedConstraints code text | .illegalOperation code text | .protocolError code text
  | .timeExpired code text => .ofCode (errorNumber code) text
  | .unexpectedEof => .other 0 "unexpected end of file"
  | .userError text => .other 0 text

/-- The outcome of an operation. -/
def attempt {α : Type} (action : IO α) : IO (Except OsError α) := do
  try
    return .ok (← action)
  catch e =>
    return .error (.ofIO e)

instance : FileSystem IO where
  Handle := IO.FS.Handle
  read path := attempt do return (← IO.FS.readBinFile path).toList
  create path := attempt (IO.FS.Handle.mk path .write)
  append h bs := attempt do
    h.write ⟨bs.toArray⟩
    h.flush
  remove path := attempt (IO.FS.removeFile path)

instance : Console IO where
  send s text := do
    let stream ← match s with
      | .output => IO.getStdout
      | .errors => IO.getStderr
    let sent ← attempt do
      stream.putStr text
      stream.flush
    return sent.isOk

/-- How the program is used. -/
def usageLines : List String :=
  ["Usage: bin2ota-rs [-v LEVEL] COMMAND",
   "",
   "Commands:",
   "  encode [-u|-l] BOARD INPUT OUTPUT    frame a firmware binary into an OTA container",
   "  base64 INPUT OUTPUT                  encode an OTA file as base64",
   "  json [-c N] [-d N] INPUT OUTPUT      wrap an OTA file in a JSON document",
   "  lzss --encode|--decode INPUT OUTPUT  compress or decompress a file",
   "  boards                               list the supported boards"]

end OtaPack

/-- Does what the arguments ask for. -/
def main (args : List String) : IO UInt32 := do
  let report ← OtaPack.CommandLine.run args
  if report.usage then
    OtaPack.Console.printLines (if report.exitCode = 0 then .output else .errors)
      OtaPack.usageLines
  return UInt32.ofNat report.exitCode
