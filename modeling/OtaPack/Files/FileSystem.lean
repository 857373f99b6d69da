/-
  The file operations that the commands need, in any monad.

  * `FileSystem m`: reads a file at once, creates a file or empties it, writes to an open file, and
    removes a file;
  * `WriteError`: why a file has not been written;
  * `writeOutput`: writes a file from front to back through a buffer, and removes it again if any
    write fails.  The bytes go to the buffer at once, or in pieces of 4096 with the progress shown
    after each; if that cannot be shown, the program is stopped, and the file stays.
-/
import OtaPack.Bytes
import OtaPack.Console
import OtaPack.Files.OsError

namespace OtaPack

/-- The file operations that the commands need. -/
class FileSystem (m : Type → Type) where
  /-- A file that is open for writing. -/
  Handle : Type
  /-- The content of a file. -/
  read : String → m (Except OsError Bytes)
  /-- Creates a file, or empties it, and opens it for writing. -/
  create : String → m (Except OsError Handle)
  /-- Writes bytes at the end of an open file, and fails if any of them cannot be written. -/
  append : Handle → Bytes → m (Except OsError Unit)
  remove : String → m (Except OsError Unit)

/-- Why a file has not been written. -/
inductive WriteError where
  | os (e : OsError)
  /-- The progress could not be shown, which stops the program. -/
  | stopped
deriving DecidableEq, Repr

namespace FileSystem

variable {m : Type → Type} [Monad m] [FileSystem m]

/-! ## Buffered writing -/

/-- The number of bytes that wait before they are written. -/
def bufferSize : Nat := 8192

/-- The number of bytes of a piece. -/
def pieceSize : Nat := 4096

/-- Writes the bytes that wait, if there are any. -/
def flush (h : Handle m) (waiting : Bytes) : m (Except OsError Unit) :=
  if waiting = [] then return .ok () else append h waiting

/-- Writes `bs` after the bytes that wait.  Returns the bytes that wait then: as many as fit are
    kept back, and a piece that is not smaller than the buffer goes past it. -/
def put (h : Handle m) (waiting bs : Bytes) : m (Except OsError Bytes) := do
  if waiting.length + bs.length ≤ bufferSize then return .ok (waiting ++ bs)
  match ← flush h waiting with
  | .error e => return .error e
  | .ok () =>
    if bs.length < bufferSize then return .ok bs
    return (← append h bs).map fun () => []

variable [Console m]

/-- A text that tells the progress and takes the place of the one before it in the same line.  It
    stands for the bar that the program draws there, which looks otherwise and depends on time; all
    that counts is that a text is sent after each piece. -/
def progress (done total : Nat) : String :=
  s!"\r{done} / {total} bytes"

/-- Stops in the middle of a file.  The bytes that wait are written if they can be. -/
def abandon (h : Handle m) (waiting : Bytes) : m (Except WriteError Bytes) := do
  let _ ← flush h waiting
  return .error .stopped

/-- Writes pieces in order after the bytes that wait, and shows after each how many of `total` bytes
    are done.  Returns the bytes that wait then. -/
def putPieces (h : Handle m) (total : Nat) :
    List Bytes → (waiting : Bytes) → (done : Nat) → m (Except WriteError Bytes)
  | [], waiting, _ => return .ok waiting
  | bs :: rest, waiting, done => do
    match ← put h waiting bs with
    | .error e => return .error (.os e)
    | .ok waiting =>
      if ← Console.send .output (progress (done + bs.length) total) then
        putPieces h total rest waiting (done + bs.length)
      else abandon h waiting

/-- Gives all bytes to the buffer, in pieces with their progress in a line of its own, or at once.
    Returns the bytes that wait then. -/
def putContent (h : Handle m) (inPieces : Bool) (content : Bytes) :
    m (Except WriteError Bytes) := do
  if inPieces then
    match ← putPieces h content.length (chunksOf pieceSize content) [] 0 with
    | .ok waiting =>
      if ← Console.send .output "\n" then return .ok waiting else abandon h waiting
    | .error .stopped => return .error .stopped
    | .error (.os e) =>
      return .error (if ← Console.send .output "\n" then .os e else .stopped)
  else return (← put h [] content).mapError .os

/-- Writes all bytes to an open file. -/
def writeContent (h : Handle m) (inPieces : Bool) (content : Bytes) :
    m (Except WriteError Unit) := do
  match ← putContent h inPieces content with
  | .error e => return .error e
  | .ok waiting => return (← flush h waiting).mapError .os

/-- Writes the file at `path`, in pieces or at once, and removes it again if any write fails.  A
    program that is stopped removes nothing any more. -/
def writeOutput (inPieces : Bool) (path : String) (content : Bytes) :
    m (Except WriteError Unit) := do
  match ← create path with
  | .error e => return .error (.os e)
  | .ok h =>
    match ← writeContent h inPieces content with
    | .ok () => return .ok ()
    | .error .stopped => return .error .stopped
    | .error (.os e) =>
      match ← remove (m := m) path with
      | .ok () => return .error (.os e)
      | .error e' => return .error (.os e')

end FileSystem

end OtaPack
