/-
  A host in memory: a directory, and what has been sent to the streams of the program, which take
  all texts.

  * `Host`; `Host.send`: more bytes for a stream; `Host.append`: more bytes for a file, or for a
    stream by way of its place;
  * `fst_append`, `directory_append`: the outcome and the directory are those of the directory
    alone, so streams never touch it;
  * the instances of `FileSystem` and `Console` for states that are hosts.
-/
import OtaPack.Files.Directory
import OtaPack.Files.FileSystem

namespace OtaPack

/-- A directory, and what has been sent to each stream. -/
structure Host where
  directory : Directory
  output : Bytes := []
  errors : Bytes := []
deriving DecidableEq, Repr

namespace Host

/-- Sends bytes to a stream. -/
def send (h : Host) (s : Console.Stream) (bs : Bytes) : Host :=
  match s with
  | .output => { h with output := h.output ++ bs }
  | .errors => { h with errors := h.errors ++ bs }

/-- Writes bytes at the end of the file at a place, or to the stream that is there. -/
def append (h : Host) (place : Place) (bs : Bytes) : Except OsError Unit × Host :=
  let after := { h with directory := (h.directory.append place bs).2 }
  ((h.directory.append place bs).1,
    match h.directory.get? place with
    | some (.stream s) => after.send s bs
    | _ => after)

@[simp] theorem directory_send (h : Host) (s : Console.Stream) (bs : Bytes) :
    (h.send s bs).directory = h.directory := by
  cases s <;> rfl

/-- Whether bytes can be written does not depend on the streams. -/
theorem fst_append (h : Host) (place : Place) (bs : Bytes) :
    (h.append place bs).1 = (h.directory.append place bs).1 := rfl

/-- What is written to a stream does not go to the directory. -/
theorem directory_append (h : Host) (place : Place) (bs : Bytes) :
    (h.append place bs).2.directory = (h.directory.append place bs).2 := by
  unfold append
  dsimp only
  split <;> simp

end Host

instance : FileSystem (StateM Host) where
  Handle := Place
  read path := fun h => (h.directory.read path, h)
  create path := fun h =>
    let (outcome, directory) := h.directory.create path
    (outcome, { h with directory })
  append place bs := fun h => h.append place bs
  remove path := fun h =>
    let (outcome, directory) := h.directory.remove path
    (outcome, { h with directory })

instance : Console (StateM Host) where
  send s text := fun h => (true, h.send s text.toUTF8.toList)

end OtaPack
