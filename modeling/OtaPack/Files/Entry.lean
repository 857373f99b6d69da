/-
  What is found at a place.

  * `Entry`: a file, a directory, or something that behaves like a file to some extent: a device, a
    stream, or a file that the system keeps for itself;
  * `Entry.content`: what is read from an entry;
  * `Entry.opened`, `Entry.append`: what becomes of an entry when it is opened for writing, and when
    bytes are written to it;
  * `Entry.removable`: whether an entry can be removed.
-/
import OtaPack.Bytes
import OtaPack.Console
import OtaPack.Files.OsError

namespace OtaPack

/-- What is found at a place. -/
inductive Entry where
  | file (content : Bytes)
  | directory
  /-- A device that swallows everything and gives nothing. -/
  | void
  /-- A device that has room for `room` bytes, or for any number, and gives bytes without end. -/
  | device (room : Option Nat)
  /-- A stream of the program. -/
  | stream (s : Console.Stream)
  /-- A file by which the system tells about itself.  It can be opened for writing, but takes no
      bytes, and cannot be removed. -/
  | report (content : Bytes)
  /-- What cannot be opened. -/
  | closed (cause : OsError)
deriving DecidableEq, Repr

namespace Entry

/-- What is read from an entry.  What has been sent to a stream does not come back. -/
def content : Entry → Except OsError Bytes
  | file content | report content => .ok content
  | directory => .error .isADirectory
  | void | stream _ => .ok []
  | device _ => .error .outOfMemory
  | closed cause => .error cause

/-- An entry after it has been opened for writing, which empties a file. -/
def opened : Entry → Except OsError Entry
  | file _ => .ok (file [])
  | directory => .error .isADirectory
  | closed cause => .error cause
  | e => .ok e

/-- An entry after bytes have been written to it.  A device takes as many as there is room for. -/
def append (bs : Bytes) : Entry → Except OsError Unit × Entry
  | file content => (.ok (), file (content ++ bs))
  | directory => (.error .isADirectory, directory)
  | device (some room) =>
    (if bs.length ≤ room then .ok () else .error .storageFull, device (some (room - bs.length)))
  | report content => (.error .invalidArgument, report content)
  | closed cause => (.error cause, closed cause)
  | e => (.ok (), e)

/-- Whether an entry can be removed, as a file can. -/
def removable : Entry → Except OsError Unit
  | directory => .error .isADirectory
  | report _ => .error .notPermitted
  | _ => .ok ()

end Entry

end OtaPack
