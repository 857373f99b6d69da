/-
  Paths.

  * `Path.ofString`: the names that a path is made of, and whether it ends in a slash.  A path that
    is empty, too long, or holds the character NUL is refused;
  * `maxName`, `maxPath`: how many bytes a name, and a whole path, may have.
-/
import OtaPack.Files.OsError

namespace OtaPack

/-- A path: the names between its slashes. -/
structure Path where
  /-- The path starts at the root. -/
  absolute : Bool
  /-- The names, which may be `.` and `..`. -/
  names : List String
  /-- A slash stands after the last name, so it can only be a directory's. -/
  endsInSlash : Bool
deriving DecidableEq, Repr

namespace Path

/-- The greatest number of bytes of a name. -/
def maxName : Nat := 255

/-- The greatest number of bytes of a path. -/
def maxPath : Nat := 4095

/-- The path that a text tells. -/
def ofString (s : String) : Except OsError Path :=
  if '\x00' ∈ s.toList then .error .nulInPath
  else if s = "" then .error .notFound
  else if maxPath < s.utf8ByteSize then .error .nameTooLong
  else .ok {
    absolute := s.toList.head? = some '/'
    names := (s.splitOn "/").filter (· ≠ "")
    endsInSlash := s.toList.getLast? = some '/' }

end Path

end OtaPack
