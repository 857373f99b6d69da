/-
  A directory in memory, and what is known of its surroundings.

  * `Directory`: the entries, each at its place;
  * `Directory.locate`: the place that a path tells;
  * `read`, `create`, `append`, `remove`: the file operations; `opening` and `removing` decide
    whether a file can be opened for writing, and removed.
-/
import OtaPack.Files.Entry
import OtaPack.Files.Surroundings

namespace OtaPack

/-- A directory and its surroundings: the entries that are known, each at its place. -/
structure Directory where
  entries : List (Place × Entry)
deriving DecidableEq, Repr

namespace Directory

/-- The entry at a place. -/
def get? (d : Directory) (place : Place) : Option Entry :=
  if place.IsTop then some .directory else d.entries.lookup place

/-- Puts an entry at a place, instead of the one that is there or after all others. -/
def insert (d : Directory) (place : Place) (e : Entry) : Directory :=
  if (d.entries.lookup place).isSome then
    ⟨d.entries.map fun x => if x.1 = place then (place, e) else x⟩
  else ⟨d.entries ++ [(place, e)]⟩

/-- Takes away the entry at a place. -/
def erase (d : Directory) (place : Place) : Directory :=
  ⟨d.entries.filter fun x => x.1 ≠ place⟩

/-! ## Finding places -/

/-- Follows names from a place, which have to be those of directories. -/
def follow (d : Directory) (place : Place) : List String → Except OsError Place
  | [] => .ok place
  | name :: names =>
    if name = "." then d.follow place names
    else if name = Place.up then d.follow place.parent names
    else match Place.checkName (place ++ [name]) with
      | .error e => .error e
      | .ok () =>
        let next := Place.canonical (place ++ [name])
        match d.get? next with
        | none => .error .notFound
        | some .directory => d.follow next names
        | some _ => .error .notADirectory

/-- A place, and whether it has to be a directory's. -/
structure Location where
  place : Place
  isDirectory : Bool
deriving DecidableEq, Repr

/-- The place that a path tells, all but the last name of which have to be those of directories. -/
def locate (d : Directory) (path : Path) : Except OsError Location :=
  let start := if path.absolute then [Place.root] else []
  match path.names.getLast? with
  | none => .ok ⟨start, true⟩
  | some name =>
    if Place.isDots name then (d.follow start path.names).map fun place => ⟨place, true⟩
    else do
      let place ← d.follow start path.names.dropLast
      return ⟨Place.canonical (place ++ [name]), path.endsInSlash⟩

/-! ## File operations -/

/-- The content of the file at a path. -/
def read (d : Directory) (path : String) : Except OsError Bytes := do
  let l ← d.locate (← Path.ofString path)
  l.place.checkName
  match d.get? l.place with
  | none => .error .notFound
  | some .directory => .error .isADirectory
  | some e => if l.isDirectory then .error .notADirectory else e.content

/-- Creates the file at a path, or opens and empties the one that is there.  Returns its place, and
    the entry that is there then. -/
def opening (d : Directory) (path : String) : Except OsError (Place × Entry) := do
  let l ← d.locate (← Path.ofString path)
  if l.isDirectory then .error .isADirectory
  else
    l.place.checkName
    match d.get? l.place with
    | some e => return (l.place, ← e.opened)
    | none =>
      l.place.checkNew
      return (l.place, .file [])

/-- Opens the file at a path for writing.  Returns its place. -/
def create (d : Directory) (path : String) : Except OsError Place × Directory :=
  match d.opening path with
  | .ok (place, e) => (.ok place, d.insert place e)
  | .error e => (.error e, d)

/-- Writes bytes at the end of the file at a place. -/
def append (d : Directory) (place : Place) (bs : Bytes) : Except OsError Unit × Directory :=
  match d.get? place with
  | none => (.error .notFound, d)
  | some .directory => (.error .isADirectory, d)
  | some e =>
    let (outcome, e) := e.append bs
    (outcome, d.insert place e)

/-- The place of the file at a path that can be removed. -/
def removing (d : Directory) (path : String) : Except OsError Place := do
  let l ← d.locate (← Path.ofString path)
  match d.get? l.place with
  | none => .error .notFound
  | some .directory => .error .isADirectory
  | some e =>
    if l.isDirectory then .error .notADirectory
    else
      e.removable
      return l.place

/-- Removes the file at a path. -/
def remove (d : Directory) (path : String) : Except OsError Unit × Directory :=
  match d.removing path with
  | .ok place => (.ok (), d.erase place)
  | .error e => (.error e, d)

end Directory

end OtaPack
