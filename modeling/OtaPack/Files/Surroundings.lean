/-
  What is known outside of the directory that a program works in.

  * `Place.canonical`: the place that another one stands for;
  * `Place.IsKept`: the places that the system keeps for itself; `Place.checkName`,
    `Place.checkNew`: the places whose names are too long, and those where no entry is ever added.
-/
import OtaPack.Files.OsError
import OtaPack.Files.Path
import OtaPack.Files.Place

namespace OtaPack

namespace Place

/-- The place under the root that some names lead to. -/
def fromRoot (names : List String) : Place :=
  root :: names

/-- Where the system tells about itself and the running programs. -/
def proc : Place := fromRoot ["proc"]

/-- Where the system tells about the program that asks. -/
def self : Place := proc ++ ["self"]

/-! ## Places that stand for others -/

/-- The places that stand for others.  Whoever runs the program sends nothing to it, so what comes
    from there is as empty as the device that swallows everything. -/
def aliases : List (Place × Place) :=
  [(fromRoot ["bin"], fromRoot ["usr", "bin"]),
   (fromRoot ["lib"], fromRoot ["usr", "lib"]),
   (fromRoot ["lib64"], fromRoot ["usr", "lib64"]),
   (fromRoot ["sbin"], fromRoot ["usr", "sbin"]),
   (fromRoot ["var", "lock"], fromRoot ["run", "lock"]),
   (fromRoot ["var", "run"], fromRoot ["run"]),
   (fromRoot ["dev", "fd"], self ++ ["fd"]),
   (fromRoot ["dev", "stdin"], fromRoot ["dev", "null"]),
   (fromRoot ["dev", "stdout"], self ++ ["fd", "1"]),
   (fromRoot ["dev", "stderr"], self ++ ["fd", "2"]),
   (proc ++ ["mounts"], self ++ ["mounts"]),
   (proc ++ ["net"], self ++ ["net"]),
   (proc ++ ["thread-self"], self),
   (self ++ ["cwd"], []),
   (self ++ ["root"], [root]),
   (self ++ ["fd", "0"], fromRoot ["dev", "null"])]

/-- The place that another one stands for. -/
def canonical (place : Place) : Place :=
  (aliases.lookup place).getD place

/-! ## Places that the system keeps for itself -/

/-- Whether a place is among those where the system tells about itself and the running programs. -/
def IsKept (place : Place) : Prop :=
  place.IsBelow proc ∨ place.IsBelow (fromRoot ["sys"])

instance (place : Place) : Decidable (IsKept place) :=
  inferInstanceAs (Decidable (_ ∨ _))

/-- Refuses a place whose last name is too long.  Among the places that the system keeps, no name is
    too long, but there is nothing with such a name. -/
def checkName (place : Place) : Except OsError Unit :=
  if Path.maxName < (place.getLast?.getD "").utf8ByteSize ∧ ¬place.IsKept then
    .error .nameTooLong
  else .ok ()

/-- Refuses a place where no entry is ever added. -/
def checkNew (place : Place) : Except OsError Unit :=
  if place.IsBelow proc then .error .notFound
  else if place.IsKept ∨ place.IsBelow (fromRoot ["dev", "pts"]) then .error .permissionDenied
  else .ok ()

end Place

end OtaPack
