/-
  Places.

  A place is told by names that lead down from the directory that a program works in.  What is
  outside of it is told by `..` in front, as often as needed, or by `/` in front for the root.

  * `Place`: where an entry is; `Place.IsTop`: the directory itself, those that it is in, and the
    root; `Place.parent`: the place of the directory above;
  * `Place.IsBelow`: a place is in a directory, or is it.
-/

namespace OtaPack

/-- Where an entry is. -/
abbrev Place := List String

namespace Place

/-- The name of the directory above. -/
def up : String := ".."

/-- What stands for the root in front of the names that lead down from it. -/
def root : String := "/"

/-- Whether a place is the directory itself, one that it is in, or the root.  These are directories
    without being entries. -/
def IsTop (place : Place) : Prop :=
  ∀ name ∈ place, name = up ∨ name = root

instance (place : Place) : Decidable (IsTop place) :=
  inferInstanceAs (Decidable (∀ name ∈ place, _))

/-- The names that stand for a directory and for the one above it. -/
def isDots (name : String) : Bool :=
  name = "." ∨ name = up

/-- The place of the directory above.  The root is above itself. -/
def parent (place : Place) : Place :=
  match place.getLast? with
  | none => [up]
  | some name =>
    if name = root then place
    else if name = up then place ++ [up]
    else place.dropLast

/-- Whether a place is that of a directory, or of something in it. -/
def IsBelow (place directory : Place) : Prop :=
  directory <+: place

instance (place directory : Place) : Decidable (IsBelow place directory) :=
  inferInstanceAs (Decidable (_ <+: _))

end Place

end OtaPack
