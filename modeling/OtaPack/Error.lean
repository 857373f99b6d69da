/-
  Why a container cannot be made.

  * `PackError`: the board is not known, or the payload is too long for the length field;
  * `PackError.message`: the cause in words; `PackError.inspect`: the cause with all its parts.
-/
import OtaPack.Board

namespace OtaPack

/-- Why a container cannot be made. -/
inductive PackError where
  /-- No supported board is called `name`.  The names that would do are given as one text. -/
  | unknownBoard (name supported : String)
  /-- A payload of `size` bytes does not fit under the 32-bit length field. -/
  | payloadTooLarge (size : Nat)
deriving DecidableEq, Repr

namespace PackError

/-- The cause in words. -/
def message : PackError → String
  | unknownBoard name supported =>
    name ++ " is not a supported board type, expected one of: " ++ supported
  | payloadTooLarge size =>
    "Payload of " ++ toString size ++ " bytes does not fit in an OTA container"

instance : ToString PackError := ⟨message⟩

/-- The cause with all its parts. -/
def inspect : PackError → String
  | unknownBoard name supported =>
    s!"UnknownBoard \x7b name: {name.quote}, supported: {supported.quote} \x7d"
  | payloadTooLarge size => s!"PayloadTooLarge({size})"

end PackError

/-- The supported board called `name`, up to the case of ASCII letters. -/
def Board.lookup (name : String) : Except PackError Board :=
  match Board.find? name with
  | some b => .ok b
  | none => .error (.unknownBoard name Board.supported)

theorem Board.lookup_eq_ok {name : String} {b : Board} :
    Board.lookup name = .ok b ↔ Board.find? name = some b := by
  unfold Board.lookup
  split <;> simp_all

end OtaPack
