/-
  The boards that can be updated over the air.

  * `Board`: a name and the magic word that a container for the board carries;
  * `Board.usbIds?`: the USB vendor and product, which the magic word of the maker's own boards
    spells out;
  * `Board.all`: the supported boards, in the order in which they are listed;
  * `Board.find?`: the board of a name, where the case of ASCII letters does not count;
  * `Board.Cursor`: a place in the list, from which the boards are visited one by one;
  * `find?_eq_some`: what is found is in the list and has the asked name.
-/
import OtaPack.Bytes
import OtaPack.Text.Ascii
import OtaPack.Text.Hex

namespace OtaPack

/-- A kind of board: its name, and the magic word of its containers. -/
structure Board where
  name : String
  magic : UInt32
deriving DecidableEq, Repr

/-- A USB vendor and one of its products. -/
structure UsbIds where
  vendor : Nat
  product : Nat
deriving DecidableEq, Repr

namespace Board

/-- The USB vendor whose boards carry their USB identifiers as magic word. -/
def usbVendor : Nat := 0x2341

/-- The magic word as it stands in a container. -/
def magicBytes (b : Board) : Bytes :=
  littleEndian b.magic

/-- Vendor and product, if the magic word is made of them. -/
def usbIds? (b : Board) : Option UsbIds :=
  let ids := ⟨b.magic.toNat / UInt16.size, b.magic.toNat % UInt16.size⟩
  if ids.vendor = usbVendor then some ids else none

/-- The name and the magic word, for people. -/
def display (b : Board) : String :=
  b.name ++ " (" ++ Hex.word b.magic ++ ")"

instance : ToString Board := ⟨display⟩

/-! ## The supported boards -/

/-- The supported boards. -/
def all : List Board :=
  [⟨"MKR_WIFI_1010", 0x23418054⟩,
   ⟨"NANO_33_IOT", 0x23418057⟩,
   ⟨"PORTENTA_H7_M7", 0x2341025B⟩,
   ⟨"NANO_RP2040_CONNECT", 0x2341005E⟩,
   ⟨"NICLA_VISION", 0x2341025F⟩,
   ⟨"OPTA", 0x23410064⟩,
   ⟨"GIGA", 0x23410266⟩,
   ⟨"NANO_ESP32", 0x23410070⟩,
   ⟨"ESP32", 0x45535033⟩,
   ⟨"UNOR4WIFI", 0x23411002⟩,
   ⟨"PORTENTA_C33", 0x23410068⟩]

/-- The names of the supported boards. -/
def names : List String :=
  all.map name

/-- The names of the supported boards as one text. -/
def supported : String :=
  ", ".intercalate names

/-- The supported board called `name`, up to the case of ASCII letters. -/
def find? (name : String) : Option Board :=
  all.find? fun b => Text.SameLetters name b.name

/-- What is found is a supported board of that name. -/
theorem find?_eq_some {name : String} {b : Board} (h : find? name = some b) :
    b ∈ all ∧ Text.SameLetters name b.name :=
  ⟨List.mem_of_find?_eq_some h, by simpa using List.find?_some h⟩

/-- Nothing is found only if no supported board has the name. -/
theorem find?_eq_none {name : String} :
    find? name = none ↔ ∀ b ∈ all, ¬ Text.SameLetters name b.name := by
  simp [find?]

/-! ## Visiting the boards one by one -/

/-- A place in the list of boards: those that are still to be visited. -/
structure Cursor where
  rest : List Board
deriving DecidableEq, Repr

/-- Before the first board. -/
def Cursor.start : Cursor := ⟨all⟩

instance : Inhabited Cursor := ⟨.start⟩

/-- The next board, if one is left, and the place after it. -/
def Cursor.next (c : Cursor) : Option Board × Cursor :=
  (c.rest.head?, ⟨c.rest.tail⟩)

/-- The results of the next `n` steps and the place after them. -/
def Cursor.visit (c : Cursor) : Nat → List (Option Board) × Cursor
  | 0 => ([], c)
  | n + 1 =>
    let (b?, c') := c.next
    let (bs, last) := c'.visit n
    (b? :: bs, last)

end Board

end OtaPack
