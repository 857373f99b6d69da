/-
  The making of containers, with messages.

  Each operation does what the one of the same name on containers does and leaves messages on its
  way: one with the fields of every header that is built, and one with the size of every payload
  that is read from a source.  The theorems `value_encode`, `value_deliver` and `value_convert` say
  that the messages change nothing.
-/
import OtaPack.Compressor
import OtaPack.Container.Delivery

namespace OtaPack.Packing

open Channel

variable {σ τ ρ ε : Type}

/-- The bytes of a version field, for a message. -/
def versionText (v : Version) : String :=
  "[" ++ ", ".intercalate (v.toBytes.map fun b => Hex.digits 2 b.toNat) ++ "]"

/-- The fields of a header, for a message. -/
def headerText (board : Board) (h : Header) : String :=
  s!"{board.name}: length {h.length.toNat} crc32 {Hex.word h.crc32} version {versionText h.version}"

/-- The header for `payload` on `board`. -/
def header (board : Board) (version : Version) (payload : Bytes) :
    Logged (Except PackError Header) :=
  match Header.build board version payload with
  | .ok h => do
    .note .debug (headerText board h)
    return .ok h
  | .error e => return .error e

/-- The container with `payload` for `board`. -/
def encode (board : Board) (payload : Bytes) (compressed : Bool) :
    Logged (Except PackError Bytes) := do
  return (← header board ⟨compressed⟩ payload).map fun h => h.toBytes ++ payload

/-- The container with `payload` for the supported board called `name`. -/
def encodeNamed (name : String) (payload : Bytes) (compressed : Bool) :
    Logged (Except PackError Bytes) :=
  match Board.lookup name with
  | .ok board => encode board payload compressed
  | .error e => return .error e

/-- Writes the container with `payload` for `board`. -/
def deliver (board : Board) (payload : Bytes) (compressed : Bool) (k : Sink σ ε) (s : σ) :
    Logged (Except (DeliveryError ρ ε) Unit × σ) := do
  match ← header board ⟨compressed⟩ payload with
  | .ok h => return Container.sendWith h payload k s
  | .error e => return (.error (.pack e), s)

/-- Writes the container whose payload are all bytes of a source. -/
def convert (board : Board) (compressed : Bool) (src : Source τ ρ) (t : τ) (k : Sink σ ε) (s : σ) :
    Logged (Except (DeliveryError ρ ε) Unit × σ) :=
  match (src.readAll t).1 with
  | .ok payload => do
    .note .debug s!"Read {payload.length} byte payload for {board}"
    deliver board payload compressed k s
  | .error e => return (.error (.read e), s)

/-! ## The messages change nothing -/

@[simp] theorem value_header (board : Board) (version : Version) (payload : Bytes) :
    (header board version payload).value = Header.build board version payload := by
  unfold header
  split <;> rename_i h <;> simp [h]

@[simp] theorem value_encode (board : Board) (payload : Bytes) (compressed : Bool) :
    (encode board payload compressed).value = Container.encode board payload compressed := by
  simp only [encode, Container.encode, Logged.value_bind, value_header, Logged.value_pure]
  cases Header.build board ⟨compressed⟩ payload <;> rfl

@[simp] theorem value_encodeNamed (name : String) (payload : Bytes) (compressed : Bool) :
    (encodeNamed name payload compressed).value =
      Container.encodeNamed name payload compressed := by
  unfold encodeNamed Container.encodeNamed
  cases Board.lookup name with
  | ok board => exact value_encode board payload compressed
  | error e => rfl

@[simp] theorem value_deliver (board : Board) (payload : Bytes) (compressed : Bool)
    (k : Sink σ ε) (s : σ) :
    (deliver board payload compressed k s : Logged (Except (DeliveryError ρ ε) Unit × σ)).value
      = Container.deliver board payload compressed k s := by
  simp only [deliver, Container.deliver, Logged.value_bind, value_header]
  cases Header.build board ⟨compressed⟩ payload <;> rfl

@[simp] theorem value_convert (board : Board) (compressed : Bool) (src : Source τ ρ) (t : τ)
    (k : Sink σ ε) (s : σ) :
    (convert board compressed src t k s).value = Container.convert board compressed src t k s := by
  unfold convert Container.convert
  cases (src.readAll t).1 with
  | ok payload => simp
  | error e => rfl

end OtaPack.Packing
