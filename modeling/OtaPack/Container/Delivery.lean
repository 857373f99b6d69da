/-
  Containers on their way from a source to a sink.

  * `Container.deliver`: builds the header, writes header and payload to a sink, and flushes it.  A
    header that cannot be built leaves the sink untouched;
  * `Container.convert`: reads the payload from a source first.  A source that fails leaves the sink
    untouched.
-/
import OtaPack.Container.Basic
import OtaPack.Channel.Sink
import OtaPack.Channel.Source

namespace OtaPack

open Channel

/-- Why a container did not arrive. -/
inductive DeliveryError (ρ ε : Type) where
  | pack (e : PackError)
  | read (e : ρ)
  | write (e : WriteFault ε)
deriving DecidableEq, Repr

/-- The cause in words. -/
def DeliveryError.message {ρ ε : Type} : DeliveryError ρ ε → String
  | pack e => e.message
  | read _ => "Failed to read input"
  | write _ => "Failed to write to output"

namespace Container

variable {σ τ ρ ε : Type}

/-- Writes a header and its payload. -/
def sendWith (header : Header) (payload : Bytes) (k : Sink σ ε) (s : σ) :
    Except (DeliveryError ρ ε) Unit × σ :=
  let (r, s) := k.send s [header.toBytes, payload]
  (r.mapError .write, s)

/-- Writes the container with `payload` for `board`. -/
def deliver (board : Board) (payload : Bytes) (compressed : Bool) (k : Sink σ ε) (s : σ) :
    Except (DeliveryError ρ ε) Unit × σ :=
  match Header.build board ⟨compressed⟩ payload with
  | .ok header => sendWith header payload k s
  | .error e => (.error (.pack e), s)

/-- Writes the container whose payload are all bytes of a source. -/
def convert (board : Board) (compressed : Bool) (src : Source τ ρ) (t : τ) (k : Sink σ ε) (s : σ) :
    Except (DeliveryError ρ ε) Unit × σ :=
  match (src.readAll t).1 with
  | .ok payload => deliver board payload compressed k s
  | .error e => (.error (.read e), s)

end Container

end OtaPack
