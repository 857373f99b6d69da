/-
  Compressing a firmware image before it is put into a container.

  * `Compressor`: a name and a function on images;
  * `Compressor.lzss`: LZSS compression, which leaves a message with both sizes;
  * `Payload`, `prepare`: what goes into a container, with the flag to announce it by.
-/
import OtaPack.Log
import OtaPack.Lzss.Encode

namespace OtaPack

/-- A way to compress images. -/
structure Compressor where
  name : String
  compress : Bytes → Logged Bytes

/-- LZSS compression. -/
def Compressor.lzss : Compressor where
  name := "lzss"
  compress raw := do
    let packed := Lzss.encode raw
    .note .trace s!"lzss: {raw.length} -> {packed.length} bytes"
    return packed

@[simp] theorem Compressor.value_lzss (raw : Bytes) :
    (Compressor.lzss.compress raw).value = Lzss.encode raw := rfl

/-- The content of a container, and whether it is compressed. -/
structure Payload where
  bytes : Bytes
  compressed : Bool
deriving DecidableEq, Repr

/-- The payload for an image: what the compressor makes of it, or the image as it is. -/
def prepare (compressor : Option Compressor) (raw : Bytes) : Logged Payload :=
  match compressor with
  | some c => do return ⟨← c.compress raw, true⟩
  | none => return ⟨raw, false⟩

end OtaPack
