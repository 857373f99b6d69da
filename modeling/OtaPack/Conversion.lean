/-
  What the commands make of the content of a file.

  * `Mode`: how the version flag of a container is decided;
  * `Conversion β`: what is made of the content of a file, where a `β` tells the board of a
    container; `Conversion.resolve?`: the conversion with a board that is looked up;
  * `Conversion.apply`: the result, with messages;
  * `apply_compressed`: compressing on the way to a container is the same as compressing before it.
-/
import OtaPack.Lzss.Decode
import OtaPack.Packing
import OtaPack.Transfer.Document

namespace OtaPack

/-- How the version flag of a container is decided. -/
inductive Mode where
  /-- The input has been compressed before. -/
  | precompressed
  /-- The input is an image that stays as it is. -/
  | plain
  /-- The input is an image that is compressed first. -/
  | compressed (c : Compressor)

/-- What is made of the content of a file.  A `β` tells the board of a container. -/
inductive Conversion (β : Type) where
  | container (board : β) (mode : Mode)
  | base64
  | document (chunkSize delay : UInt32)
  | compress
  | decompress

/-- The conversion with the board that is found, if one is needed. -/
def Conversion.resolve? {β γ : Type} (find : β → Option γ) : Conversion β → Option (Conversion γ)
  | container board mode => (find board).map fun b => container b mode
  | base64 => some base64
  | document chunkSize delay => some (document chunkSize delay)
  | compress => some compress
  | decompress => some decompress

/-- The payload of a container. -/
def Mode.payload (mode : Mode) (raw : Bytes) : Logged Payload :=
  match mode with
  | precompressed => return ⟨raw, true⟩
  | plain => prepare none raw
  | compressed c => do
    let payload ← prepare (some c) raw
    .note .info s!"Compressed with {c.name}: {raw.length} -> {payload.bytes.length} bytes"
    return payload

/-- What a conversion makes of the content of a file. -/
def Conversion.apply (content : Bytes) : Conversion Board → Logged (Except PackError Bytes)
  | container board mode => do
    .note .info s!"Using board {board}"
    let payload ← mode.payload content
    match ← Packing.encode board payload.bytes payload.compressed with
    | .ok c => do
      .note .info s!"Writing {c.length} byte OTA container"
      return .ok c
    | .error e => return .error e
  | base64 => do
    let text := (Base64.encode content).toUTF8.toList
    .note .info s!"Writing {text.length} base64 characters"
    return .ok text
  | document chunkSize delay => do
    .note .info s!"Using chunks of {chunkSize.toNat} bytes every {delay.toNat} ms"
    return .ok (Transfer.Document.ofContainer content chunkSize delay).render.toUTF8.toList
  | compress => do
    let packed ← Compressor.lzss.compress content
    .note .info s!"{content.length} -> {packed.length} bytes"
    return .ok packed
  | decompress => do
    let raw := Lzss.decode content
    .note .info s!"{content.length} -> {raw.length} bytes"
    return .ok raw

/-- The container with a compressed payload, whether it was compressed before or on the way. -/
theorem Conversion.apply_compressed (board : Board) (c : Compressor) (raw : Bytes) :
    ((container board (.compressed c)).apply raw).value =
      ((container board .precompressed).apply (c.compress raw).value).value := by
  simp only [Conversion.apply, Mode.payload, prepare, Logged.value_bind, Logged.value_pure,
    Packing.value_encode]

end OtaPack
