/-
  The JSON document in which a container travels in chunks.

  * `Transfer.Document`: the container as base64 text, the bytes of a chunk, and the milliseconds
    between two chunks;
  * `Document.ofContainer`: the document for a container;
  * `Document.render`: the document as JSON text, without blanks and with its members in this order.
-/
import OtaPack.Base64
import OtaPack.Json.Quoted

namespace OtaPack.Transfer

/-- The bytes of a chunk, unless told otherwise. -/
def defaultChunkSize : UInt32 := 256

/-- The milliseconds between two chunks, unless told otherwise. -/
def defaultDelay : UInt32 := 500

/-- A container on its way. -/
structure Document where
  /-- The container as base64 text. -/
  binary : String
  /-- The number of bytes that are sent at once. -/
  chunkSize : UInt32
  /-- The milliseconds between two chunks. -/
  delay : UInt32
deriving DecidableEq, Repr

namespace Document

/-- The document for a container. -/
def ofContainer (container : Bytes) (chunkSize delay : UInt32) : Document where
  binary := Base64.encode container
  chunkSize
  delay

/-- The document as JSON text. -/
def render (d : Document) : String :=
  "\x7b\"binary\":" ++ Json.quote d.binary ++ ",\"chunk_size\":" ++ toString d.chunkSize.toNat ++
    ",\"delay\":" ++ toString d.delay.toNat ++ "\x7d"

end Document

end OtaPack.Transfer
