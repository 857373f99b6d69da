/-
  The image comes out again at the other end.

  * `image? decompress container`: the image in a container: its payload, decompressed if the flag
    asks for it;
  * `image?_of_layout`, `image?_of_prepare`: the flag tells what has been done to the image;
  * `image_recovered`: what is compressed, framed and sent as a transfer document is received as it
    was.
-/
import OtaPack.Compressor
import OtaPack.Proofs.Container.Layout
import OtaPack.Proofs.Lzss.RoundTrip
import OtaPack.Proofs.Transfer.RoundTrip

namespace OtaPack

namespace Container

/-- The image in a container: all bytes from the offset 20 on, which are decompressed if the bit
    `0x40` of the byte in front of them is set. -/
def image? (decompress : Bytes → Bytes) (container : Bytes) : Option Bytes :=
  container[19]?.map fun flags =>
    if flags &&& 0x40 ≠ 0 then decompress (container.drop 20) else container.drop 20

theorem image?_of_layout {magic : UInt32} {compressed : Bool} {payload container : Bytes}
    (h : Layout magic compressed payload container) (decompress : Bytes → Bytes) :
    image? decompress container =
      some (if compressed then decompress payload else payload) := by
  have hflags : container[19]? = some (if compressed then 0x40 else 0) := by
    have hbyte := congrArg (fun bs => bs[7]?) h.version
    rw [List.getElem?_take_of_lt (by decide), List.getElem?_drop] at hbyte
    exact hbyte
  rw [image?, hflags, h.payload_eq]
  cases compressed <;> rfl

/-- The flag of a container tells whether the image has been compressed. -/
theorem image?_of_prepare {compressor : Option Compressor} {decompress : Bytes → Bytes}
    (hinv : ∀ k ∈ compressor, ∀ x, decompress (k.compress x).value = x) {magic : UInt32}
    {raw container : Bytes} (h : Layout magic (prepare compressor raw).value.compressed
      (prepare compressor raw).value.bytes container) :
    image? decompress container = some raw := by
  rw [image?_of_layout h]
  cases compressor with
  | none => rfl
  | some k => exact congrArg some (hinv k rfl raw)

/-- **Recovery.**  An image that is compressed in any way that can be undone, or not at all, framed
    for a board and sent as a transfer document is recovered from the document, with the magic word
    of the board and both numbers as they were.  LZSS can be undone. -/
theorem image_recovered (compressor : Option Compressor) (decompress : Bytes → Bytes)
    (hinv : ∀ k ∈ compressor, ∀ x, decompress (k.compress x).value = x) (board : Board)
    (raw container : Bytes) (chunkSize delay : UInt32)
    (h : (prepare compressor raw >>= fun p =>
      Packing.encode board p.bytes p.compressed).value = .ok container) :
    (∃ d received,
      Transfer.Document.parse (Transfer.Document.ofContainer container chunkSize delay).render =
        .ok d ∧
      Base64.decode? d.binary = some received ∧
      image? decompress received = some raw ∧
      wordAt? received 8 = some board.magic ∧
      d.chunkSize = chunkSize ∧ d.delay = delay) ∧
    ∀ x, Lzss.decode (Compressor.lzss.compress x).value = x := by
  refine ⟨?_, ?_⟩
  · rw [Logged.value_bind, Packing.value_encode] at h
    have hlayout := layout_of_encode h
    exact ⟨_, container, Transfer.parse_render _, Base64.decode?_encode container,
      image?_of_prepare hinv hlayout, hlayout.magicField, rfl, rfl⟩
  · intro x
    rw [Compressor.value_lzss]
    exact Lzss.decode_tokens x

/-- An image of four bytes that is sent in reverse comes out again. -/
theorem image_recovered_reverse :
    ∃ d received,
      Transfer.Document.parse (Transfer.Document.ofContainer
        [0x10, 0, 0, 0, 0xDB, 0xB1, 0xDC, 0xD1, 0x33, 0x50, 0x53, 0x45, 0, 0, 0, 0, 0, 0, 0, 0x40,
          4, 3, 2, 1] 256 500).render = .ok d ∧
      Base64.decode? d.binary = some received ∧
      image? List.reverse received = some [1, 2, 3, 4] ∧
      wordAt? received 8 = some 0x45535033 ∧
      d.chunkSize = 256 ∧ d.delay = 500 := by
  have hencode : (prepare (some ⟨"reverse", fun x => pure x.reverse⟩) [1, 2, 3, 4] >>= fun p =>
      Packing.encode ⟨"ESP32", 0x45535033⟩ p.bytes p.compressed).value =
        .ok [0x10, 0, 0, 0, 0xDB, 0xB1, 0xDC, 0xD1, 0x33, 0x50, 0x53, 0x45, 0, 0, 0, 0, 0, 0, 0,
          0x40, 4, 3, 2, 1] := by
    rw [Logged.value_bind, Packing.value_encode]
    exact encode_eq_ok.2 ⟨_, Header.build_eq_ok.2 ⟨by decide, rfl⟩, by decide +kernel⟩
  refine (image_recovered (some ⟨"reverse", fun x => pure x.reverse⟩) List.reverse ?_
    ⟨"ESP32", 0x45535033⟩ [1, 2, 3, 4] _ 256 500 hencode).1
  rintro k ⟨⟩ x
  exact List.reverse_reverse x

end Container

end OtaPack
