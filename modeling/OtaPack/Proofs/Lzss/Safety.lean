/-
  No step of the compression or of the decompression goes wrong.

  * `EncodesSafely size input`: on the way through the window no check fails, in machine words of
    `size` values; `encodesSafely`: so it is as long as the window is no longer than a word tells;
  * `DecodesSafely size stream`: on the way through the stream no check fails, whatever the stream
    is; `decodesSafely`: so it is as long as a word tells the number of its bits, with some room;
  * `safe_of_length_lt`: both, for byte strings of less than `2 ^ 60` bytes and words of 64 bits.
-/
import OtaPack.Proofs.Lzss.CheckedDecode
import OtaPack.Proofs.Lzss.CheckedEncode

namespace OtaPack.Lzss

open Bits (Reader)

/-- The compression of `input` returns, and no step on the way goes wrong. -/
structure EncodesSafely (size : Nat) (input : Bytes) : Prop where
  /-- It stays inside the window. -/
  bounds : ∀ r, Reached size (window input) r → startPosition ≤ r ∧ r ≤ (window input).size
  /-- Before the end there is a token, the bytes of which are inside the window.  If it is not the
      next byte, its length is one that a reference can tell. -/
  token : ∀ r, Reached size (window input) r → r < (window input).size →
    ∃ t, checkedToken size (window input) r = .ok (t, r + t.length) ∧
      r + t.length ≤ (window input).size ∧
      (t = .literal ((window input).getD r 0) ∨ minMatch ≤ t.length ∧ t.length ≤ maxMatch)
  result : checkedEncode size input = .ok (encode input)

/-- The decompression of `stream` returns, and no step on the way goes wrong. -/
structure DecodesSafely (size : Nat) (stream : Bytes) : Prop where
  /-- The ring keeps its size, and the place of the next byte is inside it. -/
  ring : ∀ b r, Comes size stream b r → b.slots.size = ringSize ∧ b.next < ringSize
  /-- The cursor does not pass the last bit. -/
  cursor : ∀ b r, Comes size stream b r → r.input = stream.toArray ∧ r.cursor ≤ 8 * stream.length
  /-- There is a next token or none. -/
  step : ∀ b r, Comes size stream b r → ∃ next, checkedApply? size b r = .ok next
  result : checkedDecode size stream = .ok (decode stream)

theorem encodesSafely {size : Nat} {input : Bytes} (h : startPosition + input.length < size) :
    EncodesSafely size input := by
  have hsize : (window input).size < size := by rwa [size_window]
  have hwindow : startPosition ≤ (window input).size := by
    rw [size_window]
    exact Nat.le_add_right _ _
  refine ⟨fun r hr => hr.bounds hwindow hsize, fun r hr hlt => ?_, checkedEncode_eq h⟩
  obtain ⟨hstart, -⟩ := hr.bounds hwindow hsize
  refine ⟨tokenAt (window input) r, checkedToken_eq hstart hlt hsize,
    add_length_tokenAt_le hstart hlt, ?_⟩
  rw [tokenAt]
  split
  · exact .inl rfl
  · exact .inr ⟨Token.two_le_length _ _, Token.length_le _⟩

theorem decodesSafely {size : Nat} {stream : Bytes}
    (h : 8 * stream.length + 2 * ringSize < size) : DecodesSafely size stream := by
  refine ⟨fun b r hr => ?_, fun b r hr => ?_, fun b r hr => ?_, checkedDecode_eq h⟩
  · obtain ⟨⟨ring, rfl⟩, -, -⟩ := hr.exists_ring h
    exact ⟨ring.slots.size_toArray, ring.next.isLt⟩
  · obtain ⟨-, hinput, hcursor⟩ := hr.exists_ring h
    rw [Reader.size, hinput, List.size_toArray] at hcursor
    exact ⟨hinput, hcursor⟩
  · obtain ⟨⟨ring, rfl⟩, hinput, hcursor⟩ := hr.exists_ring h
    exact ⟨_, checkedApply?_eq hcursor (by rwa [Reader.size, hinput, List.size_toArray]) ring⟩

/-- **Neither compression nor decompression goes wrong**, in machine words of 64 bits, for any byte
    string of less than `2 ^ 60` bytes. -/
theorem safe_of_length_lt (bs : Bytes) (h : bs.length < 2 ^ 60) :
    EncodesSafely UInt64.size bs ∧ DecodesSafely UInt64.size bs := by
  have hstart : startPosition = 2031 := rfl
  have hring : ringSize = 2048 := rfl
  have hword : UInt64.size = 2 ^ 64 := rfl
  exact ⟨encodesSafely (by omega), decodesSafely (by omega)⟩

/-- As a stream these are a reference that runs over the end of the ring, and a literal that is cut
    short. -/
theorem safe_of_length_lt_cut :
    ([0x7f, 0x3f, 0x80] : Bytes).length < 2 ^ 60 ∧
      EncodesSafely UInt64.size [0x7f, 0x3f, 0x80] ∧ DecodesSafely UInt64.size [0x7f, 0x3f, 0x80] :=
  ⟨by decide, safe_of_length_lt [0x7f, 0x3f, 0x80] (by decide)⟩

end OtaPack.Lzss
