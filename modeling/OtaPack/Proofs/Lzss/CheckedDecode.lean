/-
  Decompression with a check at each step.

  * `Buffer`: the bytes of the ring, the place of the next one, and all bytes so far, as plain
    numbers and arrays; `Ring.buffer`: those of a ring;
  * `Buffer.checkedPush`, `Buffer.checkedCopy`, `checkedLiteral?`, `checkedReference?`,
    `checkedApply?`: a byte, a copy, and a step of the decompression with its two cases, in which
    every index, sum and field is checked;
  * `checkedDecode`: the decompression of a stream in such steps;
  * `checkedApply?_eq`: no check fails, and the step is that of the decompression;
  * `Comes size stream b r`: the decompression of a stream comes to the buffer `b` and the reader
    `r`; `Comes.exists_ring`: these are a ring and a reader inside the stream;
  * `checkedDecode_eq`: the decompression with checks is the decompression.
-/
import OtaPack.Lzss.Decode
import OtaPack.Proofs.Bits.Checked
import OtaPack.Proofs.Lzss.TokenStream

namespace OtaPack.Lzss

open Bits (Reader)
open Bits.Reader
open Checked

/-! ## Steps -/

/-- What a decompression keeps, as plain numbers and arrays. -/
structure Buffer where
  slots : Array UInt8
  next : Nat
  out : Array UInt8

/-- The buffer of a ring. -/
def Ring.buffer (ring : Ring) : Buffer where
  slots := ring.slots.toArray
  next := ring.next
  out := ring.out

section
variable (size : Nat)

/-- Appends a byte. -/
def Buffer.checkedPush (b : Buffer) (c : UInt8) : Checked Buffer := do
  let slots ← store b.slots b.next c
  let next ← word size (b.next + 1)
  return ⟨slots, next &&& (ringSize - 1), b.out.push c⟩

/-- Appends `n` bytes of the ring, from the one that is `k` behind `position` on. -/
def Buffer.checkedCopy (position k : Nat) (b : Buffer) : (n : Nat) → Checked Buffer
  | 0 => .ok b
  | n + 1 => do
    let c ← index b.slots ((← word size (position + k)) &&& (ringSize - 1))
    let b ← b.checkedPush size c
    Buffer.checkedCopy position (k + 1) b n

/-- Reads the byte of a literal and appends it, or nothing if the stream ends within it. -/
def checkedLiteral? (b : Buffer) (r : Reader) : Checked (Option (Buffer × Reader)) := do
  let some (c, r) ← checkedGetBits size r 8 | return none
  let byte ← fits 8 c
  return some (← b.checkedPush size (UInt8.ofNat byte), r)

/-- Reads a position and a length and appends the bytes there, or nothing if the stream ends
    within them. -/
def checkedReference? (b : Buffer) (r : Reader) : Checked (Option (Buffer × Reader)) := do
  let some (position, r) ← checkedGetBits size r positionBits | return none
  let some (excess, r) ← checkedGetBits size r lengthBits | return none
  let n ← word size (excess + minMatch)
  return some (← b.checkedCopy size position 0 n, r)

/-- Reads a token and appends what it stands for, or nothing if the stream ends within it. -/
def checkedApply? (b : Buffer) (r : Reader) : Checked (Option (Buffer × Reader)) := do
  let some (flag, r) ← checkedGetBits size r 1 | return none
  if flag = 1 then checkedLiteral? size b r else checkedReference? size b r

end

variable {size : Nat} {ring : Ring} {b b' : Buffer} {r r' : Reader}

theorem remaining_of_checkedLiteral? (h : checkedLiteral? size b r = .ok (some (b', r'))) :
    r'.remaining ≤ r.remaining := by
  obtain ⟨_ | ⟨c, r₁⟩, h₁, h⟩ := exists_of_bind_eq_ok h
  · cases h
  obtain ⟨byte, -, h⟩ := exists_of_bind_eq_ok h
  obtain ⟨b, -, h⟩ := exists_of_bind_eq_ok h
  cases h
  rw [← remaining_of_checkedGetBits h₁]
  exact Nat.le_add_right _ _

theorem remaining_of_checkedReference? (h : checkedReference? size b r = .ok (some (b', r'))) :
    r'.remaining ≤ r.remaining := by
  obtain ⟨_ | ⟨position, r₁⟩, h₁, h⟩ := exists_of_bind_eq_ok h
  · cases h
  obtain ⟨_ | ⟨excess, r₂⟩, h₂, h⟩ := exists_of_bind_eq_ok h
  · cases h
  obtain ⟨n, -, h⟩ := exists_of_bind_eq_ok h
  obtain ⟨b, -, h⟩ := exists_of_bind_eq_ok h
  cases h
  rw [← remaining_of_checkedGetBits h₁, ← remaining_of_checkedGetBits h₂, Nat.add_assoc]
  exact Nat.le_add_right _ _

/-- A step takes bits away. -/
theorem remaining_of_checkedApply? (h : checkedApply? size b r = .ok (some (b', r'))) :
    r'.remaining < r.remaining := by
  obtain ⟨_ | ⟨flag, r₁⟩, h₁, h⟩ := exists_of_bind_eq_ok h
  · cases h
  rw [← remaining_of_checkedGetBits h₁, Nat.lt_succ_iff]
  dsimp only at h
  split at h
  · exact remaining_of_checkedLiteral? h
  · exact remaining_of_checkedReference? h

/-! ## No check fails -/

theorem and_ringSize (n : Nat) : n &&& (ringSize - 1) = n % ringSize :=
  Nat.and_two_pow_sub_one_eq_mod n positionBits

theorem checkedPush_eq (hsize : ringSize < size) (ring : Ring) (c : UInt8) :
    ring.buffer.checkedPush size c = .ok (ring.push c).buffer := by
  have hslot : ring.next.val < ring.slots.toArray.size := by
    rw [Vector.size_toArray]
    exact ring.next.isLt
  have hword : ring.next.val + 1 < size := by
    have := ring.next.isLt
    omega
  have hnext : (ring.next.val + 1) % ringSize = (ring.next + 1).val := by
    rw [Fin.val_add]
    rfl
  have hslots : ring.slots.toArray.setIfInBounds ring.next c =
      (ring.slots.set ring.next c).toArray := by
    rw [Array.setIfInBounds, dif_pos hslot, Vector.toArray_set]
  rw [Buffer.checkedPush, Ring.buffer, store_of_lt hslot]
  simp only [ok_bind, word_of_lt hword, and_ringSize, hnext, hslots]
  rfl

theorem checkedCopy_eq {position k n : Nat} (hsize : ringSize < size)
    (hlast : position + k + n ≤ size) (ring : Ring) :
    ring.buffer.checkedCopy size position k n =
      .ok (ring.copy (Fin.ofNat _ (position + k)) n).buffer := by
  induction n generalizing k ring with
  | zero => rfl
  | succ n ih =>
    have hslot : (position + k) % ringSize < ring.buffer.slots.size := by
      rw [Ring.buffer, Vector.size_toArray]
      exact Nat.mod_lt _ (by decide)
    have hget : ring.buffer.slots.getD ((position + k) % ringSize) 0 =
        ring.slots.get (Fin.ofNat _ (position + k)) := by
      rw [Array.getD_eq_getD_getElem?, Array.getElem?_eq_getElem hslot]
      rfl
    have hnext :
        Fin.ofNat ringSize (position + k) + 1 = Fin.ofNat ringSize (position + (k + 1)) := by
      refine Fin.ext ?_
      rw [Fin.val_add]
      exact (Nat.mod_add_mod _ _ _).trans (Nat.add_mod_mod _ _ _)
    rw [Buffer.checkedCopy, word_of_lt (by omega)]
    simp only [ok_bind, and_ringSize, index_of_lt hslot, hget, checkedPush_eq hsize]
    rw [ih (by omega), Ring.copy, hnext]

theorem checkedGetBits_eq_of_le {n : Nat} (hcursor : r.cursor ≤ r.size)
    (hsize : r.size + 2 * ringSize < size) (hn : n ≤ positionBits) :
    checkedGetBits size r n = .ok ((r.getBits? n).map fun (v, r) => (v.toNat, r)) := by
  have hpow : 2 ^ n ≤ 2 ^ positionBits := Nat.pow_le_pow_right (by decide) hn
  have hring : 2 ^ positionBits = ringSize := rfl
  exact checkedGetBits_eq (Nat.le_trans hn (by decide)) hcursor (by omega)

theorem checkedLiteral?_eq (hcursor : r.cursor ≤ r.size) (hsize : r.size + 2 * ringSize < size)
    (ring : Ring) :
    checkedLiteral? size ring.buffer r =
      .ok ((r.getBits? 8).map fun (c, r) => ((ring.apply (.literal c.toUInt8)).buffer, r)) := by
  rw [checkedLiteral?, checkedGetBits_eq_of_le hcursor hsize (by decide), ok_bind]
  cases h : r.getBits? 8 with
  | none => rfl
  | some result =>
    obtain ⟨c, r₁⟩ := result
    obtain ⟨hc, -, -⟩ := bounds_of_getBits? h
    have hfits : fits 8 c.toNat = .ok ⟨c.toNat, hc⟩ := fits_of_lt hc
    have hring : ringSize < size := by omega
    simp only [Option.map_some, hfits, ok_bind, checkedPush_eq hring]
    rfl

theorem checkedReference?_eq (hcursor : r.cursor ≤ r.size)
    (hsize : r.size + 2 * ringSize < size) (ring : Ring) :
    checkedReference? size ring.buffer r =
      .ok ((r.getBits? positionBits).bind fun (position, r) =>
        (r.getBits? lengthBits).map fun (excess, r) =>
          ((ring.apply (.reference (Fin.ofNat _ position.toNat)
            (Fin.ofNat _ excess.toNat))).buffer, r)) := by
  rw [checkedReference?, checkedGetBits_eq_of_le hcursor hsize (Nat.le_refl _), ok_bind]
  cases h₁ : r.getBits? positionBits with
  | none => rfl
  | some result =>
    obtain ⟨position, r₁⟩ := result
    obtain ⟨hposition, hinput₁, hcursor₁⟩ := bounds_of_getBits? h₁
    have hsize₁ : r₁.size + 2 * ringSize < size := by rwa [Reader.size, hinput₁]
    have hlast : lengthBits ≤ positionBits := by decide
    simp only [Option.map_some, checkedGetBits_eq_of_le hcursor₁ hsize₁ hlast, ok_bind,
      Option.bind_some]
    cases h₂ : r₁.getBits? lengthBits with
    | none => rfl
    | some result =>
      obtain ⟨excess, r₂⟩ := result
      obtain ⟨hexcess, -, -⟩ := bounds_of_getBits? h₂
      have hring : ringSize < size := by omega
      have hposition' : position.toNat < ringSize := hposition
      have hlength : excess.toNat + minMatch < ringSize :=
        Nat.lt_of_lt_of_le (Nat.add_lt_add_right hexcess _) (by decide)
      have hcopy : ring.buffer.checkedCopy size position.toNat 0 (excess.toNat + minMatch) =
          .ok (ring.copy (Fin.ofNat _ position.toNat) (excess.toNat + minMatch)).buffer :=
        checkedCopy_eq hring (by omega) ring
      have htoken : (Fin.ofNat lengthCount excess.toNat).val = excess.toNat :=
        Nat.mod_eq_of_lt hexcess
      simp only [Option.map_some, word_of_lt (Nat.lt_trans hlength hring), ok_bind, hcopy]
      rw [Ring.apply, htoken, Nat.add_comm excess.toNat]
      rfl

/-- **No check fails**, and the step is that of the decompression. -/
theorem checkedApply?_eq (hcursor : r.cursor ≤ r.size) (hsize : r.size + 2 * ringSize < size)
    (ring : Ring) :
    checkedApply? size ring.buffer r =
      .ok ((Token.read? r).map fun (t, r) => ((ring.apply t).buffer, r)) := by
  rw [checkedApply?, checkedGetBits_eq_of_le hcursor hsize (by decide), ok_bind, Token.read?]
  cases h : r.getBits? 1 with
  | none => rfl
  | some result =>
    obtain ⟨flag, r₁⟩ := result
    obtain ⟨-, hinput₁, hcursor₁⟩ := bounds_of_getBits? h
    have hsize₁ : r₁.size + 2 * ringSize < size := by rwa [Reader.size, hinput₁]
    have hone : flag.toNat = 1 ↔ flag = 1 := by
      rw [← UInt64.toNat_inj]
      rfl
    simp only [Option.map_some, Option.bind_eq_bind, Option.bind_some]
    by_cases hflag : flag = 1
    · rw [if_pos (hone.2 hflag), if_pos hflag, checkedLiteral?_eq hcursor₁ hsize₁]
      cases r₁.getBits? 8 <;> rfl
    · rw [if_neg (mt hone.1 hflag), if_neg hflag, checkedReference?_eq hcursor₁ hsize₁]
      cases r₁.getBits? positionBits with
      | none => rfl
      | some result =>
        obtain ⟨position, r₂⟩ := result
        dsimp only [Option.bind_some]
        cases r₂.getBits? lengthBits <;> rfl

/-- A token that has been read leaves the reader inside the byte string. -/
theorem bounds_of_read? {t : Token} (h : Token.read? r = some (t, r')) :
    r'.input = r.input ∧ r'.cursor ≤ r'.size := by
  simp only [Token.read?, Option.bind_eq_bind, Option.bind_eq_some_iff] at h
  obtain ⟨⟨flag, r₁⟩, h₁, h⟩ := h
  obtain ⟨-, hinput₁, -⟩ := bounds_of_getBits? h₁
  split at h
  · obtain ⟨⟨byte, r₂⟩, h₂, h⟩ := Option.bind_eq_some_iff.1 h
    obtain ⟨-, hinput₂, hcursor₂⟩ := bounds_of_getBits? h₂
    cases h
    exact ⟨hinput₂.trans hinput₁, hcursor₂⟩
  · obtain ⟨⟨position, r₂⟩, h₂, h⟩ := Option.bind_eq_some_iff.1 h
    obtain ⟨⟨excess, r₃⟩, h₃, h⟩ := Option.bind_eq_some_iff.1 h
    obtain ⟨-, hinput₂, -⟩ := bounds_of_getBits? h₂
    obtain ⟨-, hinput₃, hcursor₃⟩ := bounds_of_getBits? h₃
    cases h
    exact ⟨hinput₃.trans (hinput₂.trans hinput₁), hcursor₃⟩

/-! ## Runs -/

/-- Appends what the tokens stand for that are still to read. -/
def checkedDecodeOnto (size : Nat) (b : Buffer) (r : Reader) : Checked Buffer :=
  match _h : checkedApply? size b r with
  | .ok none => .ok b
  | .ok (some (b, r)) => checkedDecodeOnto size b r
  | .error fault => .error fault
termination_by r.remaining
decreasing_by exact remaining_of_checkedApply? _h

/-- Nothing has been written. -/
def Buffer.start : Buffer where
  slots := .replicate ringSize blank
  next := startPosition
  out := #[]

/-- Decompresses a stream, up to the first token that is cut short. -/
def checkedDecode (size : Nat) (stream : Bytes) : Checked Bytes := do
  let _ ← word size (stream.length * 2)
  return (← checkedDecodeOnto size .start (.ofBytes stream)).out.toList

/-- The decompression of a stream comes to the buffer `b` and the reader `r`. -/
inductive Comes (size : Nat) (stream : Bytes) : Buffer → Reader → Prop
  | start : Comes size stream .start (.ofBytes stream)
  | step {b b' : Buffer} {r r' : Reader} : Comes size stream b r →
      checkedApply? size b r = .ok (some (b', r')) → Comes size stream b' r'

theorem buffer_start : Ring.start.buffer = .start :=
  rfl

/-- **All that a decompression comes to** is a ring and a reader inside the stream. -/
theorem Comes.exists_ring {stream : Bytes} (h : Comes size stream b r)
    (hsize : 8 * stream.length + 2 * ringSize < size) :
    (∃ ring : Ring, b = ring.buffer) ∧ r.input = stream.toArray ∧ r.cursor ≤ r.size := by
  induction h with
  | start => exact ⟨⟨.start, rfl⟩, rfl, Nat.zero_le _⟩
  | step _ hstep ih =>
    obtain ⟨⟨ring, rfl⟩, hinput, hcursor⟩ := ih
    rw [checkedApply?_eq hcursor (by rwa [Reader.size, hinput, List.size_toArray])] at hstep
    obtain ⟨⟨t, r₁⟩, hread, heq⟩ := Option.map_eq_some_iff.1 (Except.ok.inj hstep)
    obtain ⟨hinput', hcursor'⟩ := bounds_of_read? hread
    cases heq
    exact ⟨⟨ring.apply t, rfl⟩, hinput'.trans hinput, hcursor'⟩

theorem checkedDecodeOnto_eq (hcursor : r.cursor ≤ r.size) (hsize : r.size + 2 * ringSize < size)
    (ring : Ring) :
    checkedDecodeOnto size ring.buffer r =
      .ok ((tokensAfter r).foldl Ring.apply ring).buffer := by
  induction hk : r.remaining using Nat.strongRecOn generalizing r ring with
  | _ k ih =>
    have hstep := checkedApply?_eq hcursor hsize ring
    rw [checkedDecodeOnto]
    cases hread : Token.read? r with
    | none =>
      rw [hread] at hstep
      rw [tokensAfter_of_none hread]
      split <;> rename_i h <;> rw [hstep] at h <;> cases h
      rfl
    | some result =>
      obtain ⟨t, r'⟩ := result
      obtain ⟨hinput, hcursor'⟩ := bounds_of_read? hread
      have hless : r'.remaining < k := by
        have := Token.remaining_of_read? hread
        have := t.bits_pos
        omega
      rw [hread] at hstep
      rw [tokensAfter_of_some hread]
      split <;> rename_i h <;> rw [hstep] at h <;> cases h
      exact ih _ hless hcursor' (by rwa [Reader.size, hinput]) _ rfl

/-- **The decompression with checks is the decompression.** -/
theorem checkedDecode_eq {stream : Bytes} (hsize : 8 * stream.length + 2 * ringSize < size) :
    checkedDecode size stream = .ok (decode stream) := by
  have hreader : (Reader.ofBytes stream).size + 2 * ringSize < size := by
    rwa [Reader.size, Reader.ofBytes, List.size_toArray]
  rw [checkedDecode, word_of_lt (by omega), ok_bind, ← buffer_start,
    checkedDecodeOnto_eq (Nat.zero_le _) hreader]
  rfl

end OtaPack.Lzss
