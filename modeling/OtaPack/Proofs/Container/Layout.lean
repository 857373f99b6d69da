/-
  Where everything stands in a container, and that nothing of it is lost.

  * `wordAt? bs i`: the little-endian word at the offset `i`; `wordAt?_eq_some`: where it is found;
  * `Layout magic compressed payload c`: the fields that are found in `c` by slicing it;
  * `layout_of_encode`: what is built has this layout;
  * `encode_framing`: when a container is built, what stands in it, and that different contents
    never share one.
-/
import Mathlib.Algebra.Group.Nat.Defs
import OtaPack.Packing
import OtaPack.Proofs.Crc32.Bitwise

namespace OtaPack

/-! ## Words in a byte string -/

/-- The word whose four bytes stand from the offset `i` on, the lowest byte first. -/
def wordAt? (bs : Bytes) (i : Nat) : Option UInt32 :=
  match (bs.drop i).take 4 with
  | [a, b, c, d] => some (ofLittleEndian a b c d)
  | _ => none

theorem ofLittleEndian_littleEndian (w : UInt32) :
    ofLittleEndian w.toUInt8 (w >>> 8).toUInt8 (w >>> 16).toUInt8 (w >>> 24).toUInt8 = w := by
  rw [← UInt32.toNat_inj]
  refine Nat.eq_of_testBit_eq fun i => ?_
  have hhigh : 32 ≤ i → w.toNat.testBit i = false := fun hi =>
    Nat.testBit_lt_two_pow (Nat.lt_of_lt_of_le w.toNat_lt (Nat.pow_le_pow_right (by decide) hi))
  simp only [ofLittleEndian, UInt32.toNat_or, UInt32.toNat_shiftLeft, UInt8.toNat_toUInt32,
    UInt32.toNat_toUInt8, UInt32.toNat_shiftRight, Nat.testBit_or, Nat.testBit_mod_two_pow,
    Nat.testBit_shiftLeft, Nat.testBit_shiftRight]
  grind

theorem littleEndian_ofLittleEndian (a b c d : UInt8) :
    littleEndian (ofLittleEndian a b c d) = [a, b, c, d] := by
  have hhigh (x : UInt8) (i : Nat) : 8 ≤ i → x.toNat.testBit i = false := fun hi =>
    Nat.testBit_lt_two_pow (Nat.lt_of_lt_of_le x.toNat_lt (Nat.pow_le_pow_right (by decide) hi))
  have hbyte {x y : UInt8} (h : ∀ i, x.toNat.testBit i = y.toNat.testBit i) : x = y :=
    UInt8.toNat_inj.1 (Nat.eq_of_testBit_eq h)
  simp only [littleEndian, List.cons.injEq, and_true]
  refine ⟨?_, ?_, ?_, ?_⟩ <;> refine hbyte fun i => ?_ <;>
    simp only [ofLittleEndian, UInt32.toNat_or, UInt32.toNat_shiftLeft, UInt8.toNat_toUInt32,
      UInt32.toNat_toUInt8, UInt32.toNat_shiftRight, Nat.testBit_or, Nat.testBit_mod_two_pow,
      Nat.testBit_shiftLeft, Nat.testBit_shiftRight] <;>
    grind

/-- A word is found exactly where its four bytes stand. -/
theorem wordAt?_eq_some {bs : Bytes} {i : Nat} {w : UInt32} :
    wordAt? bs i = some w ↔ (bs.drop i).take 4 = littleEndian w := by
  constructor
  · intro h
    rw [wordAt?] at h
    split at h
    · rename_i a b c d hbytes
      rw [hbytes, ← Option.some.inj h, littleEndian_ofLittleEndian]
    · cases h
  · intro h
    rw [wordAt?, h, littleEndian]
    exact congrArg some (ofLittleEndian_littleEndian w)

theorem wordAt?_of_drop {bs rest : Bytes} {i : Nat} {w : UInt32}
    (h : bs.drop i = littleEndian w ++ rest) : wordAt? bs i = some w := by
  rw [wordAt?, h, List.take_left' (length_littleEndian w), littleEndian]
  exact congrArg some (ofLittleEndian_littleEndian w)

namespace Container

/-! ## The layout -/

/-- The fields of a container, each found at its own offset. -/
structure Layout (magic : UInt32) (compressed : Bool) (payload c : Bytes) : Prop where
  length_eq : c.length = 20 + payload.length
  lengthField : (wordAt? c 0).map UInt32.toNat = some (c.length - 8)
  crcField : wordAt? c 4 = some (crc32OfBits ((c.drop 8).flatMap Crc32.lowFirst))
  magicField : wordAt? c 8 = some magic
  version : (c.drop 12).take 8 = [0, 0, 0, 0, 0, 0, 0, if compressed then 0x40 else 0]
  payload_eq : c.drop 20 = payload

/-- The fields of a container tell all that went into it. -/
theorem Layout.unique {magic magic' : UInt32} {compressed compressed' : Bool}
    {payload payload' c : Bytes} (h : Layout magic compressed payload c)
    (h' : Layout magic' compressed' payload' c) :
    magic = magic' ∧ compressed = compressed' ∧ payload = payload' := by
  have hmagic : some magic = some magic' := by rw [← h.magicField, h'.magicField]
  have hversion := h.version.symm.trans h'.version
  refine ⟨Option.some.inj hmagic, ?_, by rw [← h.payload_eq, h'.payload_eq]⟩
  cases compressed <;> cases compressed' <;> first | rfl | exact absurd hversion (by decide)

theorem toBytes_version (compressed : Bool) :
    (Version.mk compressed).toBytes = [0, 0, 0, 0, 0, 0, 0, if compressed then 0x40 else 0] := by
  cases compressed <;> rfl

theorem toBytes_append (h : Header) (payload : Bytes) :
    h.toBytes ++ payload = littleEndian h.length ++ (littleEndian h.crc32 ++
      (littleEndian h.magic ++ (h.version.toBytes ++ payload))) := by
  simp only [Header.toBytes, List.append_assoc]

/-- **What is built has the layout.** -/
theorem layout_of_encode {board : Board} {payload c : Bytes} {compressed : Bool}
    (h : encode board payload compressed = .ok c) : Layout board.magic compressed payload c := by
  have hlen : c.length = 20 + payload.length := length_of_encode h
  obtain ⟨header, hbuild, hc⟩ := encode_eq_ok.1 h
  obtain ⟨hlt, rfl⟩ := Header.build_eq_ok.1 hbuild
  rw [toBytes_append, toBytes_version] at hc
  have hlt' : 12 + payload.length < 2 ^ 32 := hlt
  have hbody : c.drop 8 = board.magicBytes ++ (Version.mk compressed).toBytes ++ payload := by
    rw [hc, toBytes_version, List.append_assoc]
    rfl
  constructor
  · exact hlen
  · rw [wordAt?_of_drop (by rw [hc]; rfl), Option.map_some, hlen]
    show some (UInt32.ofNat (12 + payload.length)).toNat = _
    rw [UInt32.toNat_ofNat_of_lt' hlt']
    congr 1
    omega
  · rw [← crc32_eq_crc32OfBits, hbody]
    exact wordAt?_of_drop (by rw [hc]; rfl)
  · exact wordAt?_of_drop (by rw [hc]; rfl)
  · rw [hc]; rfl
  · rw [hc]; rfl

theorem encode_of_le {board : Board} {payload : Bytes} {compressed : Bool}
    (h : payload.length + 12 ≤ 2 ^ 32 - 1) : ∃ c, encode board payload compressed = .ok c := by
  have hlt : Header.bodyStartSize + payload.length < 2 ^ 32 := by
    simp only [Header.bodyStartSize, Version.size]
    omega
  exact ⟨_, encode_eq_ok.2 ⟨_, Header.build_eq_ok.2 ⟨hlt, rfl⟩, rfl⟩⟩

theorem encode_of_not_le {board : Board} {payload : Bytes} {compressed : Bool}
    (h : ¬ payload.length + 12 ≤ 2 ^ 32 - 1) :
    encode board payload compressed = .error (.payloadTooLarge payload.length) := by
  have hlt : ¬ Header.bodyStartSize + payload.length < 2 ^ 32 := by
    simp only [Header.bodyStartSize, Version.size]
    omega
  rw [encode, Header.build, Header.lengthField_of_not_lt hlt]
  rfl

/-- **Framing.**  A container is built exactly when its length fits under 32 bits, and a payload
    that is too long is told with its length.  All fields of a container are found in it, so
    different contents are never framed alike. -/
theorem encode_framing (board : Board) (payload : Bytes) (compressed : Bool) :
    ((∃ c, (Packing.encode board payload compressed).value = .ok c) ↔
      payload.length + 12 ≤ 2 ^ 32 - 1) ∧
    (¬ payload.length + 12 ≤ 2 ^ 32 - 1 →
      (Packing.encode board payload compressed).value =
        .error (.payloadTooLarge payload.length)) ∧
    ∀ c, (Packing.encode board payload compressed).value = .ok c →
      Layout board.magic compressed payload c ∧
      ∀ (board' : Board) (payload' : Bytes) (compressed' : Bool),
        (Packing.encode board' payload' compressed').value = .ok c →
          board.magic = board'.magic ∧ compressed = compressed' ∧ payload = payload' := by
  simp only [Packing.value_encode]
  refine ⟨⟨?_, encode_of_le⟩, encode_of_not_le, ?_⟩
  · rintro ⟨c, hc⟩
    refine Decidable.byContradiction ?_
    intro hlong
    rw [encode_of_not_le hlong] at hc
    cases hc
  · intro c hc
    refine ⟨layout_of_encode hc, ?_⟩
    intro board' payload' compressed' hc'
    exact (layout_of_encode hc).unique (layout_of_encode hc')

/-- The container with four bytes for one board. -/
theorem value_encode_esp32 : (Packing.encode ⟨"ESP32", 0x45535033⟩ [1, 2, 3, 4] false).value =
    .ok [0x10, 0, 0, 0, 0x59, 0xB6, 0x42, 0xD6, 0x33, 0x50, 0x53, 0x45, 0, 0, 0, 0, 0, 0, 0, 0,
      1, 2, 3, 4] := by
  rw [Packing.value_encode]
  exact encode_eq_ok.2 ⟨_, Header.build_eq_ok.2 ⟨by decide, rfl⟩, by decide +kernel⟩

theorem encode_framing_esp32 :
    Layout 0x45535033 false [1, 2, 3, 4]
      [0x10, 0, 0, 0, 0x59, 0xB6, 0x42, 0xD6, 0x33, 0x50, 0x53, 0x45, 0, 0, 0, 0, 0, 0, 0, 0,
        1, 2, 3, 4] ∧
    (Packing.encode ⟨"ESP32", 0x45535033⟩ (List.replicate (2 ^ 32) 0) false).value =
      .error (.payloadTooLarge (2 ^ 32)) := by
  have hlarge := (encode_framing ⟨"ESP32", 0x45535033⟩ (List.replicate (2 ^ 32) 0) false).2.1
    (by rw [List.length_replicate]; decide)
  rw [List.length_replicate] at hlarge
  exact ⟨((encode_framing _ _ _).2.2 _ value_encode_esp32).1, hlarge⟩

end Container

end OtaPack
