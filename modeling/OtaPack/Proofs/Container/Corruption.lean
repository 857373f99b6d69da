/-
  What the header of a container tells about damage.

  * `DiffersWithin lo hi bs bs'`: two byte strings of one length that agree outside of a window;
  * `LengthIsOff`, `ChecksumIsOff`: a length field, and a checksum, that belong to other bytes;
  * `lengthIsOff_of_prefix`, `lengthIsOff_of_extension`, `lengthIsOff_of_differsWithin`,
    `checksumIsOff_of_field`, `checksumIsOff_of_burst`: each kind of damage is told by one of them;
  * `crc32_ne_of_magic`, `crc32_ne_of_flag`, `crc32_ne_of_supported`: the checksums of containers
    with one payload that differ in the magic word, in the flag, or in the supported board;
  * `corruption_shows`: all of it; `checksum_of_two_changes`: what it does not promise.
-/
import Mathlib.Data.List.Nodup
import Mathlib.Data.List.ProdSigma
import OtaPack.Proofs.Container.Layout
import OtaPack.Proofs.Crc32.Burst

namespace OtaPack

namespace Container

/-! ## Damage -/

/-- The byte strings have one length, and differ only at offsets from `lo` up to `hi`. -/
structure DiffersWithin (lo hi : Nat) (bs bs' : Bytes) : Prop where
  length_eq : bs'.length = bs.length
  within : ∀ i, bs'[i]? ≠ bs[i]? → lo ≤ i ∧ i < hi

/-- There is a length field, and it does not count the bytes after the checksum. -/
def LengthIsOff (c : Bytes) : Prop :=
  ∃ w, wordAt? c 0 = some w ∧ w.toNat ≠ c.length - 8

/-- There is a checksum, and it is not that of the bytes after it. -/
def ChecksumIsOff (c : Bytes) : Prop :=
  ∃ w, wordAt? c 4 = some w ∧ w ≠ crc32OfBits ((c.drop 8).flatMap Crc32.lowFirst)

section
variable {lo hi : Nat} {c c' : Bytes}

theorem DiffersWithin.take_eq (h : DiffersWithin lo hi c c') : c'.take lo = c.take lo := by
  refine List.ext_getElem? fun i => ?_
  by_cases hi : i < lo
  · rw [List.getElem?_take_of_lt hi, List.getElem?_take_of_lt hi]
    refine Decidable.byContradiction fun hne => ?_
    exact absurd (h.within i hne).1 (Nat.not_le.2 hi)
  · rw [List.getElem?_take_eq_none (Nat.not_lt.1 hi), List.getElem?_take_eq_none (Nat.not_lt.1 hi)]

theorem DiffersWithin.drop_eq (h : DiffersWithin lo hi c c') : c'.drop hi = c.drop hi := by
  refine List.ext_getElem? fun i => ?_
  rw [List.getElem?_drop, List.getElem?_drop]
  refine Decidable.byContradiction fun hne => ?_
  exact absurd (h.within _ hne).2 (Nat.not_lt.2 (Nat.le_add_right hi i))

theorem differsWithin_iff : DiffersWithin lo hi c c' ↔
    c'.length = c.length ∧ c'.take lo = c.take lo ∧ c'.drop hi = c.drop hi := by
  constructor
  · intro h
    exact ⟨h.length_eq, h.take_eq, h.drop_eq⟩
  · rintro ⟨hlen, htake, hdrop⟩
    refine ⟨hlen, fun i hne => ⟨?_, ?_⟩⟩
    · refine Nat.not_lt.1 fun hi => hne ?_
      rw [← List.getElem?_take_of_lt hi, htake, List.getElem?_take_of_lt hi]
    · refine Nat.not_le.1 fun hle => hne ?_
      obtain ⟨k, rfl⟩ := Nat.exists_eq_add_of_le hle
      rw [← List.getElem?_drop, hdrop, List.getElem?_drop]

/-- Byte strings that differ at all differ in the window. -/
theorem DiffersWithin.ne_of_ne (h : DiffersWithin lo hi c c') (hne : c' ≠ c) (hle : lo ≤ hi) :
    (c'.drop lo).take (hi - lo) ≠ (c.drop lo).take (hi - lo) := by
  intro hwindow
  have hparts (bs : Bytes) :
      bs = bs.take lo ++ ((bs.drop lo).take (hi - lo) ++ bs.drop hi) := by
    have hdrop : bs.drop hi = (bs.drop lo).drop (hi - lo) := by
      rw [List.drop_drop, Nat.add_sub_cancel' hle]
    rw [hdrop, List.take_append_drop, List.take_append_drop]
  rw [hparts c', hparts c, h.take_eq, h.drop_eq, hwindow] at hne
  exact hne rfl

theorem wordAt?_of_take_eq {i n : Nat} (hn : i + 4 ≤ n) (h : c'.take n = c.take n) :
    wordAt? c' i = wordAt? c i := by
  have hword (bs : Bytes) : (bs.drop i).take 4 = ((bs.take n).drop i).take 4 := by
    rw [List.drop_take, List.take_take, Nat.min_eq_left (by omega)]
  rw [wordAt?, wordAt?, hword c', hword c, h]

end

/-! ## The length field -/

section
variable {magic : UInt32} {compressed : Bool} {payload c c' : Bytes}

theorem Layout.exists_lengthField (h : Layout magic compressed payload c) :
    ∃ w, wordAt? c 0 = some w ∧ w.toNat = c.length - 8 := by
  have hfield := h.lengthField
  rw [Option.map_eq_some_iff] at hfield
  exact hfield

theorem Layout.length_ge (h : Layout magic compressed payload c) : 20 ≤ c.length := by
  rw [h.length_eq]
  exact Nat.le_add_right _ _

/-- The length field of a container tells the length of no other byte string with that field. -/
theorem lengthIsOff_of_take_eq (h : Layout magic compressed payload c) (hlen : 20 ≤ c'.length)
    (hne : c'.length ≠ c.length) (htake : c'.take 4 = c.take 4) : LengthIsOff c' := by
  obtain ⟨w, hw, hcount⟩ := h.exists_lengthField
  have hge : 20 ≤ c.length := h.length_ge
  refine ⟨w, ?_, ?_⟩
  · rw [← hw]
    exact wordAt?_of_take_eq (Nat.le_refl _) htake
  · omega

theorem lengthIsOff_of_prefix (h : Layout magic compressed payload c) (hlen : 20 ≤ c'.length)
    (hne : c' ≠ c) (hstart : c' <+: c) : LengthIsOff c' := by
  obtain ⟨rest, rfl⟩ := hstart
  refine lengthIsOff_of_take_eq h hlen ?_ ?_
  · intro hsame
    refine hne (List.prefix_append _ _ |>.eq_of_length hsame)
  · exact (List.take_append_of_le_length (by omega)).symm

theorem lengthIsOff_of_extension (h : Layout magic compressed payload c) (hne : c' ≠ c)
    (hstart : c <+: c') : LengthIsOff c' := by
  have hge : 20 ≤ c.length := h.length_ge
  obtain ⟨rest, rfl⟩ := hstart
  refine lengthIsOff_of_take_eq h ?_ ?_ ?_
  · rw [List.length_append]
    omega
  · intro hsame
    exact hne (List.prefix_append _ _ |>.eq_of_length hsame.symm).symm
  · exact List.take_append_of_le_length (by omega)

theorem exists_wordAt? {i : Nat} (h : i + 4 ≤ c.length) : ∃ w, wordAt? c i = some w := by
  have hfour : ((c.drop i).take 4).length = 4 := by
    rw [List.length_take, List.length_drop]
    omega
  obtain ⟨a, b, d, e, hbytes⟩ := List.length_eq_four.1 hfour
  rw [wordAt?, hbytes]
  exact ⟨_, rfl⟩

/-- Another word stands in a window of four bytes that has been changed. -/
theorem wordAt?_ne_of_differsWithin {lo : Nat} {w : UInt32}
    (h : DiffersWithin lo (lo + 4) c c') (hne : c' ≠ c) (hw : wordAt? c lo = some w) :
    wordAt? c' lo ≠ some w := by
  intro hw'
  have hwindow := h.ne_of_ne hne (Nat.le_add_right _ _)
  rw [Nat.add_sub_cancel_left, wordAt?_eq_some.1 hw, wordAt?_eq_some.1 hw'] at hwindow
  exact hwindow rfl

theorem lengthIsOff_of_differsWithin (h : Layout magic compressed payload c) (hne : c' ≠ c)
    (hwindow : DiffersWithin 0 4 c c') : LengthIsOff c' := by
  have hge : 20 ≤ c.length := h.length_ge
  obtain ⟨w, hw, hcount⟩ := h.exists_lengthField
  obtain ⟨w', hw'⟩ := exists_wordAt? (c := c') (i := 0) (by rw [hwindow.length_eq]; omega)
  refine ⟨w', hw', ?_⟩
  intro hsame
  have hword : w' = w := by
    rw [← UInt32.toNat_inj, hsame, hcount, hwindow.length_eq]
  exact wordAt?_ne_of_differsWithin hwindow hne hw (hword ▸ hw')

/-! ## The checksum -/

theorem checksumIsOff_of_field (h : Layout magic compressed payload c) (hne : c' ≠ c)
    (hwindow : DiffersWithin 4 8 c c') : ChecksumIsOff c' := by
  have hge : 20 ≤ c.length := h.length_ge
  obtain ⟨w', hw'⟩ := exists_wordAt? (c := c') (i := 4) (by rw [hwindow.length_eq]; omega)
  refine ⟨w', hw', ?_⟩
  rintro rfl
  rw [hwindow.drop_eq] at hw'
  exact wordAt?_ne_of_differsWithin hwindow hne h.crcField hw'

/-- Bytes that agree outside of four in a row have different checksums. -/
theorem crc32_ne_of_differsWithin {lo : Nat} (h8 : 8 ≤ lo) (hne : c' ≠ c)
    (hwindow : DiffersWithin lo (lo + 4) c c') : crc32 (c'.drop 8) ≠ crc32 (c.drop 8) := by
  intro hcrc
  have hparts (bs : Bytes) : bs.drop 8 =
      (bs.take lo).drop 8 ++ (bs.drop lo).take 4 ++ bs.drop (lo + 4) := by
    have hfront : (bs.take lo).drop 8 ++ bs.drop lo = bs.drop 8 := by
      have hback : bs.drop lo = (bs.drop 8).drop (lo - 8) := by
        rw [List.drop_drop, Nat.add_sub_cancel' h8]
      rw [List.drop_take, hback, List.take_append_drop]
    rw [List.append_assoc, ← List.drop_drop, List.take_append_drop, hfront]
  rw [hparts c', hparts c, hwindow.take_eq, hwindow.drop_eq] at hcrc
  have hbytes : (c'.drop lo).take 4 = (c.drop lo).take 4 := by
    refine crc32_burst ?_ (List.length_take_le _ _) hcrc
    simp only [List.length_take, List.length_drop, hwindow.length_eq]
  refine hwindow.ne_of_ne hne (Nat.le_add_right _ _) ?_
  rw [Nat.add_sub_cancel_left, hbytes]

theorem checksumIsOff_of_burst {lo : Nat} (h : Layout magic compressed payload c) (h8 : 8 ≤ lo)
    (hne : c' ≠ c) (hwindow : DiffersWithin lo (lo + 4) c c') : ChecksumIsOff c' := by
  have hfield : wordAt? c' 4 = wordAt? c 4 := by
    refine wordAt?_of_take_eq (n := 8) (by omega) ?_
    have htake := congrArg (List.take 8) hwindow.take_eq
    rwa [List.take_take, List.take_take, Nat.min_eq_left h8] at htake
  refine ⟨crc32 (c.drop 8), ?_, ?_⟩
  · rw [hfield, h.crcField, crc32_eq_crc32OfBits]
  · rw [← crc32_eq_crc32OfBits]
    exact (crc32_ne_of_differsWithin h8 hne hwindow).symm

end

/-! ## Containers with one payload -/

theorem Layout.body_eq {magic : UInt32} {compressed : Bool} {payload c : Bytes}
    (h : Layout magic compressed payload c) :
    c.drop 8 = littleEndian magic ++ ((Version.mk compressed).toBytes ++ payload) := by
  have hmagic : (c.drop 8).take 4 = littleEndian magic := wordAt?_eq_some.1 h.magicField
  rw [toBytes_version, ← h.version, ← h.payload_eq, ← hmagic,
    show c.drop 20 = (c.drop 12).drop 8 by rw [List.drop_drop], List.take_append_drop,
    show c.drop 12 = (c.drop 8).drop 4 by rw [List.drop_drop], List.take_append_drop]

/-- No two supported boards leave the register alike, with or without the flag. -/
theorem nodup_registers :
    ((Board.all.product [false, true]).map fun e =>
      (e.1.magicBytes ++ (Version.mk e.2).toBytes).foldl Crc32.feed
        Crc32.start.register).Nodup := by
  decide +kernel

section
variable {board board' : Board} {compressed compressed' : Bool}

theorem crc32_ne_of_magic (compressed : Bool) (payload : Bytes)
    (h : board'.magic ≠ board.magic) :
    crc32 (littleEndian board'.magic ++ ((Version.mk compressed).toBytes ++ payload)) ≠
      crc32 (littleEndian board.magic ++ ((Version.mk compressed).toBytes ++ payload)) := by
  intro hcrc
  have hbytes : littleEndian board'.magic = littleEndian board.magic :=
    @crc32_burst [] _ _ _ rfl (Nat.le_refl _) hcrc
  have hself (w : UInt32) : wordAt? (littleEndian w) 0 = some w := wordAt?_eq_some.2 rfl
  have hword : some board'.magic = some board.magic := by
    rw [← hself, hbytes, hself]
  exact h (Option.some.inj hword)

theorem crc32_ne_of_flag (magic : UInt32) (payload : Bytes) (h : compressed' ≠ compressed) :
    crc32 (littleEndian magic ++ ((Version.mk compressed').toBytes ++ payload)) ≠
      crc32 (littleEndian magic ++ ((Version.mk compressed).toBytes ++ payload)) := by
  intro hcrc
  have hsplit (v : Version) : littleEndian magic ++ (v.toBytes ++ payload) =
      littleEndian magic ++ List.replicate 7 0 ++ [v.lastByte] ++ payload := by
    simp only [Version.toBytes, List.append_assoc, Version.size]
  rw [hsplit, hsplit] at hcrc
  have hbytes : [(Version.mk compressed').lastByte] = [(Version.mk compressed).lastByte] :=
    crc32_burst rfl (Nat.le_add_left 1 3) hcrc
  have hversion := congrArg Version.ofLastByte (List.singleton_inj.1 hbytes)
  rw [Version.ofLastByte_lastByte, Version.ofLastByte_lastByte] at hversion
  exact h (congrArg Version.compressed hversion)

theorem crc32_ne_of_supported (payload : Bytes) (hmem : board ∈ Board.all)
    (hmem' : board' ∈ Board.all) (h : board' ≠ board) :
    crc32 (littleEndian board'.magic ++ ((Version.mk compressed').toBytes ++ payload)) ≠
      crc32 (littleEndian board.magic ++ ((Version.mk compressed).toBytes ++ payload)) := by
  intro hcrc
  simp only [← List.append_assoc, crc32, Crc32.update_append] at hcrc
  have hregister := Crc32.foldl_feed_injective payload ((UInt32.xor_left_inj _).1 hcrc)
  have hpair : (board', compressed') = (board, compressed) := by
    refine List.inj_on_of_nodup_map nodup_registers ?_ ?_ hregister
    · exact List.mem_product.2 ⟨hmem', by cases compressed' <;> decide⟩
    · exact List.mem_product.2 ⟨hmem, by cases compressed <;> decide⟩
  exact h (congrArg Prod.fst hpair)

end

/-! ## All kinds of damage -/

/-- **Corruption.**  The fields of a container hold.  A container that is cut off behind its header
    or goes on for too long, or whose length field has been changed, shows it by its length field;
    one with a changed checksum, or with up to four changed bytes in a row behind it, shows it by
    its checksum.  Containers with one payload have different checksums if only their magic words
    differ, or only their marks of a compressed payload; for two supported boards the marks do not
    matter. -/
theorem corruption_shows {board : Board} {payload c : Bytes} {compressed : Bool}
    (h : (Packing.encode board payload compressed).value = .ok c) :
    (¬ LengthIsOff c ∧ ¬ ChecksumIsOff c) ∧
    (∀ c', c' ≠ c → (20 ≤ c'.length ∧ c' <+: c) ∨ c <+: c' → LengthIsOff c') ∧
    (∀ c', c' ≠ c → DiffersWithin 0 4 c c' → LengthIsOff c') ∧
    (∀ c', c' ≠ c →
      (DiffersWithin 4 8 c c' ∨ ∃ lo, 8 ≤ lo ∧ DiffersWithin lo (lo + 4) c c') →
        ChecksumIsOff c') ∧
    ∀ (board' : Board) (compressed' : Bool) (c' : Bytes),
      (Packing.encode board' payload compressed').value = .ok c' →
        (board'.magic ≠ board.magic ∧ compressed' = compressed) ∨
        (board'.magic = board.magic ∧ compressed' ≠ compressed) ∨
        (board ∈ Board.all ∧ board' ∈ Board.all ∧ board' ≠ board) →
          wordAt? c' 4 ≠ wordAt? c 4 := by
  simp only [Packing.value_encode] at h ⊢
  have hlayout := layout_of_encode h
  refine ⟨⟨?_, ?_⟩, ?_, ?_, ?_, ?_⟩
  · rintro ⟨w, hw, hoff⟩
    obtain ⟨w', hw', hcount⟩ := hlayout.exists_lengthField
    rw [Option.some.inj (hw.symm.trans hw')] at hoff
    exact hoff hcount
  · rintro ⟨w, hw, hoff⟩
    exact hoff (Option.some.inj (hw.symm.trans hlayout.crcField))
  · rintro c' hne (⟨hlen, hstart⟩ | hstart)
    · exact lengthIsOff_of_prefix hlayout hlen hne hstart
    · exact lengthIsOff_of_extension hlayout hne hstart
  · intro c' hne hwindow
    exact lengthIsOff_of_differsWithin hlayout hne hwindow
  · rintro c' hne (hwindow | ⟨lo, h8, hwindow⟩)
    · exact checksumIsOff_of_field hlayout hne hwindow
    · exact checksumIsOff_of_burst hlayout h8 hne hwindow
  · intro board' compressed' c' h' hdiffer
    have hlayout' := layout_of_encode h'
    rw [hlayout.crcField, hlayout'.crcField, ← crc32_eq_crc32OfBits, ← crc32_eq_crc32OfBits,
      hlayout.body_eq, hlayout'.body_eq]
    refine mt Option.some.inj ?_
    rcases hdiffer with ⟨hmagic, rfl⟩ | ⟨hmagic, hflag⟩ | ⟨hmem, hmem', hboard⟩
    · exact crc32_ne_of_magic _ _ hmagic
    · rw [hmagic]
      exact crc32_ne_of_flag _ _ hflag
    · exact crc32_ne_of_supported _ hmem hmem' hboard

/-- A container that lost its payload, one with another length field, one with a changed flag and a
    changed byte behind it, and one for another board. -/
theorem corruption_shows_esp32 :
    LengthIsOff [0x10, 0, 0, 0, 0x59, 0xB6, 0x42, 0xD6, 0x33, 0x50, 0x53, 0x45,
      0, 0, 0, 0, 0, 0, 0, 0] ∧
    LengthIsOff [0x10, 1, 0, 0, 0x59, 0xB6, 0x42, 0xD6, 0x33, 0x50, 0x53, 0x45,
      0, 0, 0, 0, 0, 0, 0, 0, 1, 2, 3, 4] ∧
    ChecksumIsOff [0x10, 0, 0, 0, 0x59, 0xB6, 0x42, 0xD6, 0x33, 0x50, 0x53, 0x45,
      0, 0, 0, 0, 0, 0, 0, 0x40, 9, 2, 3, 4] ∧
    ∀ c', (Packing.encode ⟨"GIGA", 0x23410266⟩ [1, 2, 3, 4] true).value = .ok c' →
      wordAt? c' 4 ≠ some 0xD642B659 := by
  obtain ⟨-, hcut, hlength, hwindow, hother⟩ := corruption_shows value_encode_esp32
  refine ⟨?_, ?_, ?_, ?_⟩
  · exact hcut _ (by decide) (.inl ⟨by decide, by decide⟩)
  · exact hlength _ (by decide) (differsWithin_iff.2 (by decide))
  · exact hwindow _ (by decide) (.inr ⟨19, by decide, differsWithin_iff.2 (by decide)⟩)
  · intro c' hc'
    exact hother _ _ c' hc' (.inr (.inr (by decide)))

/-- **Two changes** may undo each other: for a magic word that no supported board has, the mark of a
    compressed payload, which the other container does not have, brings the checksum back. -/
theorem checksum_of_two_changes :
    (Packing.encode ⟨"ESP32", 0x45535033⟩ [1, 2, 3, 4] false).value =
      .ok [0x10, 0, 0, 0, 0x59, 0xB6, 0x42, 0xD6, 0x33, 0x50, 0x53, 0x45,
        0, 0, 0, 0, 0, 0, 0, 0, 1, 2, 3, 4] ∧
    (Packing.encode ⟨"OTHER", 0xBFA60916⟩ [1, 2, 3, 4] true).value =
      .ok [0x10, 0, 0, 0, 0x59, 0xB6, 0x42, 0xD6, 0x16, 0x09, 0xA6, 0xBF,
        0, 0, 0, 0, 0, 0, 0, 0x40, 1, 2, 3, 4] ∧
    ¬ ∀ (board board' : Board) (payload c c' : Bytes) (compressed compressed' : Bool),
      (Packing.encode board payload compressed).value = .ok c →
      (Packing.encode board' payload compressed').value = .ok c' →
        board'.magic ≠ board.magic → wordAt? c' 4 ≠ wordAt? c 4 := by
  have hother : (Packing.encode ⟨"OTHER", 0xBFA60916⟩ [1, 2, 3, 4] true).value =
      .ok [0x10, 0, 0, 0, 0x59, 0xB6, 0x42, 0xD6, 0x16, 0x09, 0xA6, 0xBF,
        0, 0, 0, 0, 0, 0, 0, 0x40, 1, 2, 3, 4] := by
    rw [Packing.value_encode]
    exact encode_eq_ok.2 ⟨_, Header.build_eq_ok.2 ⟨by decide, rfl⟩, by decide +kernel⟩
  refine ⟨value_encode_esp32, hother, fun hne => ?_⟩
  exact hne _ _ _ _ _ _ _ value_encode_esp32 hother (by decide) (by decide)

end Container

end OtaPack
