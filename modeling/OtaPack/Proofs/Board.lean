/-
  Boards are told by their names, and the case of ASCII letters does not count.

  * `SameLetter c d`: the same character, or the capital and the small form of a letter of ASCII;
    `sameLetters_iff`: texts agree if their characters do, one by one;
  * `nodup_foldCase_names`: no two boards have names that agree;
  * `find?_eq_some_iff`: so a board is found under all names that agree with its own, and under no
    others; `filter_of_find?`: it is the only one that could be found;
  * `find?_name`: it is found again under its own name;
  * `SameLetters.find?_eq`: names that agree find the same; `encodeNamed_of_sameLetters`: and so
    they make the same containers.
-/
import Mathlib.Data.List.Forall2
import Mathlib.Data.List.Nodup
import OtaPack.Container.Basic

namespace OtaPack

/-! ## Letters -/

namespace Text

/-- A capital of ASCII and its small form. -/
structure IsCapitalOf (capital small : Char) : Prop where
  le : 'A' ≤ capital
  ge : capital ≤ 'Z'
  small_eq : small.toNat = capital.toNat + 32

/-- Two characters are the same up to the case of a letter of ASCII. -/
def SameLetter (c d : Char) : Prop :=
  c = d ∨ IsCapitalOf c d ∨ IsCapitalOf d c

theorem isCapitalOf_iff {c d : Char} :
    IsCapitalOf c d ↔ 65 ≤ c.toNat ∧ c.toNat ≤ 90 ∧ d.toNat = c.toNat + 32 :=
  ⟨fun h => ⟨h.le, h.ge, h.small_eq⟩, fun h => ⟨h.1, h.2.1, h.2.2⟩⟩

/-- A capital is made small, and every other character is kept. -/
theorem toNat_toLower (c : Char) :
    c.toLower.toNat = if 65 ≤ c.toNat ∧ c.toNat ≤ 90 then c.toNat + 32 else c.toNat := by
  unfold Char.toLower
  split
  · rename_i h
    have hcapital : 65 ≤ c.toNat ∧ c.toNat ≤ 90 := h
    rw [if_pos hcapital]
    show (c.val + 32).toNat = c.toNat + 32
    rw [UInt32.toNat_add]
    show (c.toNat + 32) % 4294967296 = c.toNat + 32
    omega
  · rename_i h
    exact (if_neg h).symm

theorem sameLetter_iff {c d : Char} : SameLetter c d ↔ c.toLower = d.toLower := by
  rw [SameLetter, isCapitalOf_iff, isCapitalOf_iff, ← Char.toNat_inj, ← Char.toNat_inj,
    toNat_toLower, toNat_toLower]
  split_ifs <;> omega

theorem sameLetters_iff {s t : String} :
    SameLetters s t ↔ List.Forall₂ SameLetter s.toList t.toList := by
  have hletter : SameLetter = fun c d => c.toLower = d.toLower := by
    funext c d
    exact propext sameLetter_iff
  rw [SameLetters, foldCase, foldCase, ← List.forall₂_eq_eq_eq, List.forall₂_map_left_iff,
    List.forall₂_map_right_iff, hletter]

end Text

open Text

/-! ## Boards -/

namespace Board

variable {s t : String} {b : Board}

theorem nodup_foldCase_names : (all.map fun b => foldCase b.name).Nodup := by
  decide

/-- A name is that of one board at most. -/
theorem eq_of_sameLetters {b' : Board} (hb : b ∈ all) (hb' : b' ∈ all)
    (h : SameLetters s b.name) (h' : SameLetters s b'.name) : b = b' :=
  List.inj_on_of_nodup_map nodup_foldCase_names hb hb' (h.symm.trans h')

/-- **A board is found** under the names that agree with its own, and under no others. -/
theorem find?_eq_some_iff : find? s = some b ↔ b ∈ all ∧ SameLetters s b.name := by
  constructor
  · exact find?_eq_some
  · rintro ⟨hb, hs⟩
    cases hfound : find? s with
    | none => exact absurd hs (find?_eq_none.1 hfound b hb)
    | some b' =>
      obtain ⟨hb', hs'⟩ := find?_eq_some hfound
      rw [eq_of_sameLetters hb' hb hs' hs]

/-- The Kelvin sign is no letter of ASCII, and blanks count. -/
example : find? "mkr_wifi_1010" = some ⟨"MKR_WIFI_1010", 0x23418054⟩ ∧
    find? "m\u212Ar_wifi_1010" = none ∧ find? " mkr_wifi_1010" = none := by
  decide

/-- What is found is the only one with the name, so the order of the boards does not count. -/
theorem filter_of_find? (h : find? s = some b) :
    all.filter (fun b => SameLetters s b.name) = [b] := by
  obtain ⟨hb, hs⟩ := find?_eq_some h
  have hnodup : all.Nodup := nodup_foldCase_names.of_map
  refine List.perm_singleton.1 ((List.perm_ext_iff_of_nodup (hnodup.filter _) (by simp)).2 ?_)
  intro b'
  rw [List.mem_filter, decide_eq_true_iff, List.mem_singleton]
  constructor
  · rintro ⟨hb', hs'⟩
    exact eq_of_sameLetters hb' hb hs' hs
  · rintro rfl
    exact ⟨hb, hs⟩

/-- A board is found under its own name. -/
theorem find?_name (hb : b ∈ all) : find? b.name = some b :=
  find?_eq_some_iff.2 ⟨hb, .refl b.name⟩

theorem lookup_of_unknown (h : find? s = none) : lookup s = .error (.unknownBoard s supported) := by
  rw [lookup, h]

theorem lookup_eq_error_iff {e : PackError} :
    lookup s = .error e ↔ e = .unknownBoard s supported ∧ ∀ b ∈ all, ¬ SameLetters s b.name := by
  rw [← find?_eq_none]
  constructor
  · intro h
    cases hfound : find? s with
    | none =>
      rw [lookup_of_unknown hfound] at h
      exact ⟨(Except.error.inj h).symm, rfl⟩
    | some b =>
      rw [lookup_eq_ok.2 hfound] at h
      cases h
  · rintro ⟨rfl, hfound⟩
    exact lookup_of_unknown hfound

end Board

/-! ## Names that agree -/

theorem Text.SameLetters.find?_eq {s t : String} (h : SameLetters s t) :
    Board.find? s = Board.find? t := by
  have hiff (b : Board) : SameLetters s b.name ↔ SameLetters t b.name :=
    ⟨h.symm.trans, h.trans⟩
  simp only [Board.find?, hiff]

theorem Text.SameLetters.find?_eq_of_mem {s t u : String} (h : SameLetters s t) (hu : u ∈ [s, t]) :
    Board.find? u = Board.find? s := by
  rcases List.mem_pair.1 hu with rfl | rfl
  · rfl
  · exact h.find?_eq.symm

namespace Container

variable {s : String} {b : Board}

theorem encodeNamed_of_find? (h : Board.find? s = some b) (payload : Bytes) (compressed : Bool) :
    encodeNamed s payload compressed = encode b payload compressed := by
  rw [encodeNamed, Board.lookup_eq_ok.2 h]
  rfl

/-- The board is looked up before the size of the payload counts. -/
theorem encodeNamed_of_unknown (h : Board.find? s = none) (payload : Bytes) (compressed : Bool) :
    encodeNamed s payload compressed = .error (.unknownBoard s Board.supported) := by
  rw [encodeNamed, Board.lookup_of_unknown h]
  rfl

/-- Names that agree make the same containers, or none at all, whatever the payload is. -/
theorem encodeNamed_of_sameLetters {t : String} (h : SameLetters s t) :
    (∃ b, ∀ u ∈ [s, t], Board.lookup u = .ok b ∧ ∀ payload compressed,
      encodeNamed u payload compressed = encode b payload compressed) ∨
    (∀ u ∈ [s, t], Board.lookup u = .error (.unknownBoard u Board.supported) ∧ ∀ payload compressed,
      encodeNamed u payload compressed = .error (.unknownBoard u Board.supported)) := by
  cases hfound : Board.find? s with
  | some b =>
    refine .inl ⟨b, fun u hu => ?_⟩
    have hu : Board.find? u = some b := by
      rw [h.find?_eq_of_mem hu, hfound]
    exact ⟨Board.lookup_eq_ok.2 hu, encodeNamed_of_find? hu⟩
  | none =>
    refine .inr fun u hu => ?_
    have hu : Board.find? u = none := by
      rw [h.find?_eq_of_mem hu, hfound]
    exact ⟨Board.lookup_of_unknown hu, encodeNamed_of_unknown hu⟩

end Container

end OtaPack
