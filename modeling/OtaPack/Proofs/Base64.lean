/-
  Base64 text is decoded to the bytes that it was made of, and no other text is.

  * `value?_digit`, `eq_digit_of_value?`: the digits stand for the values below 64;
  * `decodeGroup?_encodeGroup`, `decodeLast?_encodeGroup`: a group of three bytes, and the last one
    with its padding;
  * `decode?_encode`: the round trip;
  * `eq_of_decodeGroup?`, `eq_of_decodeLast?`: what is decoded as a group is written so;
  * `decode?_eq_some_iff`: decoding is strict;
  * `encode_append`: bytes whose groups are full may be written apart from those that follow;
  * `mem_encode`: only digits and padding are written.
-/
import Mathlib.Data.Option.Basic
import OtaPack.Base64
import OtaPack.Proofs.Pieces

namespace OtaPack.Base64

/-! ## Digits -/

theorem value?_digit : ∀ v < 64, value? (digit v) = some v := by
  decide +kernel

theorem eq_digit_of_value? {c : Char} {v : Nat} (h : value? c = some v) :
    v < 64 ∧ c = digit v := by
  rw [value?, Array.idxOf?_eq_map_finIdxOf?_val] at h
  obtain ⟨i, hi, rfl⟩ := Option.map_eq_some_iff.1 h
  obtain ⟨hget, -⟩ := Array.finIdxOf?_eq_some_iff.1 hi
  refine ⟨i.isLt, ?_⟩
  rw [digit, Array.getD, dif_pos i.isLt]
  exact hget.symm

theorem digit_ne_padding : ∀ v < 64, digit v ≠ padding := by
  decide +kernel

/-! ## Groups -/

section
variable (a b c : UInt8)

theorem decodeGroup?_encodeGroup : decodeGroup? (encodeGroup [a, b, c]) = some [a, b, c] := by
  have ha := a.toNat_lt
  have hb := b.toNat_lt
  have hc := c.toNat_lt
  simp only [encodeGroup, decodeGroup?]
  rw [value?_digit _ (by omega), value?_digit _ (by omega), value?_digit _ (by omega),
    value?_digit _ (by omega)]
  have h₁ : a.toNat / 4 * 4 + (a.toNat % 4 * 16 + b.toNat / 16) / 16 = a.toNat := by omega
  have h₂ : (a.toNat % 4 * 16 + b.toNat / 16) % 16 * 16 +
    (b.toNat % 16 * 4 + c.toNat / 64) / 4 = b.toNat := by omega
  have h₃ : (b.toNat % 16 * 4 + c.toNat / 64) % 4 * 64 + c.toNat % 64 = c.toNat := by omega
  simp only [bind, Option.bind, pure, h₁, h₂, h₃, UInt8.ofNat_toNat]

theorem decodeLast?_encodeGroup_three :
    decodeLast? (encodeGroup [a, b, c]) = some [a, b, c] := by
  have hc := c.toNat_lt
  have hgroup := decodeGroup?_encodeGroup a b c
  simp only [encodeGroup] at hgroup
  simp only [encodeGroup, decodeLast?]
  rw [if_pos (digit_ne_padding _ (by omega))]
  exact hgroup

theorem decodeLast?_encodeGroup_two : decodeLast? (encodeGroup [a, b]) = some [a, b] := by
  have ha := a.toNat_lt
  have hb := b.toNat_lt
  simp only [encodeGroup, decodeLast?]
  rw [if_neg (fun h => h rfl), if_pos (digit_ne_padding _ (by omega)), value?_digit _ (by omega),
    value?_digit _ (by omega), value?_digit _ (by omega)]
  have h₁ : a.toNat / 4 * 4 + (a.toNat % 4 * 16 + b.toNat / 16) / 16 = a.toNat := by omega
  have h₂ : (a.toNat % 4 * 16 + b.toNat / 16) % 16 * 16 + b.toNat % 16 * 4 / 4 = b.toNat := by
    omega
  have hunused : b.toNat % 16 * 4 % 4 = 0 := by omega
  simp only [bind, Option.bind, pure, guard, if_pos hunused, h₁, h₂, UInt8.ofNat_toNat]

theorem decodeLast?_encodeGroup_one : decodeLast? (encodeGroup [a]) = some [a] := by
  have ha := a.toNat_lt
  simp only [encodeGroup, decodeLast?]
  rw [if_neg (fun h => h rfl), if_neg (fun h => h rfl), value?_digit _ (by omega),
    value?_digit _ (by omega)]
  have h₁ : a.toNat / 4 * 4 + a.toNat % 4 * 16 / 16 = a.toNat := by omega
  have hunused : a.toNat % 4 * 16 % 16 = 0 := by omega
  simp only [bind, Option.bind, pure, guard, if_pos hunused, h₁, UInt8.ofNat_toNat]

end

theorem length_encodeGroup {g : Bytes} (hpos : 0 < g.length) (hle : g.length ≤ 3) :
    (encodeGroup g).length = 4 := by
  match g, hpos, hle with
  | [_], _, _ | [_, _], _, _ | [_, _, _], _, _ => rfl

theorem decodeLast?_encodeGroup {g : Bytes} (hpos : 0 < g.length) (hle : g.length ≤ 3) :
    decodeLast? (encodeGroup g) = some g := by
  match g, hpos, hle with
  | [a], _, _ => exact decodeLast?_encodeGroup_one a
  | [a, b], _, _ => exact decodeLast?_encodeGroup_two a b
  | [a, b, c], _, _ => exact decodeLast?_encodeGroup_three a b c

/-! ## Texts -/

theorem decodeGroups?_chunksOf (bs : Bytes) :
    decodeGroups? ((chunksOf 3 bs).map encodeGroup) = some bs := by
  induction bs using pieces_induction (n := 3) (by decide) with
  | nil =>
    rw [chunksOf_nil]
    rfl
  | piece bs hbs ih =>
    by_cases hle : bs.length ≤ 3
    · rw [chunksOf_of_length_le hbs hle, List.map_singleton, decodeGroups?]
      exact decodeLast?_encodeGroup (List.length_pos_iff.2 hbs) hle
    · have hmore : bs.drop 3 ≠ [] := by
        rw [Ne, List.drop_eq_nil_iff]
        exact hle
      have hthree : ∃ a b c, bs.take 3 = [a, b, c] := by
        match bs, hle with
        | a :: b :: c :: _, _ => exact ⟨a, b, c, rfl⟩
        | [], h | [_], h | [_, _], h => exact absurd (by simp) h
      obtain ⟨a, b, c, habc⟩ := hthree
      have hrest : ∃ g gs, (chunksOf 3 (bs.drop 3)).map encodeGroup = g :: gs := by
        rw [chunksOf_eq hmore (by decide)]
        exact ⟨_, _, rfl⟩
      obtain ⟨g, gs, hgs⟩ := hrest
      rw [chunksOf_eq hbs (by decide), List.map_cons, hgs, habc]
      rw [hgs] at ih
      show (do return (← decodeGroup? (encodeGroup [a, b, c])) ++ (← decodeGroups? (g :: gs))) = _
      rw [decodeGroup?_encodeGroup, ih, ← habc]
      exact congrArg some (List.take_append_drop 3 bs)

/-- **The round trip.** -/
theorem decode?_encode (bs : Bytes) : decode? (encode bs) = some bs := by
  have hgroups : chunksOf 4 ((chunksOf 3 bs).flatMap encodeGroup) =
      (chunksOf 3 bs).map encodeGroup := by
    refine chunksOf_flatMap (by decide) fun g hg => ?_
    obtain ⟨hpos, hle⟩ := length_of_mem_chunksOf (by decide) hg
    exact length_encodeGroup hpos hle
  rw [decode?, encode, String.toList_ofList, hgroups, decodeGroups?_chunksOf]

/-! ## Strict decoding -/

theorem toNat_ofNat {n : Nat} (h : n < 256) : (UInt8.ofNat n).toNat = n :=
  UInt8.toNat_ofNat_of_lt' h

section
variable {g : List Char} {bs : Bytes}

theorem eq_of_decodeGroup? (h : decodeGroup? g = some bs) : bs.length = 3 ∧ encodeGroup bs = g := by
  unfold decodeGroup? at h
  split at h
  · simp only [Option.bind_eq_bind, Option.bind_eq_some_iff] at h
    obtain ⟨p, hp, q, hq, r, hr, s, hs, h⟩ := h
    obtain ⟨hp', rfl⟩ := eq_digit_of_value? hp
    obtain ⟨hq', rfl⟩ := eq_digit_of_value? hq
    obtain ⟨hr', rfl⟩ := eq_digit_of_value? hr
    obtain ⟨hs', rfl⟩ := eq_digit_of_value? hs
    obtain rfl := Option.some.inj h
    have h₁ : (p * 4 + q / 16) / 4 = p := by omega
    have h₂ : (p * 4 + q / 16) % 4 * 16 + (q % 16 * 16 + r / 4) / 16 = q := by omega
    have h₃ : (q % 16 * 16 + r / 4) % 16 * 4 + (r % 4 * 64 + s) / 64 = r := by omega
    have h₄ : (r % 4 * 64 + s) % 64 = s := by omega
    refine ⟨rfl, ?_⟩
    rw [encodeGroup, toNat_ofNat (by omega), toNat_ofNat (by omega), toNat_ofNat (by omega), h₁, h₂,
      h₃, h₄]
  · cases h

theorem eq_of_decodeLast? (h : decodeLast? g = some bs) :
    0 < bs.length ∧ bs.length ≤ 3 ∧ encodeGroup bs = g := by
  unfold decodeLast? at h
  split at h
  · split at h
    · obtain ⟨hlen, hg⟩ := eq_of_decodeGroup? h
      exact ⟨by omega, by omega, hg⟩
    rename_i hs
    obtain rfl := not_not.1 hs
    split at h
    · -- two bytes
      simp only [Option.bind_eq_bind, Option.bind_eq_some_iff] at h
      obtain ⟨p, hp, q, hq, r, hr, _, hunused, h⟩ := h
      obtain ⟨hp', rfl⟩ := eq_digit_of_value? hp
      obtain ⟨hq', rfl⟩ := eq_digit_of_value? hq
      obtain ⟨hr', rfl⟩ := eq_digit_of_value? hr
      obtain rfl := Option.some.inj h
      have hzero : r % 4 = 0 := (Option.guard_eq_some' _).1 hunused
      have h₁ : (p * 4 + q / 16) / 4 = p := by omega
      have h₂ : (p * 4 + q / 16) % 4 * 16 + (q % 16 * 16 + r / 4) / 16 = q := by omega
      have h₃ : (q % 16 * 16 + r / 4) % 16 * 4 = r := by omega
      refine ⟨Nat.zero_lt_two, Nat.le_succ 2, ?_⟩
      rw [encodeGroup, toNat_ofNat (by omega), toNat_ofNat (by omega), h₁, h₂, h₃]
    · rename_i hr
      obtain rfl := not_not.1 hr
      simp only [Option.bind_eq_bind, Option.bind_eq_some_iff] at h
      obtain ⟨p, hp, q, hq, _, hunused, h⟩ := h
      obtain ⟨hp', rfl⟩ := eq_digit_of_value? hp
      obtain ⟨hq', rfl⟩ := eq_digit_of_value? hq
      obtain rfl := Option.some.inj h
      have hzero : q % 16 = 0 := (Option.guard_eq_some' _).1 hunused
      have h₁ : (p * 4 + q / 16) / 4 = p := by omega
      have h₂ : (p * 4 + q / 16) % 4 * 16 = q := by omega
      refine ⟨Nat.one_pos, Nat.le_add_left 1 2, ?_⟩
      rw [encodeGroup, toNat_ofNat (by omega), h₁, h₂]
  · cases h

end

theorem chunksOf_of_decodeGroups? {gs : List (List Char)} {bs : Bytes}
    (h : decodeGroups? gs = some bs) : (chunksOf 3 bs).map encodeGroup = gs := by
  fun_induction decodeGroups? gs generalizing bs with
  | case1 =>
    obtain rfl := Option.some.inj h
    rw [chunksOf_nil, List.map_nil]
  | case2 g =>
    obtain ⟨hpos, hle, hg⟩ := eq_of_decodeLast? h
    rw [chunksOf_of_length_le (List.length_pos_iff.1 hpos) hle, List.map_singleton, hg]
  | case3 g gs hmore ih =>
    simp only [Option.bind_eq_bind, Option.bind_eq_some_iff] at h
    obtain ⟨first, hfirst, others, hothers, h⟩ := h
    obtain rfl := Option.some.inj h
    obtain ⟨hlen, hg⟩ := eq_of_decodeGroup? hfirst
    rw [chunksOf_append (by decide) ⟨1, hlen⟩, List.map_append, ih hothers,
      chunksOf_of_length_le (List.length_pos_iff.1 (by omega)) (Nat.le_of_eq hlen),
      List.map_singleton, hg]
    rfl

/-- **Strict.**  No text but the one that is written is decoded. -/
theorem decode?_eq_some_iff {s : String} {bs : Bytes} : decode? s = some bs ↔ s = encode bs := by
  constructor
  · intro h
    rw [encode, List.flatMap_def, chunksOf_of_decodeGroups? h, flatten_chunksOf (by decide),
      String.ofList_toList]
  · rintro rfl
    exact decode?_encode bs

/-- Bytes whose groups are full may be written apart from those that follow. -/
theorem encode_append {as : Bytes} (h : 3 ∣ as.length) (bs : Bytes) :
    encode (as ++ bs) = encode as ++ encode bs := by
  rw [encode, chunksOf_append (by decide) h, List.flatMap_append, String.ofList_append]
  rfl

/-! ## Characters -/

theorem digit_mem (v : Nat) : digit v ∈ padding :: alphabet.toList := by
  rw [digit, Array.getD]
  split
  · exact List.mem_cons_of_mem _ (Array.getElem_mem_toList _)
  · exact List.mem_cons_self

theorem forall_mem_encodeGroup (g : Bytes) :
    ∀ c ∈ encodeGroup g, c ∈ padding :: alphabet.toList := by
  have hpadding : padding ∈ padding :: alphabet.toList := List.mem_cons_self
  unfold encodeGroup
  split
  all_goals simp only [List.forall_mem_cons, digit_mem, hpadding, List.not_mem_nil, false_implies,
    implies_true, and_self]

/-- Only digits and padding are written. -/
theorem mem_encode {bs : Bytes} {c : Char} (h : c ∈ (encode bs).toList) :
    c ∈ padding :: alphabet.toList := by
  rw [encode, String.toList_ofList, List.mem_flatMap] at h
  obtain ⟨g, -, hc⟩ := h
  exact forall_mem_encodeGroup g c hc

end OtaPack.Base64
