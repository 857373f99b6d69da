/-
  Tokens written as a byte stream and read back.

  * `Token.toBits`: the bits of a token, which `Token.write` appends (`holds_write`) and
    `Token.read?` takes (`read?_of_awaits`, `eq_of_read?`);
  * `tokensAfter r`: the tokens that a reader is still to read, one after the other;
  * `length_writeTokens`: the bytes of some tokens are as many as their bits need;
  * `Cuts bits ts rest`: the bits are cut into as many tokens as there are, and a rest, which is
    shorter than a reference (`Cuts.length_rest_lt`);
  * `readTokens_eq_iff`: these are the tokens that are read, whatever the stream is;
  * `readTokens_writeTokens`: written tokens are read back; the zeros that fill up the last byte are
    too few for one more token;
  * `token_codec`: that, and what is read from any stream is written as it was.
-/
import Mathlib.Algebra.Ring.Nat
import OtaPack.Lzss.Token
import OtaPack.Proofs.Bits.Stream

namespace OtaPack.Lzss

open Bits

/-! ## One token -/

namespace Token

/-- The bits of a token. -/
def toBits : Token → List Bool
  | literal byte => true :: fieldBits byte.toNat 8
  | reference position excess =>
    false :: (fieldBits position positionBits ++ fieldBits excess lengthBits)

@[simp] theorem length_toBits (t : Token) : t.toBits.length = t.bits := by
  cases t with
  | literal => simp only [toBits, bits, List.length_cons, length_fieldBits]
  | reference =>
    simp only [toBits, bits, List.length_cons, List.length_append, length_fieldBits]
    omega

theorem le_bits (t : Token) : 9 ≤ t.bits := by
  cases t <;> simp only [bits, positionBits, lengthBits] <;> omega

theorem two_le_length (position : Fin ringSize) (excess : Fin lengthCount) :
    2 ≤ (reference position excess).length :=
  Nat.le_add_right minMatch excess

/-- A position fits into a machine word. -/
theorem toNat_ofNat_position (position : Fin ringSize) :
    (UInt64.ofNat position).toNat = position :=
  UInt64.toNat_ofNat_of_lt' (Nat.lt_trans position.isLt (by decide))

/-- A length fits into a machine word. -/
theorem toNat_ofNat_excess (excess : Fin lengthCount) : (UInt64.ofNat excess).toNat = excess :=
  UInt64.toNat_ofNat_of_lt' (Nat.lt_trans excess.isLt (by decide))

theorem holds_write {w : Writer} {bits : List Bool} (h : w.Holds bits) (t : Token) :
    (t.write w).Holds (bits ++ t.toBits) := by
  cases t with
  | literal byte =>
    rw [toBits, List.append_cons]
    have hbyte : byte.toUInt64.toNat = byte.toNat := UInt8.toNat_toUInt64 byte
    rw [← hbyte]
    exact (h.putBit true).putBits (by decide) byte.toUInt64
  | reference position excess =>
    rw [toBits, List.append_cons, ← List.append_assoc]
    rw [← toNat_ofNat_position, ← toNat_ofNat_excess]
    exact ((h.putBit false).putBits (by decide) _).putBits (by decide) _

/-- **A token that is next is read.** -/
theorem read?_of_awaits {r : Reader} {t : Token} {more : List Bool}
    (h : r.Awaits (t.toBits ++ more)) : ∃ r', read? r = some (t, r') ∧ r'.Awaits more := by
  cases t with
  | literal byte =>
    have hbyte : byte.toUInt64.toNat = byte.toNat := UInt8.toNat_toUInt64 byte
    have h₁ : r.Awaits (fieldBits (1 : UInt64).toNat 1 ++
        (fieldBits byte.toUInt64.toNat 8 ++ more)) := by
      rw [hbyte]
      exact h
    obtain ⟨r₁, e₁, h₂⟩ := h₁.getBits?_field (by decide)
    obtain ⟨r₂, e₂, h₃⟩ := h₂.getBits?_field (by rw [hbyte]; exact byte.toNat_lt)
    refine ⟨r₂, ?_, h₃⟩
    simp [read?, e₁, e₂]
  | reference position excess =>
    have h₁ : r.Awaits (fieldBits (0 : UInt64).toNat 1 ++
        (fieldBits (UInt64.ofNat position).toNat positionBits ++
          (fieldBits (UInt64.ofNat excess).toNat lengthBits ++ more))) := by
      rw [toNat_ofNat_position, toNat_ofNat_excess,
        ← List.append_assoc (fieldBits position positionBits)]
      exact h
    obtain ⟨r₁, e₁, h₂⟩ := h₁.getBits?_field (by decide)
    obtain ⟨r₂, e₂, h₃⟩ :=
      h₂.getBits?_field (by rw [toNat_ofNat_position]; exact position.isLt)
    obtain ⟨r₃, e₃, h₄⟩ := h₃.getBits?_field (by rw [toNat_ofNat_excess]; exact excess.isLt)
    have hposition : Fin.ofNat ringSize (UInt64.ofNat position).toNat = position :=
      Fin.ext (by rw [toNat_ofNat_position]; exact Nat.mod_eq_of_lt position.isLt)
    have hexcess : Fin.ofNat lengthCount (UInt64.ofNat excess).toNat = excess :=
      Fin.ext (by rw [toNat_ofNat_excess]; exact Nat.mod_eq_of_lt excess.isLt)
    have hflag : (0 : UInt64) ≠ 1 := by decide
    refine ⟨r₃, ?_, h₄⟩
    simp only [read?, e₁, e₂, e₃, Option.bind_eq_bind, Option.bind_some, if_neg hflag, hposition,
      hexcess]
    rfl

/-- **A token that has been read was next.** -/
theorem eq_of_read? {r r' : Reader} {bits : List Bool} {t : Token} (h : r.Awaits bits)
    (hr : read? r = some (t, r')) : ∃ more, bits = t.toBits ++ more ∧ r'.Awaits more := by
  simp only [read?, Option.bind_eq_bind, Option.bind_eq_some_iff] at hr
  obtain ⟨⟨flag, r₁⟩, e₁, hr⟩ := hr
  obtain ⟨hflag, bits₁, rfl, h₁⟩ := h.eq_of_getBits? (by decide) e₁
  split at hr
  · rename_i hone
    subst hone
    simp only [Option.bind_eq_some_iff] at hr
    obtain ⟨⟨byte, r₂⟩, e₂, hr⟩ := hr
    obtain ⟨hbyte, bits₂, rfl, h₂⟩ := h₁.eq_of_getBits? (by decide) e₂
    obtain ⟨rfl, rfl⟩ := Prod.mk.inj (Option.some.inj hr)
    have hbyte' : byte.toUInt8.toNat = byte.toNat :=
      (UInt64.toNat_toUInt8 byte).trans (Nat.mod_eq_of_lt hbyte)
    refine ⟨bits₂, ?_, h₂⟩
    rw [toBits, hbyte']
    rfl
  · rename_i hzero
    obtain rfl : flag = 0 := UInt64.toNat_inj.1 (by
      have hone : flag.toNat ≠ 1 := fun h => hzero (UInt64.toNat_inj.1 h)
      show flag.toNat = 0
      omega)
    simp only [Option.bind_eq_some_iff] at hr
    obtain ⟨⟨position, r₂⟩, e₂, ⟨excess, r₃⟩, e₃, hr⟩ := hr
    obtain ⟨hposition, bits₂, rfl, h₂⟩ := h₁.eq_of_getBits? (by decide) e₂
    obtain ⟨hexcess, bits₃, rfl, h₃⟩ := h₂.eq_of_getBits? (by decide) e₃
    obtain ⟨rfl, rfl⟩ := Prod.mk.inj (Option.some.inj hr)
    have hposition' : position.toNat % ringSize = position.toNat := Nat.mod_eq_of_lt hposition
    have hexcess' : excess.toNat % lengthCount = excess.toNat := Nat.mod_eq_of_lt hexcess
    refine ⟨bits₃, ?_, h₃⟩
    rw [toBits, Fin.val_ofNat, Fin.val_ofNat, hposition', hexcess', List.cons_append,
      List.append_assoc]
    rfl

/-- Sixteen bits begin with a token, whatever they are. -/
theorem exists_toBits_prefix {bits : List Bool} (h : 16 ≤ bits.length) :
    ∃ t : Token, t.toBits <+: bits := by
  cases bits with
  | nil => cases h
  | cons flag data =>
    have hdata : 15 ≤ data.length := Nat.le_of_succ_le_succ h
    cases flag with
    | true =>
      have hfirst : 8 ≤ data.length := Nat.le_trans (by decide) hdata
      obtain ⟨hbyte, hfield⟩ := fieldBits_spell_take hfirst
      refine ⟨literal (UInt8.ofNat (spell (data.take 8))), ?_⟩
      rw [toBits, UInt8.toNat_ofNat_of_lt' hbyte, hfield]
      exact (List.prefix_cons_inj true).2 (List.take_prefix 8 data)
    | false =>
      have hfirst : positionBits ≤ data.length := Nat.le_trans (by decide) hdata
      have hsecond : lengthBits ≤ (data.drop positionBits).length := by
        rw [List.length_drop]
        exact Nat.le_sub_of_add_le hdata
      obtain ⟨hposition, hfield⟩ := fieldBits_spell_take hfirst
      obtain ⟨hexcess, hfield'⟩ := fieldBits_spell_take hsecond
      refine ⟨reference ⟨_, hposition⟩ ⟨_, hexcess⟩, ?_⟩
      rw [toBits, hfield, hfield', ← List.take_add]
      exact (List.prefix_cons_inj false).2 (List.take_prefix _ data)

end Token

/-! ## Streams of tokens -/

/-- The bits of some tokens. -/
def tokenBits (ts : List Token) : List Bool :=
  ts.flatMap Token.toBits

theorem tokenBits_append (ts us : List Token) :
    tokenBits (ts ++ us) = tokenBits ts ++ tokenBits us :=
  List.flatMap_append

theorem length_tokenBits_cons (t : Token) (ts : List Token) :
    (tokenBits (t :: ts)).length = t.bits + (tokenBits ts).length := by
  rw [tokenBits, List.flatMap_cons, List.length_append, t.length_toBits]
  rfl

theorem length_tokenBits (ts : List Token) : (tokenBits ts).length = (ts.map Token.bits).sum := by
  induction ts with
  | nil => rfl
  | cons t ts ih => rw [length_tokenBits_cons, ih, List.map_cons, List.sum_cons]

theorem holds_foldl_write {w : Writer} {bits : List Bool} (h : w.Holds bits) (ts : List Token) :
    (ts.foldl Token.write w).Holds (bits ++ tokenBits ts) := by
  induction ts generalizing w bits with
  | nil => simpa [tokenBits] using h
  | cons t ts ih =>
    have := ih (Token.holds_write h t)
    rwa [List.append_assoc] at this

/-- The bytes of some tokens spell their bits and then less than a byte of zeros. -/
theorem bitsOf_writeTokens (ts : List Token) :
    ∃ n < 8, bitsOf (writeTokens ts) = tokenBits ts ++ List.replicate n false :=
  Writer.bitsOf_finish (holds_foldl_write Writer.holds_empty ts)

theorem length_writeTokens (ts : List Token) :
    (writeTokens ts).length = ((tokenBits ts).length + 7) / 8 := by
  obtain ⟨n, hn, hbits⟩ := bitsOf_writeTokens ts
  have hlen := congrArg List.length hbits
  rw [length_bitsOf, List.length_append, List.length_replicate] at hlen
  omega

theorem readTokensOnto_of_none {r : Reader} (h : Token.read? r = none) (acc : Array Token) :
    readTokensOnto r acc = acc := by
  rw [readTokensOnto]
  split
  · rfl
  · rename_i h'
    rw [h] at h'
    cases h'

theorem readTokensOnto_of_some {r r' : Reader} {t : Token} (h : Token.read? r = some (t, r'))
    (acc : Array Token) : readTokensOnto r acc = readTokensOnto r' (acc.push t) := by
  rw [readTokensOnto]
  split
  · rename_i h'
    rw [h] at h'
    cases h'
  · rename_i h'
    rw [h] at h'
    cases h'
    rfl

/-- The complete tokens that a reader is still to read. -/
def tokensAfter (r : Reader) : List Token :=
  (readTokensOnto r #[]).toList

theorem toList_readTokensOnto (r : Reader) (acc : Array Token) :
    (readTokensOnto r acc).toList = acc.toList ++ tokensAfter r := by
  induction hk : r.remaining using Nat.strongRecOn generalizing r acc with
  | _ k ih =>
    rw [tokensAfter]
    rcases h : Token.read? r with _ | ⟨t, r'⟩
    · rw [readTokensOnto_of_none h, readTokensOnto_of_none h, List.append_nil]
    · have hlt : r'.remaining < k := by
        have := Token.remaining_of_read? h
        have := t.bits_pos
        omega
      rw [readTokensOnto_of_some h, readTokensOnto_of_some h, ih _ hlt _ _ rfl, ih _ hlt _ _ rfl,
        Array.toList_push, Array.toList_push, List.append_assoc]
      rfl

theorem tokensAfter_of_none {r : Reader} (h : Token.read? r = none) : tokensAfter r = [] := by
  rw [tokensAfter, readTokensOnto_of_none h]

theorem tokensAfter_of_some {r r' : Reader} {t : Token} (h : Token.read? r = some (t, r')) :
    tokensAfter r = t :: tokensAfter r' := by
  rw [tokensAfter, readTokensOnto_of_some h, toList_readTokensOnto]
  rfl

/-! ## Bits cut into tokens -/

/-- The bits are those of the tokens `ts` and a rest, and no more token stands in front of that. -/
structure Cuts (bits : List Bool) (ts : List Token) (rest : List Bool) : Prop where
  bits_eq : bits = tokenBits ts ++ rest
  maximal : ∀ t : Token, ¬t.toBits <+: rest

section
variable {bits rest : List Bool} {ts : List Token}

/-- A rest that is too short for a token is left over. -/
theorem Cuts.of_short (hrest : rest.length < 9) : Cuts (tokenBits ts ++ rest) ts rest := by
  refine ⟨rfl, fun t ht => ?_⟩
  have hlen := ht.length_le
  have hbits := t.le_bits
  rw [Token.length_toBits] at hlen
  omega

/-- What is left over is too short for a reference. -/
theorem Cuts.length_rest_lt (h : Cuts bits ts rest) : rest.length < 16 := by
  refine Nat.lt_of_not_le fun hlong => ?_
  obtain ⟨t, ht⟩ := Token.exists_toBits_prefix hlong
  exact h.maximal t ht

/-- The tokens that bits are cut into are read. -/
theorem Cuts.tokensAfter_eq {r : Reader} (hr : r.Awaits bits) (h : Cuts bits ts rest) :
    tokensAfter r = ts := by
  obtain ⟨rfl, hmax⟩ := h
  induction ts generalizing r with
  | nil =>
    rcases hread : Token.read? r with _ | ⟨t, r'⟩
    · exact tokensAfter_of_none hread
    · obtain ⟨more, heq, -⟩ := Token.eq_of_read? hr hread
      exact absurd ⟨more, heq.symm⟩ (hmax t)
  | cons t ts ih =>
    rw [tokenBits, List.flatMap_cons, List.append_assoc] at hr
    obtain ⟨r', hread, hr'⟩ := Token.read?_of_awaits hr
    rw [tokensAfter_of_some hread, ih hr']

/-- What is read are the tokens that the bits are cut into. -/
theorem cuts_tokensAfter {r : Reader} (hr : r.Awaits bits) :
    ∃ rest, Cuts bits (tokensAfter r) rest := by
  induction hk : r.remaining using Nat.strongRecOn generalizing r bits with
  | _ k ih =>
    rcases hread : Token.read? r with _ | ⟨t, r'⟩
    · rw [tokensAfter_of_none hread]
      refine ⟨bits, rfl, ?_⟩
      rintro t ⟨more, rfl⟩
      obtain ⟨r', hread', -⟩ := Token.read?_of_awaits hr
      rw [hread] at hread'
      cases hread'
    · obtain ⟨more, rfl, hr'⟩ := Token.eq_of_read? hr hread
      have hlt : r'.remaining < k := by
        have := Token.remaining_of_read? hread
        have := t.bits_pos
        omega
      obtain ⟨rest, hmore, hmax⟩ := ih _ hlt hr' rfl
      rw [tokensAfter_of_some hread]
      refine ⟨rest, ?_, hmax⟩
      rw [tokenBits, List.flatMap_cons, List.append_assoc, hmore]
      rfl

end

/-- **The tokens of a stream.**  Its bits are cut into them in one way only. -/
theorem readTokens_eq_iff {stream : Bytes} {ts : List Token} :
    readTokens stream = ts ↔ ∃ rest, Cuts (bitsOf stream) ts rest := by
  have hr := Reader.awaits_ofBytes stream
  constructor
  · rintro rfl
    exact cuts_tokensAfter hr
  · rintro ⟨rest, h⟩
    exact h.tokensAfter_eq hr

/-- **Written tokens are read back.** -/
theorem readTokens_writeTokens (ts : List Token) : readTokens (writeTokens ts) = ts := by
  obtain ⟨n, hn, hbits⟩ := bitsOf_writeTokens ts
  rw [readTokens_eq_iff, hbits]
  refine ⟨_, Cuts.of_short ?_⟩
  rw [List.length_replicate]
  omega

/-- Different tokens are never written alike. -/
theorem writeTokens_injective {ts ts' : List Token} (h : writeTokens ts = writeTokens ts') :
    ts = ts' := by
  rw [← readTokens_writeTokens ts, h, readTokens_writeTokens]

/-- **The codec.**  Written tokens are read back; and what is read from a stream, written again, is
    the stream on all the bits that these tokens take, which are all but fifteen of it at most. -/
theorem token_codec :
    (∀ ts : List Token, readTokens (writeTokens ts) = ts) ∧
      ∀ stream : Bytes, ∃ n, n = ((readTokens stream).map Token.bits).sum ∧
        (bitsOf (writeTokens (readTokens stream))).take n = (bitsOf stream).take n ∧
        n ≤ (bitsOf stream).length ∧ (bitsOf stream).length < n + 16 := by
  refine ⟨readTokens_writeTokens, fun stream => ⟨_, rfl, ?_⟩⟩
  obtain ⟨rest, hcuts⟩ := readTokens_eq_iff.1 (rfl : readTokens stream = _)
  obtain ⟨n, -, hwritten⟩ := bitsOf_writeTokens (readTokens stream)
  have hrest := hcuts.length_rest_lt
  rw [← length_tokenBits, hwritten, hcuts.bits_eq, List.take_left, List.take_left,
    List.length_append]
  exact ⟨rfl, Nat.le_add_right _ _, Nat.add_lt_add_left hrest _⟩

end OtaPack.Lzss
