/-
  A document is read from its members in any order, and from no others.

  * `Filled ms d`: the draft `d` has the values of the members `ms`, one at most for each field;
    `take_eq_ok_iff`: kept by each member; `foldlM_take_eq_ok_iff`: and so by all of them;
  * `Describes ms d`: the members of the document `d` are among the members `ms`, each once;
  * `parse_of_describes`, `parse_of_not_describes`: such objects are read as `d`, and all others
    refused.
-/
import Mathlib.Data.List.Induction
import Mathlib.Tactic.MkIffOfInductiveProp
import OtaPack.Proofs.Transfer.Entries

namespace OtaPack.Transfer

open Json

/-! ## Members in order -/

/-- A draft has the values of the members: one at most for each field, of its type. -/
@[mk_iff]
structure Filled (ms : List (String × Value)) (d : Draft) : Prop where
  binary : (valuesOf Member.binary.name ms).map Value.text? = d.binary.toList.map some
  chunkSize : (valuesOf Member.chunkSize.name ms).map Value.word32? =
    d.chunkSize.toList.map some
  delay : (valuesOf Member.delay.name ms).map Value.word32? = d.delay.toList.map some

section
variable {α : Type} {f : Value → Option α} {vs : List Value} {v : Value} {x y : Option α}

/-- A field that has a value gets no other one. -/
theorem map_append_eq_toList_iff (h : vs.map f = x.toList.map some) :
    (vs ++ [v]).map f = y.toList.map some ↔ x = none ∧ ∃ a, f v = some a ∧ y = some a := by
  rw [List.map_append, h]
  cases x <;> cases y <;> simp

theorem map_eq_toList_iff (h : vs.map f = x.toList.map some) :
    vs.map f = y.toList.map some ↔ y = x := by
  rw [h]
  cases x <;> cases y <;> simp [eq_comm]

/-- What is in order with more values was in order before. -/
theorem exists_of_map_append {ws : List Value} (h : (vs ++ ws).map f = y.toList.map some) :
    ∃ x : Option α, vs.map f = x.toList.map some := by
  rw [List.map_append] at h
  cases vs with
  | nil => exact ⟨none, rfl⟩
  | cons v vs =>
    cases y with
    | none => cases h
    | some a =>
      obtain ⟨ha, hnil⟩ := List.cons.inj h
      refine ⟨some a, ?_⟩
      rw [List.map_cons, ha, (List.append_eq_nil_iff.1 hnil).1]
      rfl

end

section
variable {name name' : String} {ms ms' : List (String × Value)} {v : Value}

theorem valuesOf_append : valuesOf name (ms ++ ms') = valuesOf name ms ++ valuesOf name ms' := by
  rw [valuesOf, List.filter_append, List.map_append]
  rfl

theorem valuesOf_append_self :
    valuesOf name (ms ++ [(name, v)]) = valuesOf name ms ++ [v] := by
  simp [valuesOf]

theorem valuesOf_append_of_ne (h : name' ≠ name) :
    valuesOf name (ms ++ [(name', v)]) = valuesOf name ms := by
  simp [valuesOf, h]

end

variable {ms : List (String × Value)} {d d' : Draft}

theorem take_of_unknown {name : String} (h : ∀ m : Member, name ≠ m.name) (d : Draft) (v : Value) :
    d.take (name, v) = .ok d := by
  cases hm : Member.ofName? name with
  | none => rw [Draft.take, hm]
  | some m => exact absurd (Member.ofName?_eq_some_iff.1 hm) (h m)

theorem map_orMismatch_eq_ok_iff {α β : Type} {x : Option α} {f : α → β} {b : β} :
    (orMismatch x).map f = .ok b ↔ ∃ a, x = some a ∧ f a = b := by
  cases x <;> simp [orMismatch, Except.map]

/-- A field is set once, and to a value of its type. -/
theorem take_name_eq_ok_iff (d d' : Draft) (m : Member) (v : Value) :
    d.take (m.name, v) = .ok d' ↔
      match m with
      | .binary => d.binary = none ∧ ∃ s, v.text? = some s ∧ { d with binary := some s } = d'
      | .chunkSize =>
        d.chunkSize = none ∧ ∃ w, v.word32? = some w ∧ { d with chunkSize := some w } = d'
      | .delay => d.delay = none ∧ ∃ w, v.word32? = some w ∧ { d with delay := some w } = d' := by
  have htake : d.take (m.name, v) = .ok d' ↔ d.has m = false ∧ d.put m v = .ok d' := by
    simp only [Draft.take, Member.ofName?_eq_some_iff.2 rfl]
    cases d.has m <;> simp
  rw [htake]
  cases m <;> simp only [Draft.has, Draft.put, map_orMismatch_eq_ok_iff,
    Option.isSome_eq_false_iff, Option.isNone_iff_eq_none]

/-- **One more member** is taken if and only if the values of all members are still in order. -/
theorem take_eq_ok_iff (h : Filled ms d) (member : String × Value) :
    d.take member = .ok d' ↔ Filled (ms ++ [member]) d' := by
  obtain ⟨name, v⟩ := member
  have hbinary := map_eq_toList_iff (y := d'.binary) h.binary
  have hchunkSize := map_eq_toList_iff (y := d'.chunkSize) h.chunkSize
  have hdelay := map_eq_toList_iff (y := d'.delay) h.delay
  rw [filled_iff]
  by_cases hm : ∃ m : Member, name = m.name
  · obtain ⟨m, rfl⟩ := hm
    rw [take_name_eq_ok_iff]
    -- the field of the member is new, the two others are as before
    cases m with
    | binary =>
      have hnew := map_append_eq_toList_iff (v := v) (y := d'.binary) h.binary
      rw [valuesOf_append_self, valuesOf_append_of_ne (by decide),
        valuesOf_append_of_ne (by decide), hnew, hchunkSize, hdelay]
      constructor
      · rintro ⟨hnone, a, ha, rfl⟩
        exact ⟨⟨hnone, a, ha, rfl⟩, rfl, rfl⟩
      · obtain ⟨binary', chunkSize', delay'⟩ := d'
        rintro ⟨⟨hnone, a, ha, ⟨⟩⟩, ⟨⟩, ⟨⟩⟩
        exact ⟨hnone, a, ha, rfl⟩
    | chunkSize =>
      have hnew := map_append_eq_toList_iff (v := v) (y := d'.chunkSize) h.chunkSize
      rw [valuesOf_append_of_ne (by decide), valuesOf_append_self,
        valuesOf_append_of_ne (by decide), hbinary, hnew, hdelay]
      constructor
      · rintro ⟨hnone, a, ha, rfl⟩
        exact ⟨rfl, ⟨hnone, a, ha, rfl⟩, rfl⟩
      · obtain ⟨binary', chunkSize', delay'⟩ := d'
        rintro ⟨⟨⟩, ⟨hnone, a, ha, ⟨⟩⟩, ⟨⟩⟩
        exact ⟨hnone, a, ha, rfl⟩
    | delay =>
      have hnew := map_append_eq_toList_iff (v := v) (y := d'.delay) h.delay
      rw [valuesOf_append_of_ne (by decide), valuesOf_append_of_ne (by decide),
        valuesOf_append_self, hbinary, hchunkSize, hnew]
      constructor
      · rintro ⟨hnone, a, ha, rfl⟩
        exact ⟨rfl, rfl, hnone, a, ha, rfl⟩
      · obtain ⟨binary', chunkSize', delay'⟩ := d'
        rintro ⟨⟨⟩, ⟨⟩, hnone, a, ha, ⟨⟩⟩
        exact ⟨hnone, a, ha, rfl⟩
  · have hne (m : Member) : name ≠ m.name := fun hname => hm ⟨m, hname⟩
    rw [take_of_unknown hne, valuesOf_append_of_ne (hne .binary),
      valuesOf_append_of_ne (hne .chunkSize), valuesOf_append_of_ne (hne .delay), hbinary,
      hchunkSize, hdelay]
    constructor
    · rintro ⟨⟩
      exact ⟨rfl, rfl, rfl⟩
    · obtain ⟨binary', chunkSize', delay'⟩ := d'
      rintro ⟨⟨⟩, ⟨⟩, ⟨⟩⟩
      rfl

theorem filled_nil_iff : Filled [] d ↔ d = {} := by
  constructor
  · rintro ⟨hbinary, hchunkSize, hdelay⟩
    obtain ⟨binary, chunkSize, delay⟩ := d
    obtain rfl : binary = none := by simpa [valuesOf] using hbinary
    obtain rfl : chunkSize = none := by simpa [valuesOf] using hchunkSize
    obtain rfl : delay = none := by simpa [valuesOf] using hdelay
    rfl
  · rintro rfl
    exact ⟨rfl, rfl, rfl⟩

/-- What is in order with more members was in order before. -/
theorem Filled.exists_of_append {ms' : List (String × Value)} (h : Filled (ms ++ ms') d) :
    ∃ d', Filled ms d' := by
  obtain ⟨hbinary, hchunkSize, hdelay⟩ := h
  rw [valuesOf_append] at hbinary hchunkSize hdelay
  obtain ⟨binary, hbinary⟩ := exists_of_map_append hbinary
  obtain ⟨chunkSize, hchunkSize⟩ := exists_of_map_append hchunkSize
  obtain ⟨delay, hdelay⟩ := exists_of_map_append hdelay
  exact ⟨⟨binary, chunkSize, delay⟩, hbinary, hchunkSize, hdelay⟩

/-- **All members** are taken if and only if the values of all of them are in order. -/
theorem foldlM_take_eq_ok_iff : ms.foldlM Draft.take {} = .ok d ↔ Filled ms d := by
  induction ms using List.reverseRecOn generalizing d with
  | nil =>
    rw [filled_nil_iff]
    exact ⟨fun h => (Except.ok.inj h).symm, fun h => congrArg Except.ok h.symm⟩
  | append_singleton ms member ih =>
    simp only [List.foldlM_append, List.foldlM_cons, List.foldlM_nil, bind_pure]
    constructor
    · intro h
      obtain ⟨d', hd', h⟩ := exists_of_bind_eq_ok h
      exact (take_eq_ok_iff (ih.1 hd') member).1 h
    · intro h
      obtain ⟨d', hd'⟩ := h.exists_of_append
      rw [ih.2 hd', ok_bind, (take_eq_ok_iff hd' member).2 h]

/-! ## Documents -/

/-- The members are those of a document, each once, among others and in any order. -/
structure Describes (ms : List (String × Value)) (d : Document) : Prop where
  binary : valuesOf "binary" ms = [.text d.binary]
  chunkSize : ∃ v, IsWord d.chunkSize v ∧ valuesOf "chunk_size" ms = [v]
  delay : ∃ v, IsWord d.delay v ∧ valuesOf "delay" ms = [v]

theorem complete_eq_ok_iff {document : Document} :
    d.complete = .ok document ↔
      d = ⟨some document.binary, some document.chunkSize, some document.delay⟩ := by
  obtain ⟨_ | binary, _ | chunkSize, _ | delay⟩ := d <;> obtain ⟨_, _, _⟩ := document <;>
    simp [Draft.complete]

theorem filled_iff_describes {document : Document} :
    Filled ms ⟨some document.binary, some document.chunkSize, some document.delay⟩ ↔
      Describes ms document := by
  have honly {α : Type} (f : Value → Option α) (vs : List Value) (a : α) :
      vs.map f = (some a).toList.map some ↔ ∃ v, f v = some a ∧ vs = [v] := by
    rw [Option.toList_some, List.map_singleton, List.map_eq_singleton_iff]
    simp only [and_comm]
  constructor
  · rintro ⟨hbinary, hchunkSize, hdelay⟩
    obtain ⟨v, hv, hbinary⟩ := (honly _ _ _).1 hbinary
    obtain ⟨w, hw, hchunkSize⟩ := (honly _ _ _).1 hchunkSize
    obtain ⟨w', hw', hdelay⟩ := (honly _ _ _).1 hdelay
    rw [text?_eq_some_iff.1 hv] at hbinary
    exact ⟨hbinary, ⟨w, word32?_eq_some_iff.1 hw, hchunkSize⟩, w', word32?_eq_some_iff.1 hw',
      hdelay⟩
  · rintro ⟨hbinary, ⟨w, hw, hchunkSize⟩, w', hw', hdelay⟩
    refine ⟨?_, ?_, ?_⟩
    · exact (honly _ _ _).2 ⟨_, rfl, hbinary⟩
    · exact (honly _ _ _).2 ⟨w, word32?_eq_some_iff.2 hw, hchunkSize⟩
    · exact (honly _ _ _).2 ⟨w', word32?_eq_some_iff.2 hw', hdelay⟩

/-- The members of a document are taken in any order, others are passed over. -/
theorem take_complete_eq_ok_iff {document : Document} :
    ms.foldlM Draft.take {} >>= Draft.complete = .ok document ↔ Describes ms document := by
  constructor
  · intro h
    obtain ⟨d, hd, h⟩ := exists_of_bind_eq_ok h
    obtain rfl := complete_eq_ok_iff.1 h
    exact filled_iff_describes.1 (foldlM_take_eq_ok_iff.1 hd)
  · intro h
    rw [foldlM_take_eq_ok_iff.2 (filled_iff_describes.2 h)]
    rfl

/-! ## Refusals -/

theorem put_eq_error {m : Member} {v : Value} {p : Problem} (h : d.put m v = .error p) :
    p = .mismatch := by
  have hmap {α : Type} {x : Option α} {f : α → Draft} (h : (orMismatch x).map f = .error p) :
      p = .mismatch := by
    cases x with
    | none => exact (Except.error.inj h).symm
    | some => cases h
  cases m with
  | binary => exact hmap h
  | chunkSize => exact hmap h
  | delay => exact hmap h

theorem take_eq_error {member : String × Value} {p : Problem} (h : d.take member = .error p) :
    p = .mismatch := by
  obtain ⟨name, v⟩ := member
  rw [Draft.take] at h
  cases hm : Member.ofName? name with
  | none =>
    rw [hm] at h
    cases h
  | some m =>
    simp only [hm] at h
    split_ifs at h
    · exact (Except.error.inj h).symm
    · exact put_eq_error h

theorem complete_eq_error {p : Problem} (h : d.complete = .error p) : p = .mismatch := by
  unfold Draft.complete at h
  split at h
  · cases h
  · exact (Except.error.inj h).symm

theorem foldlM_take_eq_error {p : Problem} (h : ms.foldlM Draft.take d = .error p) :
    p = .mismatch := by
  induction ms generalizing d with
  | nil => cases h
  | cons member ms ih =>
    rw [List.foldlM_cons] at h
    cases htake : d.take member with
    | error =>
      rw [htake] at h
      cases h
      exact take_eq_error htake
    | ok d' =>
      rw [htake] at h
      exact ih h

/-- Members that are those of no document are a mismatch. -/
theorem take_complete_eq_mismatch (h : ∀ document, ¬ Describes ms document) :
    ms.foldlM Draft.take {} >>= Draft.complete = .error .mismatch := by
  cases hresult : ms.foldlM Draft.take {} >>= Draft.complete with
  | ok document => exact absurd (take_complete_eq_ok_iff.1 hresult) (h document)
  | error p =>
    cases htake : ms.foldlM Draft.take {} with
    | error p' =>
      rw [htake] at hresult
      cases hresult
      rw [foldlM_take_eq_error htake]
    | ok d =>
      rw [htake] at hresult
      rw [complete_eq_error hresult]

theorem Describes.inRange {document : Document} (h : Describes ms document) (m : Member) :
    ∀ v ∈ valuesOf m.name ms, v.InRange := by
  obtain ⟨hbinary, ⟨w, hw, hchunkSize⟩, w', hw', hdelay⟩ := h
  intro v hv
  cases m with
  | binary =>
    rw [Member.name, hbinary, List.mem_singleton] at hv
    rintro n rfl
    cases hv
  | chunkSize =>
    rw [Member.name, hchunkSize, List.mem_singleton] at hv
    exact hv ▸ hw.inRange
  | delay =>
    rw [Member.name, hdelay, List.mem_singleton] at hv
    exact hv ▸ hw'.inRange

/-- **A document is read from its members**, in any order and among others. -/
theorem parse_of_describes {document : Document} {text : String} (h : IsJson (.object ms) text)
    (hms : Describes ms document) : Document.parse text = .ok document := by
  rw [parse_of_isJson_object h hms.inRange]
  exact take_complete_eq_ok_iff.2 hms

/-- **Any other object is refused.** -/
theorem parse_of_not_describes {text : String} (h : IsJson (.object ms) text)
    (hrange : ∀ m : Member, ∀ v ∈ valuesOf m.name ms, v.InRange)
    (hms : ∀ document, ¬ Describes ms document) : Document.parse text = .error .mismatch := by
  rw [parse_of_isJson_object h hrange]
  exact take_complete_eq_mismatch hms

/-- The members of a document have each name once. -/
theorem Describes.length_valuesOf {document : Document} (h : Describes ms document) (m : Member) :
    (valuesOf m.name ms).length = 1 := by
  obtain ⟨hbinary, ⟨w, -, hchunkSize⟩, w', -, hdelay⟩ := h
  cases m with
  | binary => rw [Member.name, hbinary]; rfl
  | chunkSize => rw [Member.name, hchunkSize]; rfl
  | delay => rw [Member.name, hdelay]; rfl

end OtaPack.Transfer
