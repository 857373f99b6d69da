/-
  A value of any type is passed over, and nothing behind it.

  * `skipAlong_value`, `skipAlong_opened`, `skipAlong_ended`: one step at each place;
  * `Passes b part`: inside the brackets `b`, `part` is passed over, in front as well as behind a
    comma; `skipAlong_separated`: such parts with a comma between any two are passed over;
  * `Skipped cs`: a value is passed over, from within any brackets;
  * `passes_item`, `passes_entry`: the values of arrays and the members of objects pass, if what
    they hold is passed over;
  * `skipped_of_isText`, `skipValue_of_isText`: every value is passed over.
-/
import OtaPack.Proofs.Json.Grammar

namespace OtaPack.Json

variable {b : Bracket} {below stack : List Bracket} {place : Place} {c : Char} {v : Value}
  {ws cs part rest after : List Char} {parts : List (List Char)}

/-! ## Steps -/

theorem skipAlong_ended_nil (cs : List Char) : skipAlong .ended [] cs = .ok cs := by
  rw [skipAlong]

theorem skipAlong_ended (b : Bracket) (below : List Bracket) (cs : List Char) :
    skipAlong .ended (b :: below) cs =
      match skipBlanks cs with
      | [] => .error .endOfText
      | c :: rest =>
        if c = b.closing then skipAlong .ended below rest
        else if c = ',' then b.skipLead rest >>= skipAlong .value (b :: below)
        else .error .malformed := by
  rw [skipAlong]
  split <;> rename_i h <;> rw [h]
  dsimp only
  cases b.skipLead _ <;> rfl

theorem skipAlong_opened (b : Bracket) (below : List Bracket) (cs : List Char) :
    skipAlong .opened (b :: below) cs =
      match skipBlanks cs with
      | [] => .error .endOfText
      | c :: rest =>
        if c = b.closing then skipAlong .ended below rest
        else b.skipLead (c :: rest) >>= skipAlong .value (b :: below) := by
  rw [skipAlong]
  split <;> rename_i h <;> rw [h]
  dsimp only
  cases b.skipLead _ <;> rfl

theorem skipAlong_value (stack : List Bracket) (cs : List Char) :
    skipAlong .value stack cs =
      match skipBlanks cs with
      | [] => .error .endOfText
      | c :: rest =>
        if c = '[' then skipAlong .opened (.array :: stack) rest
        else if c = '\x7b' then skipAlong .opened (.object :: stack) rest
        else skipScalar c rest >>= skipAlong .ended stack := by
  rw [skipAlong.eq_def]
  dsimp only
  split <;> rename_i h <;> rw [h]
  dsimp only
  cases skipScalar _ _ <;> rfl

/-! ## Blanks -/

theorem skipAlong_value_blanks (hws : Blanks ws) :
    skipAlong .value stack (ws ++ cs) = skipAlong .value stack cs := by
  rw [skipAlong_value, hws.skipBlanks_append, ← skipAlong_value]

theorem skipAlong_ended_blanks (hws : Blanks ws) :
    skipAlong .ended (b :: below) (ws ++ cs) = skipAlong .ended (b :: below) cs := by
  rw [skipAlong_ended, hws.skipBlanks_append, ← skipAlong_ended]

/-! ## Brackets -/

theorem skipAlong_ended_close (b : Bracket) (below : List Bracket) (rest : List Char) :
    skipAlong .ended (b :: below) (b.closing :: rest) = skipAlong .ended below rest := by
  rw [skipAlong_ended, skipBlanks_of_not_blank (by cases b <;> decide)]
  exact if_pos rfl

theorem skipAlong_ended_comma (h : b.skipLead rest = .ok after) (below : List Bracket) :
    skipAlong .ended (b :: below) (',' :: rest) = skipAlong .value (b :: below) after := by
  have hcomma : ',' ≠ b.closing := by cases b <;> decide
  rw [skipAlong_ended, skipBlanks_of_not_blank (by decide)]
  simp only [if_neg hcomma, ↓reduceIte, h, ok_bind]

/-- Nothing but blanks stands between two brackets. -/
theorem skipAlong_opened_close (hws : Blanks ws) (b : Bracket) (below : List Bracket)
    (rest : List Char) :
    skipAlong .opened (b :: below) (ws ++ b.closing :: rest) = skipAlong .ended below rest := by
  rw [skipAlong_opened, hws.skipBlanks_append, skipBlanks_of_not_blank (by cases b <;> decide)]
  exact if_pos rfl

theorem skipAlong_opened_lead (hws : Blanks ws) (hblank : isBlank c = false)
    (hc : c ≠ b.closing) (h : b.skipLead (c :: rest) = .ok after) (below : List Bracket) :
    skipAlong .opened (b :: below) (ws ++ c :: rest) = skipAlong .value (b :: below) after := by
  rw [skipAlong_opened, hws.skipBlanks_append, skipBlanks_of_not_blank hblank]
  simp only [if_neg hc, h, ok_bind]

/-- In the brackets `b`, `part` is passed over, in front as well as behind a comma. -/
structure Passes (b : Bracket) (part : List Char) : Prop where
  first : ∀ below rest, EndsNumber rest →
    skipAlong .opened (b :: below) (part ++ rest) = skipAlong .ended (b :: below) rest
  next : ∀ below rest, EndsNumber rest →
    skipAlong .ended (b :: below) (',' :: (part ++ rest)) = skipAlong .ended (b :: below) rest

theorem skipAlong_commas (hparts : ∀ part ∈ parts, Passes b part) (below : List Bracket)
    (rest : List Char) :
    skipAlong .ended (b :: below) (commas parts ++ b.closing :: rest) =
      skipAlong .ended below rest := by
  induction parts with
  | nil => exact skipAlong_ended_close b below rest
  | cons part parts ih =>
    obtain ⟨hpart, hmore⟩ := List.forall_mem_cons.1 hparts
    have hsplit : commas (part :: parts) ++ b.closing :: rest =
        ',' :: (part ++ (commas parts ++ b.closing :: rest)) := by
      rw [commas, List.flatMap_cons, List.append_assoc]
      rfl
    rw [hsplit, hpart.next below _ (endsNumber_commas parts b rest), ih hmore]

/-- Parts with a comma between any two are passed over, with the closing bracket. -/
theorem skipAlong_separated (hne : parts ≠ []) (hparts : ∀ part ∈ parts, Passes b part)
    (below : List Bracket) (rest : List Char) :
    skipAlong .opened (b :: below) (separated parts ++ b.closing :: rest) =
      skipAlong .ended below rest := by
  obtain ⟨part, parts, rfl⟩ := List.exists_cons_of_ne_nil hne
  obtain ⟨hpart, hmore⟩ := List.forall_mem_cons.1 hparts
  rw [separated, List.append_assoc, hpart.first below _ (endsNumber_commas parts b rest),
    skipAlong_commas hmore]

/-! ## Values and members -/

/-- A value is passed over, from within any brackets. -/
def Skipped (cs : List Char) : Prop :=
  ∀ stack rest, EndsNumber rest → skipAlong .value stack (cs ++ rest) = skipAlong .ended stack rest

theorem Item.Spaced.skipAlong {i : Item} (hi : i.Spaced) (hskip : Skipped i.text)
    (below : List Bracket) (hrest : EndsNumber rest) :
    skipAlong .value (b :: below) (i.chars ++ rest) = skipAlong .ended (b :: below) rest := by
  rw [i.chars_append, skipAlong_value_blanks hi.before,
    hskip _ _ (hi.after.endsNumber hrest), skipAlong_ended_blanks hi.after]

theorem passes_item {i : Item} (hi : i.Spaced) (htext : IsText i.value i.text)
    (hskip : Skipped i.text) : Passes .array i.chars := by
  constructor
  · intro below rest hrest
    obtain ⟨c, ds, htext, hblank, hclosing⟩ := htext.exists_cons
    have hfront : i.chars ++ rest = i.before ++ c :: (ds ++ (i.after ++ rest)) := by
      rw [i.chars_append, htext, List.cons_append]
    rw [hfront, skipAlong_opened_lead hi.before hblank (hclosing .array) rfl,
      ← skipAlong_value_blanks hi.before, ← hfront]
    exact hi.skipAlong hskip below hrest
  · intro below rest hrest
    rw [skipAlong_ended_comma rfl]
    exact hi.skipAlong hskip below hrest

theorem skipName_blanks (hws : Blanks ws) (cs : List Char) :
    skipName (ws ++ cs) = skipName cs := by
  rw [skipName, hws.skipBlanks_append, ← skipName]

/-- A name is passed over, with the colon behind it. -/
theorem skipName_spells {name spelling gap : List Char} (hname : Spells name spelling)
    (hgap : Blanks gap) (rest : List Char) :
    skipName ('"' :: (spelling ++ '"' :: (gap ++ ':' :: rest))) = .ok rest := by
  have hcolon : skipBlanks (gap ++ ':' :: rest) = ':' :: rest := by
    rw [hgap.skipBlanks_append, skipBlanks_of_not_blank (by decide)]
  rw [skipName, skipBlanks_of_not_blank (by decide)]
  simp only [↓reduceIte, skipQuoted_of_spells hname, hcolon]
  rfl

theorem passes_entry {e : Entry} (he : e.Spaced) (hskip : Skipped e.item.text) :
    Passes .object e.chars := by
  have hname (rest : List Char) :
      Bracket.skipLead .object ('"' :: (e.spelling ++ '"' ::
        (e.gap ++ ':' :: (e.item.chars ++ rest)))) = .ok (e.item.chars ++ rest) :=
    skipName_spells he.spells he.gap _
  constructor
  · intro below rest hrest
    rw [e.chars_append, skipAlong_opened_lead he.margin (by decide) (by decide) (hname rest)]
    exact he.item.skipAlong hskip below hrest
  · intro below rest hrest
    have hlead : Bracket.skipLead .object (e.chars ++ rest) = .ok (e.item.chars ++ rest) := by
      rw [e.chars_append]
      exact (skipName_blanks he.margin _).trans (hname rest)
    rw [skipAlong_ended_comma hlead]
    exact he.item.skipAlong hskip below hrest

/-! ## Scalars -/

theorem skipped_of_scalar (hblank : isBlank c = false) (harray : c ≠ '[') (hobject : c ≠ '\x7b')
    (h : ∀ rest, EndsNumber rest → skipScalar c (cs ++ rest) = .ok rest) : Skipped (c :: cs) := by
  intro stack rest hrest
  rw [List.cons_append, skipAlong_value, skipBlanks_of_not_blank hblank]
  simp only [if_neg harray, if_neg hobject, h rest hrest, ok_bind]

theorem skipped_number {n : Numeral} (hn : IsNumeral n cs) : Skipped cs := by
  have hread (rest : List Char) (hrest : EndsNumber rest) :=
    readNumeral_of_isNumeral hn hrest .malformed
  obtain ⟨c, ds, rfl, hc⟩ := hn.exists_cons
  refine skipped_of_scalar (not_blank_of_sign_or_digit hc)
    (ne_of_sign_or_digit hc (by decide) (by decide))
    (ne_of_sign_or_digit hc (by decide) (by decide)) fun rest hrest => ?_
  rw [skipScalar, if_neg (ne_of_sign_or_digit hc (by decide) (by decide)), if_pos hc,
    ← List.cons_append, hread rest hrest]
  rfl

theorem skipped_text {s : List Char} (hs : Spells s cs) : Skipped ('"' :: (cs ++ ['"'])) := by
  refine skipped_of_scalar (by decide) (by decide) (by decide) fun rest _ => ?_
  rw [skipScalar, if_pos rfl, List.append_assoc]
  exact skipQuoted_of_spells hs rest

/-! ## Values -/

/-- The character that begins an array or an object. -/
def Bracket.opening : Bracket → Char
  | array => '['
  | object => '\x7b'

theorem skipped_bracket {inner : List Char} (b : Bracket)
    (h : ∀ below rest, skipAlong .opened (b :: below) (inner ++ b.closing :: rest) =
      skipAlong .ended below rest) : Skipped (b.opening :: (inner ++ [b.closing])) := by
  intro stack rest _
  rw [List.cons_append, List.append_assoc, skipAlong_value,
    skipBlanks_of_not_blank (by cases b <;> decide), List.singleton_append, ← h stack rest]
  cases b <;> rfl

/-- A value is passed over, from within any brackets. -/
theorem skipped_of_isText (h : IsText v cs) : Skipped cs := by
  -- what stands in brackets is passed over by induction, so the parts pass
  induction h with
  | null => exact skipped_of_scalar (by decide) (by decide) (by decide) fun _ _ => rfl
  | boolTrue => exact skipped_of_scalar (by decide) (by decide) (by decide) fun _ _ => rfl
  | boolFalse => exact skipped_of_scalar (by decide) (by decide) (by decide) fun _ _ => rfl
  | number hn => exact skipped_number hn
  | text hs => exact skipped_text hs
  | emptyArray hws => exact skipped_bracket .array (skipAlong_opened_close hws .array)
  | emptyObject hws => exact skipped_bracket .object (skipAlong_opened_close hws .object)
  | @array items hne hspaced htext ih =>
    have hparts : ∀ part ∈ items.map Item.chars, Passes .array part :=
      List.forall_mem_map.2 fun i hi => passes_item (hspaced i hi) (htext i hi) (ih i hi)
    exact skipped_bracket .array (skipAlong_separated (by simpa using hne) hparts)
  | @object entries hne hspaced _ ih =>
    have hparts : ∀ part ∈ entries.map Entry.chars, Passes .object part :=
      List.forall_mem_map.2 fun e he => passes_entry (hspaced e he) (ih e he)
    exact skipped_bracket .object (skipAlong_separated (by simpa using hne) hparts)

/-- **Exactly one value is passed over.** -/
theorem skipValue_of_isText (hws : Blanks ws) (h : IsText v cs) (hrest : EndsNumber rest) :
    skipValue (ws ++ (cs ++ rest)) = .ok rest := by
  rw [skipValue, skipAlong_value_blanks hws, skipped_of_isText h [] rest hrest,
    skipAlong_ended_nil]

end OtaPack.Json
