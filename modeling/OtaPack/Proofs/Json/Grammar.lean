/-
  The texts of values.

  * `Value`: a value, with the members of objects in the order and as often as they are written;
  * `Item`, `Entry`: a value in an array and a member of an object as they are written, with the
    blanks around each part;
  * `IsText v cs`: the characters `cs` are the value `v` as it is written;
  * `IsJson v text`: the same for a whole text, which may begin and end with blanks.
-/
import OtaPack.Json.Skip
import OtaPack.Proofs.Json.Numeral
import OtaPack.Proofs.Json.Spelling

namespace OtaPack.Json

/-- A value. -/
inductive Value where
  | null
  | bool (b : Bool)
  | number (n : Numeral)
  | text (s : String)
  | array (vs : List Value)
  | object (ms : List (String × Value))

/-! ## Parts of a text -/

/-- Characters without meaning. -/
def Blanks (cs : List Char) : Prop :=
  ∀ c ∈ cs, isBlank c = true

instance (cs : List Char) : Decidable (Blanks cs) :=
  List.decidableBAll (fun c => isBlank c = true) cs

/-- A value in an array as it is written. -/
structure Item where
  before : List Char
  value : Value
  text : List Char
  after : List Char

/-- The characters of an item. -/
def Item.chars (i : Item) : List Char :=
  i.before ++ (i.text ++ i.after)

theorem Item.chars_append (i : Item) (rest : List Char) :
    i.chars ++ rest = i.before ++ (i.text ++ (i.after ++ rest)) := by
  rw [Item.chars, List.append_assoc, List.append_assoc]

/-- Nothing but blanks stands around the value. -/
structure Item.Spaced (i : Item) : Prop where
  before : Blanks i.before
  after : Blanks i.after

/-- A member of an object as it is written. -/
structure Entry where
  margin : List Char
  name : String
  spelling : List Char
  gap : List Char
  item : Item

/-- The characters of an entry. -/
def Entry.chars (e : Entry) : List Char :=
  e.margin ++ '"' :: (e.spelling ++ '"' :: (e.gap ++ ':' :: e.item.chars))

theorem Entry.chars_append (e : Entry) (rest : List Char) :
    e.chars ++ rest =
      e.margin ++ '"' :: (e.spelling ++ '"' :: (e.gap ++ ':' :: (e.item.chars ++ rest))) := by
  simp only [Entry.chars, List.append_assoc, List.cons_append]

/-- The name stands between its quotes, and nothing but blanks around it and around the value. -/
structure Entry.Spaced (e : Entry) : Prop where
  margin : Blanks e.margin
  spells : Spells e.name.toList e.spelling
  gap : Blanks e.gap
  item : e.item.Spaced

/-- The member that an entry is. -/
def Entry.member (e : Entry) : String × Value :=
  (e.name, e.item.value)

/-- Parts of a text with a comma in front of each. -/
def commas (parts : List (List Char)) : List Char :=
  parts.flatMap fun part => ',' :: part

/-- Parts of a text with a comma between any two. -/
def separated : List (List Char) → List Char
  | [] => []
  | part :: parts => part ++ commas parts

/-! ## Texts -/

/-- A value as it is written. -/
inductive IsText : Value → List Char → Prop
  | null : IsText .null ['n', 'u', 'l', 'l']
  | boolTrue : IsText (.bool true) ['t', 'r', 'u', 'e']
  | boolFalse : IsText (.bool false) ['f', 'a', 'l', 's', 'e']
  | number {n : Numeral} {cs : List Char} : IsNumeral n cs → IsText (.number n) cs
  | text {s : String} {cs : List Char} :
      Spells s.toList cs → IsText (.text s) ('"' :: (cs ++ ['"']))
  | emptyArray {cs : List Char} : Blanks cs → IsText (.array []) ('[' :: (cs ++ [']']))
  | array {items : List Item} : items ≠ [] → (∀ i ∈ items, i.Spaced) →
      (∀ i ∈ items, IsText i.value i.text) →
      IsText (.array (items.map Item.value)) ('[' :: (separated (items.map Item.chars) ++ [']']))
  | emptyObject {cs : List Char} :
      Blanks cs → IsText (.object []) ('\x7b' :: (cs ++ ['\x7d']))
  | object {entries : List Entry} : entries ≠ [] → (∀ e ∈ entries, e.Spaced) →
      (∀ e ∈ entries, IsText e.item.value e.item.text) →
      IsText (.object (entries.map Entry.member))
        ('\x7b' :: (separated (entries.map Entry.chars) ++ ['\x7d']))

/-- A whole text. -/
inductive IsJson (v : Value) (text : String) : Prop
  | intro {before cs after : List Char} : text.toList = before ++ (cs ++ after) →
      Blanks before → IsText v cs → Blanks after → IsJson v text

variable {v : Value} {ws cs rest : List Char}

/-! ## Blanks -/

theorem blanks_nil : Blanks [] :=
  fun _ hc => absurd hc List.not_mem_nil

theorem Blanks.skipBlanks_append (h : Blanks ws) (cs : List Char) :
    skipBlanks (ws ++ cs) = skipBlanks cs :=
  List.dropWhile_append_of_pos h

theorem Blanks.skipBlanks_eq_nil (h : Blanks ws) : skipBlanks ws = [] := by
  have hskip := h.skipBlanks_append []
  rwa [List.append_nil] at hskip

/-- Behind a number, too, blanks have no meaning. -/
theorem Blanks.endsNumber (h : Blanks ws) (hrest : EndsNumber rest) : EndsNumber (ws ++ rest) := by
  cases ws with
  | nil => exact hrest
  | cons c ws =>
    rintro c ⟨⟩
    have hblank := h c List.mem_cons_self
    simp only [isBlank, decide_eq_true_eq] at hblank
    rcases hblank with rfl | rfl | rfl | rfl <;> decide

/-! ## What follows a value -/

theorem endsNumber_of_not_digit {c : Char}
    (hc : c.isDigit = false ∧ c ≠ '.' ∧ c ≠ 'e' ∧ c ≠ 'E') (rest : List Char) :
    EndsNumber (c :: rest) := by
  rintro c ⟨⟩
  exact hc

/-- A number is over where a bracket ends or a comma follows. -/
theorem endsNumber_commas (parts : List (List Char)) (b : Bracket) (rest : List Char) :
    EndsNumber (commas parts ++ b.closing :: rest) := by
  cases parts with
  | nil => cases b <;> exact endsNumber_of_not_digit (by decide) rest
  | cons part parts => exact endsNumber_of_not_digit (by decide) _

/-! ## The first character -/

/-- A value begins with a character that is no blank and ends no bracket. -/
theorem IsText.exists_cons (h : IsText v cs) :
    ∃ c ds, cs = c :: ds ∧ isBlank c = false ∧ ∀ b : Bracket, c ≠ b.closing := by
  have hbegins (c : Char) (ds : List Char) (hblank : isBlank c = false) (harray : c ≠ ']')
      (hobject : c ≠ '\x7d') :
      ∃ c' ds', c :: ds = c' :: ds' ∧ isBlank c' = false ∧ ∀ b : Bracket, c' ≠ b.closing := by
    refine ⟨c, ds, rfl, hblank, ?_⟩
    rintro (_ | _)
    · exact harray
    · exact hobject
  cases h with
  | number hn =>
    obtain ⟨c, ds, rfl, hc⟩ := hn.exists_cons
    exact hbegins c ds (not_blank_of_sign_or_digit hc)
      (ne_of_sign_or_digit hc (by decide) (by decide))
      (ne_of_sign_or_digit hc (by decide) (by decide))
  | _ => exact hbegins _ _ (by decide) (by decide) (by decide)

end OtaPack.Json
