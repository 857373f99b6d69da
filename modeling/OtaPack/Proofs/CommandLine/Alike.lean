/-
  Two readings of arguments side by side.

  * `Agree R x y`: both outcomes are values that the relation `R` holds of, or both end the reading
    with the same exit code;
  * `readArguments_eq_bind`, `readArguments_append`: arguments are taken one by one;
  * `Respects V`: a relation between the values of two readings that every argument keeps;
  * `Alike V r r'`: two readings that have come to the same point, with values that `V` holds of,
    and wait for the same;
  * `Alike.settle`, `Alike.take`, `Alike.readArguments`: what one argument keeps, and what all
    arguments of a scope keep.
-/
import OtaPack.CommandLine.Request

namespace OtaPack.CommandLine

/-! ## Outcomes -/

/-- The exit code of a run that ends while its arguments are read. -/
def Halt.exitCode : Halt → Nat
  | misuse _ => 2
  | help | version => 0

section
variable {α β γ δ : Type}

/-- Both outcomes are values that `R` holds of, or have the same exit code. -/
inductive Agree (R : α → β → Prop) : Except Halt α → Except Halt β → Prop
  | ok {a : α} {b : β} : R a b → Agree R (.ok a) (.ok b)
  | error {h h' : Halt} : h.exitCode = h'.exitCode → Agree R (.error h) (.error h')

theorem Agree.of_ok {R : α → β → Prop} {a : α} {b : β} (h : Agree R (.ok a) (.ok b)) : R a b := by
  cases h with
  | ok hab => exact hab

/-- An outcome agrees with itself if its value does. -/
theorem Agree.self {R : α → α → Prop} {x : Except Halt α} (h : ∀ a, x = .ok a → R a a) :
    Agree R x x := by
  cases x with
  | ok a => exact .ok (h a rfl)
  | error => exact .error rfl

theorem Agree.bind {R : α → β → Prop} {S : γ → δ → Prop} {x : Except Halt α} {y : Except Halt β}
    {f : α → Except Halt γ} {g : β → Except Halt δ} (h : Agree R x y)
    (hfg : ∀ {a b}, R a b → Agree S (f a) (g b)) : Agree S (x >>= f) (y >>= g) := by
  cases h with
  | ok hab => exact hfg hab
  | error hcode => exact .error hcode

end

/-! ## Steps -/

section
variable {r : Reading} {arg : String}

theorem Reading.takeSlots_cons (args : List String) :
    r.takeSlots (arg :: args) = r.takeSlot arg >>= fun r => r.takeSlots args := by
  rw [takeSlots]
  cases r.takeSlot arg <;> rfl

theorem Reading.takeLetters_switch {c : Char} {spelling : Spelling} {s : Switch}
    (h : r.scope.letter? c = some spelling) (hs : spelling.choice = .switch s) (cs : List Char) :
    r.takeLetters (c :: cs) = r.takeSwitch s >>= fun r => r.takeLetters cs := by
  obtain ⟨long, letter, choice⟩ := spelling
  cases hs
  rw [takeLetters, h]
  dsimp only
  cases r.takeSwitch s <;> rfl

theorem readArguments_eq_bind (hdashes : arg ≠ "--") (args : List String) :
    readArguments r (arg :: args) = r.take arg >>= fun r => readArguments r args := by
  rw [readArguments, if_neg hdashes]
  cases r.take arg <;> rfl

theorem readArguments_append {args : List String} (hdashes : "--" ∉ args) (r : Reading)
    (more : List String) :
    readArguments r (args ++ more) =
      args.foldlM Reading.take r >>= fun r => readArguments r more := by
  induction args generalizing r with
  | nil => rfl
  | cons arg args ih =>
    rw [List.mem_cons, not_or] at hdashes
    obtain ⟨hhead, htail⟩ := hdashes
    rw [List.cons_append, readArguments_eq_bind (Ne.symm hhead), List.foldlM_cons, bind_assoc]
    simp only [ih htail]

end

/-! ## Values -/

/-- A relation between values that every argument keeps. -/
structure Respects (V : Values → Values → Prop) : Prop where
  turnOn : ∀ {v v' : Values}, V v v' → ∀ s, Agree V (v.turnOn s) (v'.turnOn s)
  set : ∀ {v v' : Values}, V v v' → ∀ s text, Agree V (v.set s text) (v'.set s text)
  fill : ∀ {v v' : Values}, V v v' → ∀ slot text, Agree V (v.fill slot text) (v'.fill slot text)

/-! ## Readings -/

/-- What waits is the same, or two values for a setting that may stand for each other. -/
inductive WaitsAlike (V : Values → Values → Prop) : Waiting → Waiting → Prop
  | same {w : Waiting} : WaitsAlike V w w
  | setting {s : Setting} {text text' : String} :
      (∀ {v v' : Values}, V v v' → Agree V (v.set s text) (v'.set s text')) →
      WaitsAlike V (.setting s text) (.setting s text')

/-- Two readings have come to the same point. -/
inductive Alike (V : Values → Values → Prop) : Reading → Reading → Prop
  | intro {scope : Scope} {w w' : Waiting} {v v' : Values} {slots : List Slot} :
      WaitsAlike V w w' → V v v' → Alike V ⟨scope, w, v, slots⟩ ⟨scope, w', v', slots⟩

namespace Alike

variable {V : Values → Values → Prop} {r r' : Reading}

theorem self (h : V r.values r.values) : Alike V r r := .intro .same h

theorem values (h : Alike V r r') : V r.values r'.values := by
  cases h with
  | intro _ hv => exact hv

theorem scope_eq (h : Alike V r r') : r.scope = r'.scope := by
  cases h
  rfl

theorem awaitsValue_eq (h : Alike V r r') : r.awaitsValue = r'.awaitsValue := by
  cases h with
  | intro hw _ => cases hw <;> rfl

section
variable (hV : Respects V)
include hV

theorem settle (h : Alike V r r') : Agree (Alike V) r.settle r'.settle := by
  obtain @⟨scope, w, w', v, v', slots, hw, hv⟩ := h
  cases hw with
  | setting hset => exact (hset hv).bind fun hv => .ok (.intro .same hv)
  | same =>
    cases w with
    | nothing => exact .ok (.intro .same hv)
    | forValue => exact .error rfl
    | setting s text => exact (hV.set hv s text).bind fun hv => .ok (.intro .same hv)
    | slot slot text => exact (hV.fill hv slot text).bind fun hv => .ok (.intro .same hv)

theorem takeSwitch (h : Alike V r r') (s : Switch) :
    Agree (Alike V) (r.takeSwitch s) (r'.takeSwitch s) := by
  refine (h.settle hV).bind ?_
  rintro _ _ ⟨hw, hv⟩
  exact (hV.turnOn hv s).bind fun hv => .ok (.intro hw hv)

theorem takeSetting (h : Alike V r r') (s : Setting) (attached : Option String) :
    Agree (Alike V) (r.takeSetting s attached) (r'.takeSetting s attached) := by
  cases attached with
  | none =>
    refine (h.settle hV).bind ?_
    rintro _ _ ⟨-, hv⟩
    exact .ok (.intro .same hv)
  | some text =>
    refine (h.settle hV).bind ?_
    rintro _ _ ⟨hw, hv⟩
    exact (hV.set hv s text).bind fun hv => .ok (.intro hw hv)

theorem takeOption (h : Alike V r r') (arg : List Char) :
    Agree (Alike V) (r.takeOption arg) (r'.takeOption arg) := by
  unfold Reading.takeOption
  rw [← h.scope_eq]
  dsimp only
  cases r.scope.long? _ with
  | none => exact .error rfl
  | some spelling =>
    obtain ⟨long, letter, choice⟩ := spelling
    cases choice with
    | setting s => exact h.takeSetting hV s _
    | switch s =>
      cases arg.dropWhile (· ≠ '=') with
      | nil => exact h.takeSwitch hV s
      | cons => exact .error rfl

theorem takeLetters (h : Alike V r r') (letters : List Char) :
    Agree (Alike V) (r.takeLetters letters) (r'.takeLetters letters) := by
  induction letters generalizing r r' with
  | nil => exact .ok h
  | cons c cs ih =>
    have hscope := h.scope_eq
    cases hletter : r.scope.letter? c with
    | none =>
      rw [Reading.takeLetters, Reading.takeLetters, ← hscope, hletter]
      exact .error rfl
    | some spelling =>
      cases hs : spelling.choice with
      | switch s =>
        rw [Reading.takeLetters_switch hletter hs,
          Reading.takeLetters_switch (hscope ▸ hletter) hs]
        exact (h.takeSwitch hV s).bind ih
      | setting s =>
        obtain ⟨long, letter, choice⟩ := spelling
        cases hs
        rw [Reading.takeLetters, Reading.takeLetters, ← hscope, hletter]
        dsimp only
        split <;> exact h.takeSetting hV s _

theorem takeSlot (h : Alike V r r') (arg : String) :
    Agree (Alike V) (r.takeSlot arg) (r'.takeSlot arg) := by
  have hsettle := h.settle hV
  obtain @⟨scope, w, w', v, v', slots, hw, hv⟩ := h
  cases slots with
  | nil => cases scope <;> exact .error rfl
  | cons slot slots =>
    refine hsettle.bind ?_
    rintro _ _ ⟨-, hv⟩
    exact .ok (.intro .same hv)

theorem takePlain (h : Alike V r r') (arg : String) :
    Agree (Alike V) (r.takePlain arg) (r'.takePlain arg) := by
  have hslot := h.takeSlot hV arg
  obtain @⟨scope, w, w', v, v', slots, hw, hv⟩ := h
  cases hw with
  | setting => exact hslot
  | same =>
    cases w with
    | forValue s => exact .ok (.intro .same hv)
    | nothing | setting | slot => exact hslot

/-- **What one argument keeps**: two readings stay alike, or end with the same exit code. -/
theorem take (h : Alike V r r') (arg : String) :
    Agree (Alike V) (r.take arg) (r'.take arg) := by
  unfold Reading.take
  split
  · exact h.takeOption hV _
  · exact h.takeLetters hV _
  · exact h.takePlain hV arg

theorem foldlM_take (h : Alike V r r') (args : List String) :
    Agree (Alike V) (args.foldlM Reading.take r) (args.foldlM Reading.take r') := by
  induction args generalizing r r' with
  | nil => exact .ok h
  | cons arg args ih =>
    rw [List.foldlM_cons, List.foldlM_cons]
    exact (h.take hV arg).bind ih

theorem takeSlots (h : Alike V r r') (args : List String) :
    Agree (Alike V) (r.takeSlots args) (r'.takeSlots args) := by
  induction args generalizing r r' with
  | nil => exact h.settle hV
  | cons arg args ih =>
    rw [Reading.takeSlots_cons, Reading.takeSlots_cons]
    exact (h.takeSlot hV arg).bind ih

/-- What all arguments of a scope keep. -/
theorem readArguments (h : Alike V r r') (args : List String) :
    Agree (Alike V) (readArguments r args) (readArguments r' args) := by
  induction args generalizing r r' with
  | nil => exact h.settle hV
  | cons arg args ih =>
    by_cases hdashes : arg = "--"
    · rw [CommandLine.readArguments, CommandLine.readArguments, if_pos hdashes, if_pos hdashes]
      exact h.takeSlots hV args
    · rw [readArguments_eq_bind hdashes, readArguments_eq_bind hdashes]
      exact (h.take hV arg).bind ih

end

end Alike

end OtaPack.CommandLine
