/-
  Command lines that differ in a level for messages.

  * `Level`: the names of levels; `LevelOption`: the ways to give one; `LevelOption.arguments`: its
    arguments; `LevelOption.foldlM_take`: how they are taken;
  * `Leveled`: values that differ in the level alone, which all arguments keep;
  * `Alike.takeLevel`: so does the option with another level.
-/
import OtaPack.Proofs.CommandLine.Alike

namespace OtaPack.CommandLine

/-! ## Options for a level -/

/-- The name of a level. -/
structure Level where
  name : String
  named : (Log.Threshold.ofName? name).isSome

/-- A letter that may stand in front of the one for the level: neither a dash nor the letter of an
    option with a value. -/
structure Flag where
  letter : Char
  plain : letter ∉ ['-', 'v', 'c', 'd']

/-- How the option for the level is given. -/
inductive LevelOption where
  /-- By its letter, behind those of other options, with the level as the next argument. -/
  | letter (flags : List Flag)
  /-- By its letter, with the level right behind it, or behind a `=`. -/
  | attached (flags : List Flag) (equals : Bool)
  /-- By its word, with the level as the next argument. -/
  | word
  /-- By its word, with the level behind a `=`. -/
  | wordAttached

/-- The arguments that give a level. -/
def LevelOption.arguments (l : Level) : LevelOption → List String
  | letter flags => [String.ofList ('-' :: flags.map Flag.letter ++ ['v']), l.name]
  | attached flags equals =>
    [String.ofList ('-' :: flags.map Flag.letter ++
      'v' :: ((if equals then ['='] else []) ++ l.name.toList))]
  | word => ["--verbose", l.name]
  | wordAttached => ["--verbose=" ++ l.name]

namespace Level

variable (l : Level)

theorem mem_names : l.name ∈ ["off", "error", "warn", "info", "debug", "trace"] := by
  obtain ⟨name, named⟩ := l
  unfold Log.Threshold.ofName? at named
  split at named <;> simp at named ⊢

/-- A level does not look like an option, and cannot be taken for what stands in front of one. -/
theorem toList_eq : ∃ c cs, l.name.toList = c :: cs ∧ c ≠ '-' ∧ c ≠ '=' := by
  have h := l.mem_names
  simp only [List.mem_cons, List.not_mem_nil, or_false] at h
  rcases h with h | h | h | h | h | h <;> rw [h] <;> exact ⟨_, _, rfl, by decide, by decide⟩

end Level

/-! ## How options are taken -/

section
variable {r : Reading} {l : Level}

theorem Scope.letter?_verbose (scope : Scope) :
    scope.letter? 'v' = some ⟨"verbose", some 'v', .setting .verbose⟩ := by
  rcases scope with _ | _ | _ | _ | _ | _ <;> decide

theorem Scope.long?_verbose (scope : Scope) :
    scope.long? "verbose" = some ⟨"verbose", some 'v', .setting .verbose⟩ := by
  rcases scope with _ | _ | _ | _ | _ | _ <;> decide

/-- Only three letters are those of options with a value. -/
theorem Scope.letter_of_setting {scope : Scope} {spelling : Spelling} {s : Setting}
    (hmem : spelling ∈ scope.options) (hs : spelling.choice = .setting s) :
    ∃ c ∈ ['v', 'c', 'd'], spelling.letter = some c := by
  rcases scope with _ | _ | _ | _ | _ | _ <;>
    simp only [options, ownOptions, commonOptions, List.cons_append, List.nil_append,
      List.mem_cons, List.not_mem_nil, or_false] at hmem <;>
    rcases hmem with rfl | rfl | rfl | rfl <;> first | exact ⟨_, by decide, rfl⟩ | cases hs

theorem Scope.switch_of_letter? {scope : Scope} {f : Flag} {spelling : Spelling}
    (h : scope.letter? f.letter = some spelling) : ∃ s, spelling.choice = .switch s := by
  have hletter : spelling.letter = some f.letter := by simpa using List.find?_some h
  cases hs : spelling.choice with
  | switch s => exact ⟨s, rfl⟩
  | setting s =>
    obtain ⟨c, hc, hspelling⟩ := letter_of_setting (List.mem_of_find?_eq_some h) hs
    obtain rfl : c = f.letter := Option.some.inj (hspelling.symm.trans hletter)
    exact absurd (List.mem_cons_of_mem _ hc) f.plain

/-- Letters of switches are taken before those that follow them. -/
theorem Reading.takeLetters_append (flags : List Flag) (letters : List Char) :
    r.takeLetters (flags.map Flag.letter ++ letters) =
      r.takeLetters (flags.map Flag.letter) >>= fun r => r.takeLetters letters := by
  induction flags generalizing r with
  | nil => rfl
  | cons f flags ih =>
    rw [List.map_cons, List.cons_append]
    cases hletter : r.scope.letter? f.letter with
    | none =>
      rw [takeLetters, hletter, takeLetters, hletter]
      rfl
    | some spelling =>
      obtain ⟨s, hs⟩ := Scope.switch_of_letter? hletter
      rw [takeLetters_switch hletter hs, takeLetters_switch hletter hs, bind_assoc]
      simp only [ih]

theorem Reading.takeLetters_verbose : r.takeLetters ['v'] = r.takeSetting .verbose none := by
  rw [takeLetters, Scope.letter?_verbose]

theorem Reading.takeLetters_attached (l : Level) (equals : Bool) :
    r.takeLetters ('v' :: ((if equals then ['='] else []) ++ l.name.toList)) =
      r.takeSetting .verbose (some l.name) := by
  obtain ⟨c, cs, hl, -, hequals⟩ := l.toList_eq
  have hname : String.ofList (c :: cs) = l.name := by rw [← hl, String.ofList_toList]
  rw [takeLetters, Scope.letter?_verbose, hl]
  cases equals with
  | true =>
    rw [← hname]
    rfl
  | false =>
    dsimp only
    split
    · rename_i heq
      cases heq
    · rename_i heq
      exact absurd (List.cons.inj heq).1 hequals
    · rw [← hname]
      rfl

/-- What starts with one dash is taken by its letters. -/
theorem Reading.take_letters {c : Char} (hc : c ≠ '-') (letters : List Char) :
    r.take (String.ofList ('-' :: c :: letters)) = r.takeLetters (c :: letters) := by
  unfold take
  rw [String.toList_ofList]
  split
  · rename_i heq
    cases heq
    exact absurd rfl hc
  · rename_i heq
    cases heq
    rfl
  · rename_i hletters
    exact absurd rfl (hletters c letters)

theorem Reading.take_verbose : r.take "--verbose" = r.takeSetting .verbose none := by
  have htake : r.take "--verbose" = r.takeOption "verbose".toList := rfl
  have hword : String.ofList ("verbose".toList.takeWhile (· ≠ '=')) = "verbose" := rfl
  rw [htake, takeOption, hword, Scope.long?_verbose]
  rfl

theorem Reading.take_verboseAttached (name : String) :
    r.take ("--verbose=" ++ name) = r.takeSetting .verbose (some name) := by
  have htake : r.take ("--verbose=" ++ name) = r.takeOption ("verbose=".toList ++ name.toList) := by
    rw [take, String.toList_append]
    rfl
  have hword : String.ofList (("verbose=".toList ++ name.toList).takeWhile (· ≠ '=')) =
      "verbose" := rfl
  rw [htake, takeOption, hword, Scope.long?_verbose]
  have hname : String.ofList name.toList = name := String.ofList_toList
  exact congrArg (fun name => r.takeSetting .verbose (some name)) hname

/-- What does not start with a dash is no option. -/
theorem Reading.take_name (l : Level) : r.take l.name = r.takePlain l.name := by
  obtain ⟨c, cs, hl, hdash, -⟩ := l.toList_eq
  unfold take
  rw [hl]
  split
  · rename_i heq
    exact absurd (List.cons.inj heq).1 hdash
  · rename_i heq
    exact absurd (List.cons.inj heq).1 hdash
  · rfl

/-- A level that is given with the option, or as the next argument. -/
def Reading.takeLevel (r : Reading) (l : Level) : (attached : Bool) → Except Halt Reading
  | true => r.takeSetting .verbose (some l.name)
  | false => do
    let r ← r.takeSetting .verbose none
    r.takePlain l.name

/-- A level that is the next argument waits, and is looked at later. -/
theorem Reading.takeLevel_next :
    r.takeLevel l false =
      r.settle >>= fun r => .ok { r with waiting := .setting .verbose l.name } := by
  rw [takeLevel, takeSetting, bind_assoc]
  rfl

namespace LevelOption

/-- The letters in front of the one for the level. -/
def flags : LevelOption → List Flag
  | letter flags | attached flags _ => flags
  | word | wordAttached => []

def isAttached : LevelOption → Bool
  | letter _ | word => false
  | attached _ _ | wordAttached => true

/-- To take the option for a level is to take the letters in front of it, and then the level. -/
theorem foldlM_take (o : LevelOption) :
    (o.arguments l).foldlM Reading.take r =
      r.takeLetters (o.flags.map Flag.letter) >>= fun r => r.takeLevel l o.isAttached := by
  have hletters (flags : List Flag) (letters : List Char) :
      r.take (String.ofList ('-' :: flags.map Flag.letter ++ 'v' :: letters)) =
        r.takeLetters (flags.map Flag.letter) >>= fun r => r.takeLetters ('v' :: letters) := by
    rw [← Reading.takeLetters_append]
    cases flags with
    | nil => exact Reading.take_letters (by decide) _
    | cons f flags => exact Reading.take_letters (List.ne_of_not_mem_cons f.plain) _
  cases o with
  | letter flags =>
    rw [arguments, List.foldlM_cons, hletters, bind_assoc]
    simp only [Reading.takeLetters_verbose, List.foldlM_cons, List.foldlM_nil, Reading.take_name,
      bind_pure]
    rfl
  | attached flags equals =>
    rw [arguments, List.foldlM_cons, hletters, bind_assoc]
    simp only [Reading.takeLetters_attached, List.foldlM_nil, bind_pure]
    rfl
  | word =>
    rw [arguments, List.foldlM_cons, Reading.take_verbose]
    simp only [List.foldlM_cons, List.foldlM_nil, Reading.take_name, bind_pure]
    rfl
  | wordAttached =>
    rw [arguments, List.foldlM_cons, Reading.take_verboseAttached]
    simp only [List.foldlM_nil, bind_pure]
    rfl

end LevelOption

end

/-! ## Values that differ in the level -/

namespace Values

variable (v : Values) (t : Option Log.Threshold)

/-- The values with another level, or with none. -/
def withLevel : Values :=
  { v with verbosity := t }

theorem turnOn_withLevel (s : Switch) :
    (v.withLevel t).turnOn s = (v.turnOn s).map fun v => v.withLevel t := by
  have hhas : (v.withLevel t).has (.switch s) = v.has (.switch s) := rfl
  unfold turnOn
  rw [hhas]
  split
  · rfl
  · cases s <;> rfl

theorem set_withLevel {s : Setting} (hs : s ≠ .verbose) (text : String) :
    (v.withLevel t).set s text = (v.set s text).map fun v => v.withLevel t := by
  have hhas : (v.withLevel t).has (.setting s) = v.has (.setting s) := by
    cases s with
    | verbose => exact absurd rfl hs
    | chunkSize | delay => rfl
  unfold set
  rw [hhas]
  split
  · rfl
  · cases s with
    | verbose => exact absurd rfl hs
    | chunkSize | delay => cases numberFor _ text <;> rfl

theorem fill_withLevel (slot : Slot) (text : String) :
    (v.withLevel t).fill slot text = (v.fill slot text).map fun v => v.withLevel t := by
  cases slot with
  | board =>
    rw [fill, fill]
    cases Board.lookup text <;> rfl
  | input | output => rfl

theorem set_verbose_withLevel (text : String) :
    (v.withLevel t).set .verbose text =
      if t.isSome then .error (.misuse (.repeated (.setting .verbose)))
      else match Log.Threshold.ofName? text with
        | some t => .ok (v.withLevel (some t))
        | none => .error (.misuse (if text = "" then .missingValue .verbose
            else .invalidValue .verbose text)) := rfl

end Values

/-- The same values, but for the level: if one has been given, another one may have been. -/
inductive Leveled : Values → Values → Prop
  | intro (v : Values) {t t' : Option Log.Threshold} (h : t.isSome = t'.isSome) :
      Leveled (v.withLevel t) (v.withLevel t')

section
variable {v v' : Values}

theorem Leveled.map {t t' : Option Log.Threshold} (h : t.isSome = t'.isSome)
    (x : Except Halt Values) :
    Agree Leveled (x.map fun v => v.withLevel t) (x.map fun v => v.withLevel t') := by
  cases x with
  | error halt => exact .error rfl
  | ok v => exact .ok (.intro v h)

/-- One level is as good as another. -/
theorem Leveled.set_verbose (hv : Leveled v v') {text text' : String}
    (h : (Log.Threshold.ofName? text).isSome = (Log.Threshold.ofName? text').isSome) :
    Agree Leveled (v.set .verbose text) (v'.set .verbose text') := by
  obtain ⟨v, ht⟩ := hv
  rw [Values.set_verbose_withLevel, Values.set_verbose_withLevel, ht]
  split
  · exact .error rfl
  · revert h
    cases Log.Threshold.ofName? text <;> cases Log.Threshold.ofName? text' <;> intro h
    case none.none => exact .error rfl
    case some.some => exact .ok (.intro v rfl)
    all_goals cases h

theorem respects_leveled : Respects Leveled where
  turnOn := by
    rintro _ _ ⟨v, h⟩ s
    rw [Values.turnOn_withLevel, Values.turnOn_withLevel]
    exact Leveled.map h _
  set := by
    intro v v' hv s text
    by_cases hs : s = .verbose
    · rw [hs]
      exact hv.set_verbose rfl
    · obtain ⟨v, h⟩ := hv
      rw [Values.set_withLevel v _ hs, Values.set_withLevel v _ hs]
      exact Leveled.map h _
  fill := by
    rintro _ _ ⟨v, h⟩ slot text
    rw [Values.fill_withLevel, Values.fill_withLevel]
    exact Leveled.map h _

end

/-! ## Command lines that differ in the level -/

/-- To take another level keeps readings alike. -/
theorem Alike.takeLevel {r r' : Reading} (h : Alike Leveled r r') (l l' : Level)
    (attached : Bool) :
    Agree (Alike Leveled) (r.takeLevel l attached) (r'.takeLevel l' attached) := by
  have hnamed := l.named.trans l'.named.symm
  cases attached with
  | true =>
    refine (h.settle respects_leveled).bind ?_
    rintro _ _ ⟨hw, hv⟩
    exact (hv.set_verbose hnamed).bind fun hv => .ok (.intro hw hv)
  | false =>
    rw [Reading.takeLevel_next, Reading.takeLevel_next]
    refine (h.settle respects_leveled).bind ?_
    rintro _ _ ⟨-, hv⟩
    exact .ok (.intro (.setting fun hv => hv.set_verbose hnamed) hv)

end OtaPack.CommandLine
