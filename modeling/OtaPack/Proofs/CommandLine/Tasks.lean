/-
  What command lines that differ in a level ask for.

  * `SameTask`: requests that differ in the threshold for messages alone;
  * `Alike.readProgram_append`: readings that are alike, and go on alike, ask for the same;
  * `sameTask_of_levels`: so do command lines that differ in a level;
  * `runOn_alike`: and then their runs end alike; `Asks.runOn_alike`: so do all runs for one job.
-/
import OtaPack.Proofs.CommandLine.Asks
import OtaPack.Proofs.CommandLine.Levels

namespace OtaPack.CommandLine

/-! ## Requests -/

/-- Requests for the same, under thresholds that may differ. -/
inductive SameTask : Request → Request → Prop
  | nothing : SameTask .nothing .nothing
  | boards : SameTask .boards .boards
  | job (t t' : Log.Threshold) (j : Job) : SameTask (.job t j) (.job t' j)
  | unresolved : SameTask .unresolved .unresolved

/-- Commands for the same. -/
def SameJob (i i' : Inner) : Prop :=
  i.task = i'.task

/-- A task is the same request under all thresholds. -/
theorem sameTask_request (t t' : Log.Threshold) (task : Task) :
    SameTask (task.request t) (task.request t') := by
  unfold Task.request
  cases task.conversion.resolve? Board.find? with
  | none => exact .unresolved
  | some conversion => exact .job t t' _

section
variable {v v' : Values}

theorem Leveled.conversion_eq (h : Leveled v v') (c : Command) :
    v.conversion c = v'.conversion c := by
  obtain ⟨v, -⟩ := h
  rfl

theorem Leveled.files_eq (h : Leveled v v') : v.files = v'.files := by
  obtain ⟨v, -⟩ := h
  rfl

theorem Leveled.isSome_eq (h : Leveled v v') : v.verbosity.isSome = v'.verbosity.isSome := by
  obtain ⟨v, h⟩ := h
  exact h

end

/-! ## Steps -/

section
variable {r : Reading} {arg : String}

/-- A word that is neither the end of options nor a command is taken as an argument. -/
theorem readProgram_eq_bind (hdashes : arg ≠ "--")
    (htaken : r.awaitsValue ∨ arg ≠ "help" ∧ Command.ofName? arg = none) (args : List String) :
    readProgram r (arg :: args) = r.take arg >>= fun r => readProgram r args := by
  rw [readProgram, if_neg hdashes]
  split
  · cases r.take arg <;> rfl
  · rename_i hwaits
    obtain ⟨hhelp, hcommand⟩ := htaken.resolve_left hwaits
    rw [if_neg hhelp, hcommand]
    cases r.take arg <;> rfl

theorem readProgram_command {c : Command} (hwaits : ¬r.awaitsValue)
    (hcommand : Command.ofName? arg = some c) (args : List String) :
    readProgram r (arg :: args) = readCommand c args >>= finish r := by
  have hdashes : arg ≠ "--" := by
    rintro rfl
    cases hcommand
  have hhelp : arg ≠ "help" := by
    rintro rfl
    cases hcommand
  rw [readProgram, if_neg hdashes, if_neg hwaits, if_neg hhelp, hcommand]

theorem readProgram_help (hwaits : ¬r.awaitsValue) (args : List String) :
    readProgram r ("help" :: args) = .error (readHelp args) := by
  rw [readProgram, if_neg (by decide), if_neg hwaits, if_pos rfl]

end

/-! ## Words that are no commands -/

/-- A word that is taken as an argument wherever it stands. -/
structure Plain (arg : String) : Prop where
  dashes : arg ≠ "--"
  help : arg ≠ "help"
  command : Command.ofName? arg = none

theorem plain_of_dash {arg : String} {c : Char} {cs : List Char} (h : arg.toList = '-' :: c :: cs)
    (hne : c ≠ '-' ∨ cs ≠ []) : Plain arg where
  dashes := by
    rintro rfl
    have hdash : ['-', '-'] = '-' :: c :: cs := h
    cases hdash
    simp at hne
  help := by
    rintro rfl
    cases h
  command := by
    unfold Command.ofName?
    split <;> first | rfl | cases h

theorem Level.plain (l : Level) : Plain l.name := by
  have h := l.mem_names
  simp only [List.mem_cons, List.not_mem_nil, or_false] at h
  rcases h with h | h | h | h | h | h <;> rw [h] <;> exact ⟨by decide, by decide, by decide⟩

theorem LevelOption.plain (o : LevelOption) (l : Level) : ∀ arg ∈ o.arguments l, Plain arg := by
  have hflags (flags : List Flag) (letters : List Char) :
      Plain (String.ofList ('-' :: flags.map Flag.letter ++ 'v' :: letters)) := by
    cases flags with
    | nil => exact plain_of_dash String.toList_ofList (.inl (by decide))
    | cons f flags =>
      exact plain_of_dash String.toList_ofList (.inl (List.ne_of_not_mem_cons f.plain))
  cases o with
  | letter flags =>
    exact List.forall_mem_cons.2 ⟨hflags flags [], List.forall_mem_singleton.2 l.plain⟩
  | attached flags equals => exact List.forall_mem_singleton.2 (hflags flags _)
  | word =>
    have hword : Plain "--verbose" := ⟨by decide, by decide, by decide⟩
    exact List.forall_mem_cons.2 ⟨hword, List.forall_mem_singleton.2 l.plain⟩
  | wordAttached =>
    have hchars : ("--verbose=" ++ l.name).toList =
        '-' :: '-' :: ("verbose=".toList ++ l.name.toList) := String.toList_append
    refine List.forall_mem_singleton.2 (plain_of_dash hchars (.inr ?_))
    exact List.append_ne_nil_of_left_ne_nil (by decide) _

theorem readProgram_append {args : List String} (hargs : ∀ arg ∈ args, Plain arg) (r : Reading)
    (more : List String) :
    readProgram r (args ++ more) = args.foldlM Reading.take r >>= fun r => readProgram r more := by
  induction args generalizing r with
  | nil => rfl
  | cons arg args ih =>
    obtain ⟨harg, hargs⟩ := List.forall_mem_cons.1 hargs
    rw [List.cons_append, readProgram_eq_bind harg.dashes (.inr ⟨harg.help, harg.command⟩),
      List.foldlM_cons, bind_assoc]
    simp only [ih hargs]

/-- Nobody is helped with a word that is no command. -/
theorem exitCode_readHelp {arg : String} (h : Plain arg) (names more : List String) :
    (readHelp (names ++ arg :: more)).exitCode = 2 := by
  rcases names with _ | ⟨name, _ | ⟨other, names⟩⟩
  · rcases more with _ | ⟨other, more⟩
    · rw [List.nil_append, readHelp, if_neg]
      · rfl
      · simp [h.help, h.command]
    · rw [List.nil_append, readHelp]
      split <;> rfl
  · rw [List.singleton_append, readHelp]
    split <;> rfl
  · rw [List.cons_append, List.cons_append, readHelp]
    split <;> rfl

/-! ## Readings that go on alike -/

/-- Commands whose arguments are read alike are for the same. -/
theorem Agree.readCommand {c : Command} {args args' : List String}
    (h : Agree (Alike Leveled) (readArguments (.start (.command c)) args)
      (readArguments (.start (.command c)) args')) :
    Agree SameJob (readCommand c args) (readCommand c args') := by
  refine h.bind fun {r r'} hr => ?_
  rw [hr.values.conversion_eq, hr.values.files_eq]
  cases r'.values.conversion c with
  | error halt => exact .error rfl
  | ok conversion =>
    cases conversion with
    | none => exact .ok rfl
    | some conversion =>
      cases r'.values.files with
      | error halt => exact .error rfl
      | ok files => exact .ok rfl

namespace Alike

variable {r r' : Reading} (h : Alike Leveled r r')
include h

theorem finish {i i' : Inner} (hi : SameJob i i') :
    Agree SameTask (finish r i) (finish r' i') := by
  refine (h.settle respects_leveled).bind fun {r r'} hr => ?_
  rw [hi]
  cases i'.task with
  | none => exact .ok .boards
  | some task => exact .ok (sameTask_request _ _ task)

theorem nothing : Agree SameTask
    (if r.values.verbosity.isSome then .ok .nothing else .error (.misuse .nothingGiven))
    (if r'.values.verbosity.isSome then .ok .nothing else .error (.misuse .nothingGiven)) := by
  rw [h.values.isSome_eq]
  split
  · exact .ok .nothing
  · exact .error rfl

/-- Two lines that begin alike ask for the same, if whatever reads their rests goes on alike. -/
theorem readProgram_append {front tail tail' : List String} (hdashes : "--" ∉ front)
    (hprogram : ∀ {r r' : Reading}, Alike Leveled r r' →
      Agree SameTask (CommandLine.readProgram r tail) (CommandLine.readProgram r' tail'))
    (hcommand : ∀ {r r' : Reading}, Alike Leveled r r' →
      Agree (Alike Leveled) (CommandLine.readArguments r tail) (CommandLine.readArguments r' tail'))
    (hhelp : ∀ names, (readHelp (names ++ tail)).exitCode = (readHelp (names ++ tail')).exitCode) :
    Agree SameTask (CommandLine.readProgram r (front ++ tail))
      (CommandLine.readProgram r' (front ++ tail')) := by
  induction front generalizing r r' with
  | nil => exact hprogram h
  | cons arg front ih =>
    rw [List.mem_cons, not_or] at hdashes
    obtain ⟨hhead, hdashes⟩ := hdashes
    rw [List.cons_append, List.cons_append]
    have htake (hr : r.awaitsValue ∨ arg ≠ "help" ∧ Command.ofName? arg = none) :
        Agree SameTask (CommandLine.readProgram r (arg :: (front ++ tail)))
          (CommandLine.readProgram r' (arg :: (front ++ tail'))) := by
      rw [readProgram_eq_bind (Ne.symm hhead) hr,
        readProgram_eq_bind (Ne.symm hhead) (h.awaitsValue_eq ▸ hr)]
      exact (h.take respects_leveled arg).bind fun hr => ih hr hdashes
    by_cases hwaits : r.awaitsValue
    · exact htake (.inl hwaits)
    have hwaits' : ¬r'.awaitsValue := h.awaitsValue_eq ▸ hwaits
    by_cases hword : arg = "help"
    · rw [hword, readProgram_help hwaits, readProgram_help hwaits']
      exact .error (hhelp front)
    cases hname : Command.ofName? arg with
    | none => exact htake (.inr ⟨hword, hname⟩)
    | some c =>
      rw [readProgram_command hwaits hname, readProgram_command hwaits' hname]
      have hstart : Alike Leveled (.start (.command c)) (.start (.command c)) :=
        .self (.intro {} rfl)
      have hread : Agree (Alike Leveled)
          (CommandLine.readArguments (.start (.command c)) (front ++ tail))
          (CommandLine.readArguments (.start (.command c)) (front ++ tail')) := by
        rw [readArguments_append hdashes, readArguments_append hdashes]
        exact (hstart.foldlM_take respects_leveled front).bind hcommand
      exact hread.readCommand.bind h.finish

/-- The same line asks for the same. -/
theorem readProgram (args : List String) :
    Agree SameTask (CommandLine.readProgram r args) (CommandLine.readProgram r' args) := by
  by_cases hdashes : "--" ∈ args
  · obtain ⟨front, back, rfl, hfront⟩ := List.eq_append_cons_of_mem hdashes
    refine h.readProgram_append hfront (fun hr => ?_)
      (fun hr => hr.readArguments respects_leveled _) fun _ => rfl
    exact (hr.takeSlots respects_leveled back).bind nothing
  · have hnil : args = args ++ [] := (List.append_nil args).symm
    rw [hnil]
    refine h.readProgram_append hdashes (fun hr => ?_)
      (fun hr => hr.readArguments respects_leveled _) fun _ => rfl
    exact (hr.settle respects_leveled).bind nothing

theorem takeOption_level (o : LevelOption) (l l' : Level) :
    Agree (Alike Leveled) ((o.arguments l).foldlM Reading.take r)
      ((o.arguments l').foldlM Reading.take r') := by
  rw [o.foldlM_take, o.foldlM_take]
  exact (h.takeLetters respects_leveled _).bind fun hr => hr.takeLevel l l' o.isAttached

end Alike

/-! ## Command lines -/

/-- Command lines that differ in a level ask for the same, or end with the same exit code. -/
theorem sameTask_of_levels {front : List String} (hdashes : "--" ∉ front) (o : LevelOption)
    (back : List String) (l l' : Level) :
    Agree SameTask (Request.ofArguments (front ++ (o.arguments l ++ back)))
      (Request.ofArguments (front ++ (o.arguments l' ++ back))) := by
  have hstart : Alike Leveled (.start .program) (.start .program) := .self (.intro {} rfl)
  have hdashes' (l : Level) : "--" ∉ o.arguments l := fun hmem => (o.plain l _ hmem).dashes rfl
  refine hstart.readProgram_append hdashes (fun hr => ?_) (fun hr => ?_) fun names => ?_
  · rw [readProgram_append (o.plain l), readProgram_append (o.plain l')]
    exact (hr.takeOption_level o l l').bind fun hr => hr.readProgram back
  · rw [readArguments_append (hdashes' l), readArguments_append (hdashes' l')]
    exact (hr.takeOption_level o l l').bind fun hr => hr.readArguments respects_leveled back
  · have hcode (l : Level) : (readHelp (names ++ (o.arguments l ++ back))).exitCode = 2 := by
      obtain ⟨arg, more, harguments⟩ : ∃ arg more, o.arguments l = arg :: more := by
        cases o <;> exact ⟨_, _, rfl⟩
      have harg : Plain arg := o.plain l arg (harguments ▸ List.mem_cons_self)
      rw [harguments, List.cons_append]
      exact exitCode_readHelp harg names _
    rw [hcode, hcode]

/-- A run without a request ends with the exit code of what ended the reading. -/
theorem exitCode_of_halt {args : List String} {halt : Halt}
    (h : Request.ofArguments args = .error halt) (host : Host) :
    (runOn args host).1.exitCode = halt.exitCode := by
  cases halt with
  | misuse reason => exact (runOn_of_halt h host).2 reason rfl
  | help | version =>
    rw [runOn, run, h]
    rfl

/-- Runs for the same job end alike, whatever is shown. -/
theorem Asks.runOn_alike {args args' : List String} {job : Job} (h : Asks args job)
    (h' : Asks args' job) (host : Host) :
    (runOn args host).1.exitCode = (runOn args' host).1.exitCode ∧
      (runOn args host).2.directory = (runOn args' host).2.directory := by
  obtain ⟨hdirectory, hends⟩ := h.runOn_eq host
  obtain ⟨hdirectory', hends'⟩ := h'.runOn_eq host
  refine ⟨?_, hdirectory.trans hdirectory'.symm⟩
  rcases hends with ⟨hcode, hok⟩ | ⟨hcode, x, herror⟩ <;>
    rcases hends' with ⟨hcode', hok'⟩ | ⟨hcode', x', herror'⟩
  · rw [hcode, hcode']
  · rw [hok] at herror'
    cases herror'
  · rw [herror] at hok'
    cases hok'
  · rw [hcode, hcode']

/-- Command lines that ask for the same end alike. -/
theorem runOn_alike {args args' : List String}
    (h : Agree SameTask (Request.ofArguments args) (Request.ofArguments args')) (host : Host) :
    (runOn args host).1.exitCode = (runOn args' host).1.exitCode ∧
      (runOn args host).2.directory = (runOn args' host).2.directory := by
  generalize hx : Request.ofArguments args = x at h
  generalize hy : Request.ofArguments args' = y at h
  cases h with
  | error hcode =>
    rw [exitCode_of_halt hx, exitCode_of_halt hy, (runOn_of_halt hx host).1,
      (runOn_of_halt hy host).1]
    exact ⟨hcode, rfl⟩
  | ok htask =>
    cases htask with
    | nothing | boards | unresolved =>
      rw [runOn, runOn, run, run, hx, hy]
      exact ⟨rfl, rfl⟩
    | job t t' j => exact Asks.runOn_alike ⟨t, hx⟩ ⟨t', hy⟩ host

end OtaPack.CommandLine
