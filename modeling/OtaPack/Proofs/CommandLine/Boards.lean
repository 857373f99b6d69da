/-
  The board that a command line names.

  * `Values.fill_board`: a name fills the slot of the board if it is looked up with success, and
    with the name of what is found then;
  * `Supported`: values whose board is called by a name that is found, which all arguments keep;
    `finish_of_readProgram`: a request is what some command asks for; so its board is found again
    (`ne_unresolved_of_finish`), and is supported (`find?_of_finish`);
  * `board_resolution`: how names of boards are resolved, in the library and on command lines.
-/
import OtaPack.Proofs.Board
import OtaPack.Proofs.CommandLine.Alike
import OtaPack.Outcome

namespace OtaPack

open Text

namespace CommandLine

/-! ## The slot of the board -/

theorem Values.fill_board (v : Values) (name : String) :
    v.fill .board name =
      match Board.lookup name with
      | .ok b => .ok { v with board := some b.name }
      | .error e => .error (.misuse (.unknownBoard name e)) := rfl

/-! ## Values with a supported board -/

section
variable {v v' : Values} {s : Setting} {slot : Slot} {text : String}

theorem Values.board_of_turnOn {s : Switch} (h : v.turnOn s = .ok v') : v'.board = v.board := by
  unfold Values.turnOn at h
  split at h
  · cases h
  · cases s <;> cases h <;> rfl

theorem Values.board_of_set (h : v.set s text = .ok v') : v'.board = v.board := by
  unfold Values.set at h
  split at h
  · cases h
  · cases s with
    | verbose =>
      dsimp only at h
      split at h <;> cases h
      rfl
    | chunkSize | delay =>
      obtain ⟨w, -, rfl⟩ := exists_of_map_eq_ok h
      rfl

/-- The name that fills the slot of the board is found again. -/
theorem Values.find?_of_fill (hv : ∀ name, v.board = some name → ∃ b, Board.find? name = some b)
    (h : v.fill slot text = .ok v') :
    ∀ name, v'.board = some name → ∃ b, Board.find? name = some b := by
  cases slot with
  | board =>
    rw [Values.fill_board] at h
    split at h
    · rename_i b hfound
      cases h
      rintro _ ⟨⟩
      exact ⟨b, Board.find?_name (Board.find?_eq_some (Board.lookup_eq_ok.1 hfound)).1⟩
    · cases h
  | input | output =>
    cases h
    exact hv

end

/-- The same values, whose board is called by a name that is found, if there is one. -/
structure Supported (v v' : Values) : Prop where
  eq : v = v'
  found : ∀ name, v.board = some name → ∃ b, Board.find? name = some b

theorem respects_supported : Respects Supported where
  turnOn := by
    rintro v _ ⟨rfl, hv⟩ s
    exact .self fun v' h => ⟨rfl, by rwa [Values.board_of_turnOn h]⟩
  set := by
    rintro v _ ⟨rfl, hv⟩ s text
    exact .self fun v' h => ⟨rfl, by rwa [Values.board_of_set h]⟩
  fill := by
    rintro v _ ⟨rfl, hv⟩ slot text
    exact .self fun v' h => ⟨rfl, Values.find?_of_fill hv h⟩

/-- The name of the board of a command is found. -/
theorem find?_of_readArguments {scope : Scope} {args : List String} {r : Reading}
    (h : readArguments (.start scope) args = .ok r) :
    ∀ name, r.values.board = some name → ∃ b, Board.find? name = some b := by
  have hstart : Alike Supported (.start scope) (.start scope) := .self ⟨rfl, nofun⟩
  have hread := hstart.readArguments respects_supported args
  rw [h] at hread
  exact hread.of_ok.values.found

/-! ## Requests for containers -/

section
variable {name : String} {board : Board} {mode : Mode} {args : List String}
  {threshold : Log.Threshold} {request : Request} {r : Reading} {inner : Inner}

/-- A request is what some command asks for, or nothing. -/
theorem finish_of_readProgram (h : readProgram r args = .ok request) :
    request = .nothing ∨
      ∃ c rest r inner, readCommand c rest = .ok inner ∧ finish r inner = .ok request := by
  fun_induction readProgram r args with
  | case1 | case2 =>
    -- Without a command nothing is asked for.
    obtain ⟨r, -, h⟩ := exists_of_bind_eq_ok h
    split at h <;> cases h
    exact .inl rfl
  | case3 | case7 => rename_i ih; exact ih h
  | case4 | case5 | case8 => cases h
  | case6 r arg args _ _ _ c =>
    obtain ⟨inner, hcommand, h⟩ := exists_of_bind_eq_ok h
    exact .inr ⟨c, args, r, inner, hcommand, h⟩

/-- Only the command that makes containers asks for one, and its board is the one that was read. -/
theorem Values.board_of_conversion {v : Values} {c : Command}
    (h : v.conversion c = .ok (some (.container name mode))) : v.board = some name := by
  cases c with
  | encode =>
    obtain ⟨mode', -, h⟩ := exists_of_bind_eq_ok h
    cases hboard : v.board with
    | none =>
      rw [hboard] at h
      cases h
    | some b =>
      rw [hboard] at h
      cases h
      rfl
  | base64 | json | boards => cases h
  | lzss =>
    obtain ⟨direction, hdirection, h⟩ := exists_of_bind_eq_ok h
    cases h
    unfold Values.direction at hdirection
    split_ifs at hdirection <;> cases hdirection

/-- The board of a container that a command asks for is found by its name. -/
theorem find?_of_readCommand {c : Command} {input output : String}
    (h : readCommand c args = .ok inner)
    (htask : inner.task = some ⟨.container name mode, input, output⟩) :
    ∃ b, Board.find? name = some b := by
  obtain ⟨r, hread, h⟩ := exists_of_bind_eq_ok h
  obtain ⟨conversion, hconversion, h⟩ := exists_of_bind_eq_ok h
  cases conversion with
  | none =>
    cases h
    cases htask
  | some conversion =>
    obtain ⟨files, -, h⟩ := exists_of_bind_eq_ok h
    cases h
    cases htask
    exact find?_of_readArguments hread name (Values.board_of_conversion hconversion)

/-- A board that has been read is found again. -/
theorem ne_unresolved_of_finish {c : Command} (h : readCommand c args = .ok inner)
    (hfinish : finish r inner = .ok request) : request ≠ .unresolved := by
  obtain ⟨r, -, hfinish⟩ := exists_of_bind_eq_ok hfinish
  obtain ⟨task, verbosity⟩ := inner
  cases task with
  | none =>
    cases hfinish
    nofun
  | some task =>
    cases hfinish
    obtain ⟨conversion, input, output⟩ := task
    cases conversion with
    | container name mode =>
      obtain ⟨b, hb⟩ := find?_of_readCommand h rfl
      rw [Task.request, Conversion.resolve?, hb]
      nofun
    | base64 | document | compress | decompress => nofun

/-- The board of a job is a supported one. -/
theorem find?_of_finish {input output : String}
    (h : finish r inner = .ok (.job threshold ⟨.container board mode, input, output⟩)) :
    Board.find? board.name = some board := by
  obtain ⟨r, -, h⟩ := exists_of_bind_eq_ok h
  obtain ⟨task, verbosity⟩ := inner
  cases task with
  | none => cases h
  | some task =>
    obtain ⟨conversion, input, output⟩ := task
    have hrequest := Except.ok.inj h
    cases conversion with
    | container name mode =>
      dsimp only at hrequest
      rw [Task.request, Conversion.resolve?] at hrequest
      cases hfound : Board.find? name with
      | none =>
        rw [hfound] at hrequest
        cases hrequest
      | some b =>
        rw [hfound] at hrequest
        cases hrequest
        exact Board.find?_name (Board.find?_eq_some hfound).1
    | base64 | document | compress | decompress => cases hrequest

end

/-! ## The resolution of names -/

/-- **The resolution of names.**  A board is found under its own name, up to the case of the letters
    of ASCII, and under nothing else, and it is the only one that could be found.  Any other name is
    refused as it is, with the names of all boards.  So names that agree up to the case of such
    letters make the same containers, or none at all, whatever the payload is.  A command line takes
    the names that are found and no others, and keeps the name of what is found; that name is found
    again, as the same board, so no command line ends with a board that is not. -/
theorem board_resolution (s : String) :
    (∀ t, SameLetters s t ↔ List.Forall₂ SameLetter s.toList t.toList) ∧
    (∀ b, Board.lookup s = .ok b ↔ b ∈ Board.all ∧ SameLetters s b.name) ∧
    (∀ b, Board.lookup s = .ok b → Board.all.filter (fun b => SameLetters s b.name) = [b]) ∧
    (∀ e, Board.lookup s = .error e ↔
      e = .unknownBoard s Board.supported ∧ ∀ b ∈ Board.all, ¬ SameLetters s b.name) ∧
    (PackError.unknownBoard s Board.supported).message =
      s ++ " is not a supported board type, expected one of: " ++
        ", ".intercalate (Board.all.map Board.name) ∧
    (∀ t, SameLetters s t →
      (∃ b, ∀ u ∈ [s, t], Board.lookup u = .ok b ∧ ∀ payload compressed,
        Container.encodeNamed u payload compressed = Container.encode b payload compressed) ∨
      (∀ u ∈ [s, t], Board.lookup u = .error (.unknownBoard u Board.supported) ∧
        ∀ payload compressed,
          Container.encodeNamed u payload compressed =
            .error (.unknownBoard u Board.supported))) ∧
    (∀ v : Values,
      (∃ b, Board.lookup s = .ok b ∧ v.fill .board s = .ok { v with board := some b.name } ∧
        Board.find? b.name = some b) ∨
      (Board.lookup s = .error (.unknownBoard s Board.supported) ∧
        v.fill .board s =
          .error (.misuse (.unknownBoard s (.unknownBoard s Board.supported))))) ∧
    (∀ args, Request.ofArguments args ≠ .ok .unresolved) ∧
    ∀ args threshold board mode input output,
      Request.ofArguments args = .ok (.job threshold ⟨.container board mode, input, output⟩) →
        Board.find? board.name = some board := by
  refine ⟨fun t => sameLetters_iff, fun b => ?_, fun b h => ?_, fun e => Board.lookup_eq_error_iff,
    rfl, fun t h => Container.encodeNamed_of_sameLetters h, fun v => ?_, ?_, ?_⟩
  · rw [Board.lookup_eq_ok, Board.find?_eq_some_iff]
  · exact Board.filter_of_find? (Board.lookup_eq_ok.1 h)
  · rw [Values.fill_board]
    cases hfound : Board.find? s with
    | some b =>
      rw [Board.lookup_eq_ok.2 hfound]
      exact .inl ⟨b, rfl, rfl, Board.find?_name (Board.find?_eq_some hfound).1⟩
    | none =>
      rw [Board.lookup_of_unknown hfound]
      exact .inr ⟨rfl, rfl⟩
  · intro args h
    rcases finish_of_readProgram h with hnothing | ⟨c, rest, r, inner, hcommand, hfinish⟩
    · cases hnothing
    · exact ne_unresolved_of_finish hcommand hfinish rfl
  · intro args threshold board mode input output h
    rcases finish_of_readProgram h with hnothing | ⟨c, rest, r, inner, -, hfinish⟩
    · cases hnothing
    · exact find?_of_finish hfinish

/-- Two spellings of one name, and a command line with the first of them. -/
theorem board_resolution_esp32 :
    Board.all.filter (fun b => SameLetters "esp32" b.name) = [⟨"ESP32", 0x45535033⟩] ∧
      (∀ u ∈ ["esp32", "Esp32"], ∀ payload compressed,
        Container.encodeNamed u payload compressed =
          Container.encode ⟨"ESP32", 0x45535033⟩ payload compressed) ∧
      Request.ofArguments ["encode", "esp32", "in", "out"] =
        .ok (.job (.upTo .info) ⟨.container ⟨"ESP32", 0x45535033⟩ .precompressed, "in", "out"⟩) ∧
      Board.find? "ESP32" = some ⟨"ESP32", 0x45535033⟩ := by
  obtain ⟨-, -, honly, -, -, halike, -, -, hjobs⟩ := board_resolution "esp32"
  have hfound : Board.lookup "esp32" = .ok ⟨"ESP32", 0x45535033⟩ := rfl
  have hrequest : Request.ofArguments ["encode", "esp32", "in", "out"] =
      .ok (.job (.upTo .info)
        ⟨.container ⟨"ESP32", 0x45535033⟩ .precompressed, "in", "out"⟩) := rfl
  refine ⟨honly _ hfound, ?_, hrequest, hjobs _ _ _ _ _ _ hrequest⟩
  rcases halike "Esp32" (by decide) with ⟨b, hb⟩ | hunknown
  · intro u hu payload compressed
    have hlookup := hfound.symm.trans (hb "esp32" (by simp)).1
    cases hlookup
    exact (hb u hu).2 payload compressed
  · have hlookup := hfound.symm.trans (hunknown "esp32" (by simp)).1
    cases hlookup

end CommandLine

end OtaPack
