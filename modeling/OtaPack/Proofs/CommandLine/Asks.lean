/-
  Command lines that ask for a job, and their runs.

  * `Asks args job`: the command line `args` asks for a job;
  * `asks_of_readArguments`: it does so if its arguments say what the command needs, and the board
    is found;
  * `asks_encode_lzss`, `asks_encode`: the lines that make a container, with compressing and
    without; `asks_lzss_encode`, `asks_lzss_decode`: those that compress and decompress; all of them
    for files of any name;
  * `Asks.runOn_eq`, `Asks.runOn_of_made`, `Asks.runOn_of_unmade`: how the run of such a line ends,
    in general, when its output can be made and written, and when it cannot be made;
  * `Asks.keeps`: a run changes nothing but its output, so runs can follow each other.
-/
import OtaPack.Proofs.Board
import OtaPack.Proofs.Job.AllOrNothing

namespace OtaPack.CommandLine

/-- A command line asks for a job, under some threshold for messages. -/
def Asks (args : List String) (job : Job) : Prop :=
  ∃ threshold, Request.ofArguments args = .ok (.job threshold job)

/-! ## Lines that ask for a job -/

section
variable {word name input output : String} {args : List String} {board : Board} {c : Command}
  {task : Conversion String} {conversion : Conversion Board} {r : Reading}

theorem asks_of_readArguments (hword : Command.ofName? word = some c)
    (hread : readArguments (.start (.command c)) args = .ok r)
    (hconversion : r.values.conversion c = .ok (some task))
    (hresolve : task.resolve? Board.find? = some conversion)
    (hfiles : r.values.files = .ok (input, output)) :
    Asks (word :: args) ⟨conversion, input, output⟩ := by
  have hcommand : readCommand c args =
      .ok ⟨some ⟨task, input, output⟩, r.values.verbosity⟩ := by
    rw [readCommand, hread, ok_bind, hconversion, ok_bind]
    dsimp only
    rw [hfiles]
    rfl
  have hdashes : word ≠ "--" := by
    rintro rfl
    cases hword
  have hhelp : word ≠ "help" := by
    rintro rfl
    cases hword
  have hrequest (threshold : Log.Threshold) :
      (Task.mk task input output).request threshold =
        .job threshold ⟨conversion, input, output⟩ := by
    rw [Task.request]
    dsimp only
    rw [hresolve]
  refine ⟨(r.values.verbosity <|> none).getD (.upTo .info), ?_⟩
  have hwaits : ¬(Reading.start .program).awaitsValue := Bool.false_ne_true
  rw [Request.ofArguments, readProgram, if_neg hdashes, if_neg hwaits, if_neg hhelp, hword]
  dsimp only
  rw [hcommand, ← hrequest]
  rfl

/-- What stands behind two dashes fills the slots of a command that makes containers, whatever it
    looks like. -/
theorem readArguments_board (hslots : r.slots = [.board, .input, .output])
    (hwaiting : r.waiting = .nothing) (hboard : Board.find? name = some board) :
    readArguments r ["--", name, input, output] = .ok { r with
      waiting := .nothing
      values := { r.values with
        board := some board.name, input := some input, output := some output }
      slots := [] } := by
  obtain ⟨scope, waiting, values, slots⟩ := r
  cases hslots
  cases hwaiting
  simp [readArguments, Reading.takeSlots, Reading.takeSlot, Reading.settle, Values.fill,
    Board.lookup, hboard, bind, Except.bind, pure, Except.pure]

theorem readArguments_files (hslots : r.slots = [.input, .output])
    (hwaiting : r.waiting = .nothing) :
    readArguments r ["--", input, output] = .ok { r with
      waiting := .nothing
      values := { r.values with input := some input, output := some output }
      slots := [] } := by
  obtain ⟨scope, waiting, values, slots⟩ := r
  cases hslots
  cases hwaiting
  rfl

/-- An argument that is taken is passed over. -/
theorem readArguments_cons {arg : String} {r' : Reading} (hdashes : arg ≠ "--")
    (htake : r.take arg = .ok r') (args : List String) :
    readArguments r (arg :: args) = readArguments r' args := by
  rw [readArguments, if_neg hdashes, htake]

/-- A board that has been found is found again by its own name. -/
theorem resolve?_container (hboard : Board.find? name = some board) (mode : Mode) :
    (Conversion.container board.name mode).resolve? Board.find? = some (.container board mode) := by
  rw [Conversion.resolve?, Board.find?_name (Board.find?_eq_some hboard).1]
  rfl

theorem asks_encode_lzss (hboard : Board.find? name = some board) (input output : String) :
    Asks ["encode", "--lzss", "--", name, input, output]
      ⟨.container board (.compressed .lzss), input, output⟩ := by
  have htake : (Reading.start (.command .encode)).take "--lzss" =
      .ok { Reading.start (.command .encode) with values := { switches := [.lzss] } } := rfl
  have hread := (readArguments_cons (by decide) htake ["--", name, input, output]).trans
    (readArguments_board rfl rfl hboard)
  exact asks_of_readArguments rfl hread rfl (resolve?_container hboard _) rfl

/-- A letter is as good as the word, and the dashes may be left out. -/
example : Asks ["encode", "-l", "esp32", "in", "out"]
    ⟨.container ⟨"ESP32", 0x45535033⟩ (.compressed .lzss), "in", "out"⟩ :=
  ⟨.upTo .info, rfl⟩

theorem asks_encode (hboard : Board.find? name = some board) (input output : String) :
    Asks ["encode", "--", name, input, output]
      ⟨.container board .precompressed, input, output⟩ :=
  asks_of_readArguments rfl (readArguments_board rfl rfl hboard) rfl
    (resolve?_container hboard _) rfl

/-- The switch in front of the files tells the direction. -/
theorem asks_lzss {s : Switch} (hdashes : word ≠ "--")
    (htake : (Reading.start (.command .lzss)).take word =
      .ok { Reading.start (.command .lzss) with values := { switches := [s] } })
    (hdirection : Values.direction { switches := [s] } = .ok task)
    (hresolve : task.resolve? Board.find? = some conversion) (input output : String) :
    Asks ["lzss", word, "--", input, output] ⟨conversion, input, output⟩ := by
  have hread := (readArguments_cons hdashes htake ["--", input, output]).trans
    (readArguments_files rfl rfl)
  refine asks_of_readArguments rfl hread ?_ hresolve rfl
  -- The files do not count for the direction.
  have hfiles : Values.direction { switches := [s], input := some input, output := some output } =
      .ok task := hdirection
  rw [Values.conversion, hfiles]
  rfl

theorem asks_lzss_encode (input output : String) :
    Asks ["lzss", "--encode", "--", input, output] ⟨.compress, input, output⟩ :=
  asks_lzss (s := .encode) (by decide) rfl rfl rfl input output

theorem asks_lzss_decode (input output : String) :
    Asks ["lzss", "--decode", "--", input, output] ⟨.decompress, input, output⟩ :=
  asks_lzss (s := .decode) (by decide) rfl rfl rfl input output

end

/-! ## Runs of such lines -/

namespace Asks

variable {args : List String} {job : Job} {host : Host} {content result : Bytes} {place : Place}
  (h : Asks args job)
include h

/-- A run for a job ends as the job does in the directory. -/
theorem runOn_eq (host : Host) :
    (runOn args host).2.directory = (job.outcome host.directory).2 ∧
      ((runOn args host).1.exitCode = 0 ∧ (job.outcome host.directory).1 = .ok () ∨
        (runOn args host).1.exitCode = 1 ∧ ∃ x, (job.outcome host.directory).1 = .error x) := by
  obtain ⟨threshold, hrequest⟩ := h
  rw [← Job.runOn_eq job threshold host]
  exact runOn_of_job hrequest host

/-- What could be made and written is at the place of the output. -/
theorem runOn_of_made (hread : host.directory.read job.input = .ok content)
    (hmade : (job.conversion.apply content).value = .ok result)
    (hwritable : host.directory.Writable job.output place) :
    (runOn args host).1.exitCode = 0 ∧
      (runOn args host).2.directory.Holds job.output place result := by
  obtain ⟨hdirectory, hends⟩ := h.runOn_eq host
  rw [Job.outcome_of_made hread hmade, hwritable.output_eq] at hdirectory hends
  rw [hdirectory]
  refine ⟨?_, hwritable.holds_insert result⟩
  rcases hends with ⟨hzero, -⟩ | ⟨-, x, herror⟩
  · exact hzero
  · cases herror

theorem runOn_of_unmade {x : PackError} (hread : host.directory.read job.input = .ok content)
    (hmade : (job.conversion.apply content).value = .error x) :
    (runOn args host).1.exitCode = 1 ∧ (runOn args host).2.directory = host.directory := by
  obtain ⟨hdirectory, hends⟩ := h.runOn_eq host
  rw [Job.outcome_of_unmade hread hmade] at hdirectory hends
  refine ⟨?_, hdirectory⟩
  rcases hends with ⟨-, hok⟩ | ⟨hone, -⟩
  · cases hok
  · exact hone

/-- A run changes nothing but its output. -/
theorem keeps (hwritable : host.directory.Writable job.output place) :
    Directory.Keeps place host.directory (runOn args host).2.directory := by
  rw [(h.runOn_eq host).1]
  rcases job.outcome_cases host.directory with ⟨x, hfailed⟩ | ⟨content, result, hread, hmade⟩
  · rw [hfailed]
    exact .refl place _
  · rw [Job.outcome_of_made hread hmade, hwritable.output_eq]
    exact hwritable.keeps_insert result

end Asks

end OtaPack.CommandLine
