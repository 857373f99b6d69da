/-
  All or nothing: what a run can do to the files.

  * `Job.outcome job d`: how a job ends in a directory, and the directory afterwards;
    `Job.runOn_eq`: a job on a host ends like that, whatever is shown on the way, and is never
    stopped (`Job.runOn_ne_stopped`);
  * `Received before after path place result`: what is at the place of an output after a success;
  * `AllOrNothing job before outcome after`: a job has either done all that it had to do or nothing,
    except that an output that could not be written whole may be gone;
  * `Job.allOrNothing_outcome`: every job does;
  * `files_all_or_nothing`: so does every run of the program.
-/
import OtaPack.CommandLine.Request
import OtaPack.Proofs.Files.Output

namespace OtaPack

variable {before after : Directory} {path : String} {place : Place} {e : Entry} {result : Bytes}

/-! ## How a job ends -/

/-- How a job ends in a directory, and the directory afterwards. -/
def Job.outcome (job : Job) (d : Directory) : Except JobError Unit × Directory :=
  match d.read job.input with
  | .error x => (.error (.os x), d)
  | .ok content =>
    match (job.conversion.apply content).value with
    | .error x => (.error (.pack x), d)
    | .ok result =>
      ((d.output job.output result).1.mapError .os, (d.output job.output result).2)

theorem directory_printLines (s : Console.Stream) (lines : List String) (host : Host) :
    ((Console.printLines (m := StateM Host) s lines).run host).2.directory = host.directory := by
  rw [Console.printLines, List.forM_eq_forM]
  induction lines generalizing host with
  | nil => rfl
  | cons line rest ih =>
    rw [List.forM_cons, FileSystem.run_bind, ih]
    exact Host.directory_send host s _

theorem directory_sendLines (s : Console.Stream) (lines : List String) (host : Host) :
    ((Console.sendLines (m := StateM Host) s lines).run host).2.directory = host.directory := by
  induction lines generalizing host with
  | nil => rfl
  | cons line rest ih =>
    rw [Console.sendLines, FileSystem.run_bind]
    exact (ih _).trans (Host.directory_send host s _)

/-- How a job on a host ends, and the host afterwards. -/
def Job.runOn (job : Job) (threshold : Log.Threshold) (host : Host) :
    Except JobError Unit × Host :=
  (job.run (m := StateM Host) threshold).run host

/-- The messages and the progress change neither the end of a job nor the directory. -/
theorem Job.runOn_eq (job : Job) (threshold : Log.Threshold) (host : Host) :
    ((job.runOn threshold host).1, (job.runOn threshold host).2.directory) =
      job.outcome host.directory := by
  have hread : (FileSystem.read (m := StateM Host) job.input).run host =
      (host.directory.read job.input, host) := rfl
  rw [Job.runOn, Job.run, FileSystem.run_bind, hread, Job.outcome]
  cases host.directory.read job.input with
  | error x => rfl
  | ok content =>
    dsimp only
    rw [FileSystem.run_bind]
    have hprint := directory_printLines .output
      (Log.shown threshold (job.conversion.apply content).log) host
    generalize (Console.printLines (m := StateM Host) .output _).run host = printed at *
    cases (job.conversion.apply content).value with
    | error x => exact congrArg _ hprint
    | ok result =>
      have houtput := writeOutput_eq (threshold.shows .info) job.output result printed.2
      rw [hprint] at houtput
      obtain ⟨hwritten, hdirectory⟩ := Prod.mk.inj houtput
      refine Prod.ext ?_ hdirectory
      refine (congrArg (Except.mapError JobError.ofWrite) hwritten).trans ?_
      dsimp only
      cases (host.directory.output job.output result).1 <;> rfl

/-- The streams of a host take every text, so no job on it is stopped. -/
theorem Job.runOn_ne_stopped (job : Job) (threshold : Log.Threshold) (host : Host) :
    (job.runOn threshold host).1 ≠ .error .stopped := by
  rw [congrArg Prod.fst (job.runOn_eq threshold host), Job.outcome]
  cases host.directory.read job.input with
  | error x => nofun
  | ok content =>
    dsimp only
    cases (job.conversion.apply content).value with
    | error x => nofun
    | ok result =>
      dsimp only
      cases (host.directory.output job.output result).1 <;> nofun

/-! ## What becomes of the output -/

/-- What is at the place of an output whose bytes are `result`, after a success.  A file holds them
    and nothing else, and they are read from it.  A device that is full has taken nothing, as there
    was nothing to write.  Whatever else can be opened has taken all in its own way. -/
def Received (before after : Directory) (path : String) (place : Place) (result : Bytes) : Prop :=
  match before.get? place with
  | none | some (.file _) => after.get? place = some (.file result) ∧ after.read path = .ok result
  | some (.device (some 0)) => result = [] ∧ ∀ q, after.get? q = before.get? q
  | some .directory | some (.closed _) => False
  | some e => (e.write result).1 = .ok () ∧ after.get? place = some (e.write result).2

theorem received_insert (hd : before.Opens path place e) (hwrite : (e.write result).1 = .ok ()) :
    Received before (before.insert place (e.write result).2) path place result := by
  have hself : (before.insert place (e.write result).2).get? place = some (e.write result).2 := by
    rw [Directory.get?_insert hd.not_isTop, if_pos rfl]
  have hread := hd.read_insert (e.write result).2
  unfold Received
  rcases hd.entry with ⟨hfree, rfl⟩ | ⟨old, hold, hopened⟩
  · rw [hfree]
    rw [Entry.write_file] at hself hread ⊢
    exact ⟨hself, hread⟩
  · rw [hold]
    cases old with
    | file =>
      cases hopened
      rw [Entry.write_file] at hself hread ⊢
      exact ⟨hself, hread⟩
    | device room =>
      cases hopened
      rcases room with _ | _ | room
      · exact ⟨hwrite, hself⟩
      · obtain rfl := Entry.eq_nil_of_write_full hwrite
        exact ⟨rfl, Directory.get?_insert_of_get? hd.not_isTop hold⟩
      · exact ⟨hwrite, hself⟩
    | directory | closed => cases hopened
    | void | stream | report =>
      cases hopened
      exact ⟨hwrite, hself⟩

/-- What cannot be removed is not changed by opening it. -/
theorem Directory.Opens.get?_of_removable {x : OsError} (hd : before.Opens path place e)
    (h : e.removable = .error x) : before.get? place = some e := by
  rcases hd.entry with ⟨-, rfl⟩ | ⟨old, hold, hopened⟩
  · cases h
  · cases old with
    | file =>
      cases hopened
      cases h
    | directory | closed => cases hopened
    | void | device | stream | report =>
      cases hopened
      exact hold

/-- A file is either written whole or as before, or absent, and nothing else changes. -/
structure WrittenOrNot (before : Directory) (path : String) (result : Bytes)
    (outcome : Except OsError Unit) (after : Directory) : Prop where
  others : ∀ q, ¬before.Leads path q → after.get? q = before.get? q
  success : outcome = .ok () →
    ∃ place, before.Leads path place ∧ Received before after path place result
  failure : ∀ x, outcome = .error x → (∀ q, after.get? q = before.get? q) ∨
    ∃ place, before.Leads path place ∧ after.get? place = none

theorem writtenOrNot_output (before : Directory) (path : String) (result : Bytes) :
    WrittenOrNot before path result (before.output path result).1
      (before.output path result).2 := by
  rw [Directory.output]
  cases hopening : before.opening path with
  | error x => exact ⟨fun _ _ => rfl, by rintro ⟨⟩, fun _ _ => .inl fun _ => rfl⟩
  | ok o =>
    obtain ⟨place, e⟩ := o
    have hd := Directory.opens_of_opening hopening
    have hother {q : Place} (hq : ¬before.Leads path q) : q ≠ place := by
      rintro rfl
      exact hq hd.leads
    dsimp only
    cases hwrite : (e.write result).1 with
    | ok =>
      refine ⟨fun q hq => ?_, fun _ => ⟨place, hd.leads, received_insert hd hwrite⟩,
        fun _ => by rintro ⟨⟩⟩
      rw [Directory.get?_insert hd.not_isTop, if_neg (hother hq)]
    | error x =>
      cases hremovable : e.removable with
      | ok =>
        refine ⟨fun q hq => ?_, by rintro ⟨⟩, fun _ _ => .inr ⟨place, hd.leads, ?_⟩⟩
        · rw [Directory.get?_erase hd.not_isTop, if_neg (hother hq)]
        · rw [Directory.get?_erase hd.not_isTop, if_pos rfl]
      | error y =>
        have hsame := Directory.get?_insert_of_get? hd.not_isTop (hd.get?_of_removable hremovable)
        exact ⟨fun q _ => hsame q, by rintro ⟨⟩, fun _ _ => .inl hsame⟩

/-! ## Jobs -/

/-- A job has done all that it had to do or nothing: it has made the whole output, or it has left
    everything as it was, except that an output that could not be written may be gone. -/
structure AllOrNothing (job : Job) (before : Directory) (outcome : Except JobError Unit)
    (after : Directory) : Prop where
  /-- Nothing changes but at the place of the output. -/
  others : ∀ q, ¬before.Leads job.output q → after.get? q = before.get? q
  /-- After a success the output is the whole result that is made of what the input held before. -/
  success : outcome = .ok () → ∃ content result place,
    before.read job.input = .ok content ∧ (job.conversion.apply content).value = .ok result ∧
      before.Leads job.output place ∧ Received before after job.output place result
  /-- After a failure the output is as it was or absent. -/
  failure : ∀ x, outcome = .error x → (∀ q, after.get? q = before.get? q) ∨
    ∃ place, before.Leads job.output place ∧ after.get? place = none
  unread : ∀ x, before.read job.input = .error x → outcome = .error (.os x) ∧ after = before
  unmade : ∀ content x, before.read job.input = .ok content →
    (job.conversion.apply content).value = .error x → outcome = .error (.pack x) ∧ after = before
  unopened : ∀ content result x, before.read job.input = .ok content →
    (job.conversion.apply content).value = .ok result → before.opening job.output = .error x →
      outcome = .error (.os x) ∧ after = before
  /-- Once the output is open, only a failed write can spoil it, and it is absent then if it can be
      removed. -/
  opened : ∀ content result place e, before.read job.input = .ok content →
    (job.conversion.apply content).value = .ok result →
      before.opening job.output = .ok (place, e) → e.removable = .ok () →
        outcome = (e.write result).1.mapError .os ∧ (outcome ≠ .ok () → after.get? place = none)

section
variable {job : Job} {content : Bytes}

theorem Job.outcome_of_unread {x : OsError} (hread : before.read job.input = .error x) :
    job.outcome before = (.error (.os x), before) := by
  rw [Job.outcome, hread]

theorem Job.outcome_of_unmade {x : PackError} (hread : before.read job.input = .ok content)
    (hmade : (job.conversion.apply content).value = .error x) :
    job.outcome before = (.error (.pack x), before) := by
  rw [Job.outcome, hread]
  dsimp only
  rw [hmade]

theorem Job.outcome_of_made (hread : before.read job.input = .ok content)
    (hmade : (job.conversion.apply content).value = .ok result) :
    job.outcome before = ((before.output job.output result).1.mapError .os,
      (before.output job.output result).2) := by
  rw [Job.outcome, hread]
  dsimp only
  rw [hmade]

/-- A job that does not come to its output fails and changes nothing. -/
theorem Job.outcome_cases (job : Job) (before : Directory) :
    (∃ x, job.outcome before = (.error x, before)) ∨
    ∃ content result, before.read job.input = .ok content ∧
      (job.conversion.apply content).value = .ok result := by
  cases hread : before.read job.input with
  | error x => exact .inl ⟨_, Job.outcome_of_unread hread⟩
  | ok content =>
    cases hmade : (job.conversion.apply content).value with
    | error x => exact .inl ⟨_, Job.outcome_of_unmade hread hmade⟩
    | ok result => exact .inr ⟨content, result, rfl, hmade⟩

end

theorem Job.allOrNothing_outcome (job : Job) (before : Directory) :
    AllOrNothing job before (job.outcome before).1 (job.outcome before).2 where
  others q hq := by
    rcases job.outcome_cases before with ⟨x, hfailed⟩ | ⟨content, result, hread, hmade⟩
    · rw [hfailed]
    · rw [Job.outcome_of_made hread hmade]
      exact (writtenOrNot_output before job.output result).others q hq
  success h := by
    rcases job.outcome_cases before with ⟨x, hfailed⟩ | ⟨content, result, hread, hmade⟩
    · rw [hfailed] at h
      cases h
    · rw [Job.outcome_of_made hread hmade] at h ⊢
      obtain ⟨place, hplace, hreceived⟩ :=
        (writtenOrNot_output before job.output result).success (mapError_eq_ok.1 h)
      exact ⟨content, result, place, hread, hmade, hplace, hreceived⟩
  failure x h := by
    rcases job.outcome_cases before with ⟨y, hfailed⟩ | ⟨content, result, hread, hmade⟩
    · rw [hfailed]
      exact .inl fun _ => rfl
    · rw [Job.outcome_of_made hread hmade] at h ⊢
      cases hr : (before.output job.output result).1 with
      | error y => exact (writtenOrNot_output before job.output result).failure y hr
      | ok =>
        rw [hr] at h
        cases h
  unread x hread := by
    rw [Job.outcome_of_unread hread]
    exact ⟨rfl, rfl⟩
  unmade content x hread hmade := by
    rw [Job.outcome_of_unmade hread hmade]
    exact ⟨rfl, rfl⟩
  unopened content result x hread hmade hopening := by
    rw [Job.outcome_of_made hread hmade, Directory.output, hopening]
    exact ⟨rfl, rfl⟩
  opened content result place e hread hmade hopening hremovable := by
    have hd := Directory.opens_of_opening hopening
    rw [Job.outcome_of_made hread hmade, Directory.output, hopening]
    dsimp only
    rw [hremovable]
    cases (e.write result).1 with
    | ok => exact ⟨rfl, fun h => absurd rfl h⟩
    | error x =>
      refine ⟨rfl, fun _ => ?_⟩
      rw [Directory.get?_erase hd.not_isTop, if_pos rfl]

/-- A link to a device that is full does not take three bytes as text, and is gone then. -/
example : (Job.mk .base64 "in" "out").outcome
    ⟨[(["in"], .file [77, 97, 110]), (["out"], .device (some 0))]⟩ =
      (.error (.os .storageFull), ⟨[(["in"], .file [77, 97, 110])]⟩) := by
  cbv

theorem Job.allOrNothing_runOn (job : Job) (threshold : Log.Threshold) (host : Host) :
    AllOrNothing job host.directory (job.runOn threshold host).1
      (job.runOn threshold host).2.directory := by
  have h := job.allOrNothing_outcome host.directory
  rw [← Job.runOn_eq job threshold host] at h
  exact h

/-! ## Runs of the program -/

namespace CommandLine

/-- How a run on a host ends, and the host afterwards. -/
def runOn (args : List String) (host : Host) : Report × Host :=
  (run (m := StateM Host) args).run host

theorem run_failWith (exitCode : Nat) (text : String) (host : Host) :
    ((failWith (m := StateM Host) exitCode text).run host).1.exitCode = exitCode ∧
      ((failWith (m := StateM Host) exitCode text).run host).2.directory = host.directory :=
  ⟨rfl, directory_printLines .errors [text] host⟩

/-- A run without a request changes no file.  If the command line is refused, the exit code tells
    it. -/
theorem runOn_of_halt {args : List String} {halt : Halt}
    (h : Request.ofArguments args = .error halt) (host : Host) :
    (runOn args host).2.directory = host.directory ∧
      ∀ reason, halt = .misuse reason → (runOn args host).1.exitCode = 2 := by
  rw [runOn, run, h]
  cases halt with
  | misuse reason =>
    have hfail := run_failWith 2 reason.message host
    cases reason with
    | nothingGiven => exact ⟨rfl, fun _ _ => rfl⟩
    | _ => exact ⟨hfail.2, fun _ _ => hfail.1⟩
  | help => exact ⟨rfl, nofun⟩
  | version => exact ⟨directory_printLines .output [versionLine] host, nofun⟩

/-- A run for a job ends as the job does. -/
theorem runOn_of_job {args : List String} {threshold : Log.Threshold} {job : Job}
    (h : Request.ofArguments args = .ok (.job threshold job)) (host : Host) :
    (runOn args host).2.directory = (job.runOn threshold host).2.directory ∧
      ((runOn args host).1.exitCode = 0 ∧ (job.runOn threshold host).1 = .ok () ∨
        (runOn args host).1.exitCode = 1 ∧ ∃ x, (job.runOn threshold host).1 = .error x) := by
  have hstopped := job.runOn_ne_stopped threshold host
  rw [Job.runOn] at hstopped
  rw [runOn, run, h, Job.runOn]
  dsimp only
  rw [Request.run, FileSystem.run_bind]
  generalize (job.run (m := StateM Host) threshold).run host = r at *
  obtain ⟨outcome, host'⟩ := r
  cases outcome with
  | ok => exact ⟨rfl, .inl ⟨rfl, rfl⟩⟩
  | error x =>
    cases x with
    | pack x =>
      have hfail := run_failWith 1 ("Error: " ++ x.inspect) host'
      exact ⟨hfail.2, .inr ⟨hfail.1, _, rfl⟩⟩
    | os x =>
      have hfail := run_failWith 1 ("Error: " ++ x.inspect) host'
      exact ⟨hfail.2, .inr ⟨hfail.1, _, rfl⟩⟩
    | stopped => exact absurd rfl hstopped

/-- **All or nothing.**  Whatever the files are, every job on a host, whose streams take every text,
    either makes the whole output and changes nothing else, or fails and leaves its output as it was
    or absent.  So does every run of the program, and its exit code tells which.  A command line
    that is refused, such as one with an unknown board, and one that asks for no job change
    nothing. -/
theorem files_all_or_nothing (args : List String) (host : Host) :
    (∀ job threshold, AllOrNothing job host.directory (job.runOn threshold host).1
      (job.runOn threshold host).2.directory) ∧
    match Request.ofArguments args with
    | .ok (.job threshold job) =>
      AllOrNothing job host.directory (job.runOn threshold host).1
          (runOn args host).2.directory ∧
        ((runOn args host).1.exitCode = 0 ∧ (job.runOn threshold host).1 = .ok () ∨
          (runOn args host).1.exitCode = 1 ∧ ∃ x, (job.runOn threshold host).1 = .error x)
    | .ok .nothing | .ok .boards | .ok .unresolved =>
      (runOn args host).2.directory = host.directory
    | .error halt =>
      (runOn args host).2.directory = host.directory ∧
        ∀ reason, halt = .misuse reason → (runOn args host).1.exitCode = 2 := by
  refine ⟨fun job threshold => job.allOrNothing_runOn threshold host, ?_⟩
  cases h : Request.ofArguments args with
  | error halt => exact runOn_of_halt h host
  | ok request =>
    cases request with
    | nothing | unresolved =>
      rw [runOn, run, h]
      rfl
    | boards =>
      rw [runOn, run, h]
      dsimp only
      rw [Request.run, FileSystem.run_bind, ← directory_sendLines .output
        (Board.all.map boardLine) host]
      split <;> rfl
    | job threshold job =>
      obtain ⟨hdirectory, hexit⟩ := runOn_of_job h host
      refine ⟨?_, hexit⟩
      rw [hdirectory]
      exact job.allOrNothing_runOn threshold host

end CommandLine

end OtaPack
