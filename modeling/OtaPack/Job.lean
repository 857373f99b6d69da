/-
  Jobs: a conversion with the files that it reads and writes.

  * `Job.run`: reads the input, does all work in memory, tells about it, and only then touches the
    output;
  * `JobError`: why a job fails.
-/
import OtaPack.Conversion
import OtaPack.Files.FileSystem

namespace OtaPack

/-- Why a job fails. -/
inductive JobError where
  | pack (e : PackError)
  | os (e : OsError)
  /-- The progress could not be shown, which stops the program. -/
  | stopped
deriving DecidableEq, Repr

/-- Why a job fails whose output has not been written. -/
def JobError.ofWrite : WriteError → JobError
  | .os e => os e
  | .stopped => stopped

/-- A conversion with the files that it reads and writes. -/
structure Job where
  conversion : Conversion Board
  input : String
  output : String

/-- Does a job, and shows messages under a threshold.  The messages stand before the output is
    touched, and progress is shown wherever plain information is. -/
def Job.run {m : Type → Type} [Monad m] [FileSystem m] [Console m] (job : Job)
    (threshold : Log.Threshold) : m (Except JobError Unit) := do
  match ← FileSystem.read job.input with
  | .error e => return .error (.os e)
  | .ok content =>
    let made := job.conversion.apply content
    Console.printLines .output (Log.shown threshold made.log)
    match made.value with
    | .error e => return .error (.pack e)
    | .ok result =>
      return (← FileSystem.writeOutput (threshold.shows .info) job.output result).mapError .ofWrite

end OtaPack
