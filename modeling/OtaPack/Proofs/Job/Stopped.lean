/-
  Runs whose output nobody takes.

  * `Muted`: a host whose output takes no text;
  * `writeOutput_muted`: a file that is written there with its progress is left with its first
    piece, and the writing stops;
  * `runMuted_of_shown`: so a run for a job that shows its progress is broken off.
-/
import OtaPack.Proofs.Job.AllOrNothing

namespace OtaPack

open FileSystem

/-- A host whose output takes no text. -/
structure Muted where
  host : Host

namespace Muted

/-- Does what is done to the host. -/
def lift {α : Type} (m : StateM Host α) : StateM Muted α := fun s =>
  ((m.run s.host).1, ⟨(m.run s.host).2⟩)

instance : FileSystem (StateM Muted) where
  Handle := Place
  read path := lift (read path)
  create path := lift (create path)
  append place bs := lift (append (m := StateM Host) place bs)
  remove path := lift (remove path)

instance : Console (StateM Muted) where
  send
    | .output, _ => pure false
    | .errors, text => lift (Console.send .errors text)

end Muted

variable {d : Directory} {path : String} {place : Place}

/-! ## Files -/

/-- Bytes that wait are written when the writing stops. -/
theorem abandon_muted (h : d.Writable path place) {host : Host}
    (hdirectory : host.directory = d.insert place (.file [])) (waiting : Bytes) :
    ∃ host', (abandon (m := StateM Muted) place waiting).run ⟨host⟩ = (.error .stopped, ⟨host'⟩) ∧
      host'.directory = d.insert place (.file waiting) := by
  by_cases hwaiting : waiting = []
  · subst hwaiting
    exact ⟨host, rfl, hdirectory⟩
  · have happend := h.opens.append_insert (.file []) waiting
    rw [← hdirectory] at happend
    refine ⟨(host.append place waiting).2, ?_, ?_⟩
    · rw [abandon, run_bind, flush, if_neg hwaiting]
      rfl
    · rw [Host.directory_append, happend]
      rfl

/-- The first piece waits when its progress cannot be shown. -/
theorem putContent_muted (place : Place) (content : Bytes) (s : Muted) :
    (putContent (m := StateM Muted) place true content).run s =
      (abandon (m := StateM Muted) place (content.take pieceSize)).run s := by
  rw [putContent, if_pos rfl, run_bind]
  by_cases hempty : content = []
  · rw [hempty, chunksOf_nil]
    rfl
  · have hfits : ([] : Bytes).length + (content.take pieceSize).length ≤ bufferSize := by
      rw [List.length_nil, Nat.zero_add]
      exact Nat.le_trans (List.length_take_le _ _) (by decide)
    have hpieces : (putPieces (m := StateM Muted) place content.length
        (chunksOf pieceSize content) [] 0).run s =
          (abandon (m := StateM Muted) place (content.take pieceSize)).run s := by
      rw [chunksOf_eq hempty (by decide), putPieces, put, if_pos hfits]
      rfl
    rw [hpieces]
    rfl

theorem create_muted {host : Host} (h : host.directory.Writable path place) :
    (create (m := StateM Muted) path).run ⟨host⟩ =
      (.ok place, ⟨{ host with directory := host.directory.insert place (.file []) }⟩) := by
  have hcreated : host.directory.create path =
      (.ok place, host.directory.insert place (.file [])) := by
    rw [Directory.create, h]
  have hplace := congrArg Prod.fst hcreated
  have hdirectory := congrArg Prod.snd hcreated
  refine Prod.ext hplace ?_
  exact congrArg (fun d => Muted.mk { host with directory := d }) hdirectory

/-- **A file in pieces** is left with the first of them if the progress after it cannot be shown. -/
theorem writeOutput_muted {host : Host} (h : host.directory.Writable path place)
    (content : Bytes) :
    ∃ host', (writeOutput (m := StateM Muted) true path content).run ⟨host⟩ =
        (.error .stopped, ⟨host'⟩) ∧
      host'.directory = host.directory.insert place (.file (content.take pieceSize)) := by
  have hopened : ({ host with directory := host.directory.insert place (.file []) } :
      Host).directory = host.directory.insert place (.file []) := rfl
  obtain ⟨host', hstopped, hdirectory⟩ := abandon_muted h hopened (content.take pieceSize)
  refine ⟨host', ?_, hdirectory⟩
  rw [writeOutput, run_bind, create_muted h]
  dsimp only
  rw [run_bind, writeContent, run_bind, putContent_muted, hstopped]
  rfl

/-! ## Runs -/

namespace CommandLine

/-- How a run on a host ends whose output takes nothing, and the host afterwards. -/
def runMuted (args : List String) (host : Host) : Report × Host :=
  let r := (run (m := StateM Muted) args).run ⟨host⟩
  (r.1, r.2.host)

theorem run_printLines_muted (lines : List String) (s : Muted) :
    (Console.printLines (m := StateM Muted) .output lines).run s = ((), s) := by
  rw [Console.printLines, List.forM_eq_forM]
  induction lines with
  | nil => rfl
  | cons line rest ih =>
    rw [List.forM_cons, run_bind]
    exact ih

/-- **A run that is broken off.**  A run for a job that would show its progress ends with a code of
    its own when its output takes nothing, and leaves the first piece of what it was to write. -/
theorem runMuted_of_shown {args : List String} {job : Job} {threshold : Log.Threshold}
    {host : Host} {content result : Bytes}
    (h : Request.ofArguments args = .ok (.job threshold job)) (hshown : threshold.shows .info)
    (hread : host.directory.read job.input = .ok content)
    (hmade : (job.conversion.apply content).value = .ok result)
    (hwritable : host.directory.Writable job.output place) :
    (runMuted args host).1.exitCode = 101 ∧ (runMuted args host).2.directory =
      host.directory.insert place (.file (result.take pieceSize)) := by
  obtain ⟨host', hstopped, hdirectory⟩ := writeOutput_muted hwritable result
  have hread' : (FileSystem.read (m := StateM Muted) job.input).run ⟨host⟩ =
      (.ok content, ⟨host⟩) := Prod.ext hread rfl
  have hjob : (job.run (m := StateM Muted) threshold).run ⟨host⟩ =
      (.error .stopped, ⟨host'⟩) := by
    rw [Job.run, run_bind, hread']
    dsimp only
    rw [run_bind, run_printLines_muted, hmade]
    dsimp only
    rw [run_bind, hshown, hstopped]
    rfl
  rw [runMuted, run, h]
  dsimp only
  rw [Request.run, run_bind, hjob]
  exact ⟨rfl, hdirectory⟩

/-- The list of boards is broken off as well. -/
example : (runMuted ["boards"] ⟨⟨[]⟩, [], []⟩).1.exitCode = 101 := by
  cbv

end CommandLine

end OtaPack
