/-
  Progress and messages never change the files.

  * `Directory.output_device`: how it ends to write to a device with little room;
  * `progress_changes_nothing`: files are written alike in pieces, with their progress, and at once;
    so runs that differ in the level for messages end alike.
-/
import Mathlib
import OtaPack.Proofs.CommandLine.Tasks
import OtaPack.Proofs.Files.Buffer

namespace OtaPack

open FileSystem

/-- A device takes all bytes if there is room for them, and is gone otherwise. -/
theorem Directory.output_device {d : Directory} {path : String} {place : Place} {room : Nat}
    (h : d.opening path = .ok (place, .device (some room))) (content : Bytes) :
    d.output path content =
      if content.length ≤ room then
        (.ok (), d.insert place (.device (some (room - content.length))))
      else (.error .storageFull, d.erase place) := by
  rw [output, h]
  dsimp only
  by_cases hcontent : content = []
  · rw [hcontent, Entry.write_nil]
    exact (if_pos (Nat.zero_le room)).symm
  · rw [Entry.write_of_ne_nil hcontent, Entry.append]
    dsimp only
    by_cases hroom : content.length ≤ room
    · rw [if_pos hroom, if_pos hroom]
    · rw [if_neg hroom, if_neg hroom]
      rfl

namespace CommandLine

/-- **Progress changes nothing.**  On a host, whose streams take every text, a file is written with
    the same outcome, and leaves the same directory, in pieces with their progress and at once; so
    it is if it takes some bytes and no more.  On every file system the bytes that are handed to it
    are its content, in order, or the front of it after a failure, also if the progress cannot be
    shown.  So runs for the same job end alike under all levels for messages, and so do command
    lines that differ in a level, wherever and however it is given. -/
theorem progress_changes_nothing (host : Host) :
    (∀ (path : String) (content : Bytes),
      let inPieces := (writeOutput (m := StateM Host) true path content).run host
      let atOnce := (writeOutput (m := StateM Host) false path content).run host
      inPieces.1 = atOnce.1 ∧ inPieces.2.directory = atOnce.2.directory) ∧
    (∀ (path : String) (place : Place) (room : Nat),
      host.directory.opening path = .ok (place, .device (some room)) →
        ∀ (inPieces : Bool) (content : Bytes),
          let written := (writeOutput (m := StateM Host) inPieces path content).run host
          (written.1, written.2.directory) =
            if content.length ≤ room then
              (.ok (), host.directory.insert place (.device (some (room - content.length))))
            else (.error (.os .storageFull), host.directory.erase place)) ∧
    (∀ (σ : Type) [FileSystem (StateM σ)] [Console (StateM σ)] (s : σ) (inPieces : Bool)
      (path : String) (content : Bytes),
      HandedInOrder ((create (m := StateM σ) path).run s).1 content
        ((writeOutput (m := StateM (Recorded σ)) inPieces path content).run ⟨s, []⟩)
        ((writeOutput (m := StateM σ) inPieces path content).run s)) ∧
    (∀ (args args' : List String) (job : Job), Asks args job → Asks args' job →
      (runOn args host).1.exitCode = (runOn args' host).1.exitCode ∧
        (runOn args host).2.directory = (runOn args' host).2.directory) ∧
    (∀ (front back : List String) (o : LevelOption) (l l' : Level), "--" ∉ front →
      let one := runOn (front ++ (o.arguments l ++ back)) host
      let other := runOn (front ++ (o.arguments l' ++ back)) host
      one.1.exitCode = other.1.exitCode ∧ one.2.directory = other.2.directory) := by
  refine ⟨fun path content => ?_, fun path place room hopening inPieces content => ?_,
    fun σ _ _ s inPieces path content => handedInOrder_writeOutput inPieces path content s,
    fun args args' job h h' => h.runOn_alike h' host, fun front back o l l' hdashes => ?_⟩
  · have h := (writeOutput_eq true path content host).trans
      (writeOutput_eq false path content host).symm
    exact Prod.ext_iff.1 h
  · refine (writeOutput_eq inPieces path content host).trans ?_
    rw [Directory.output_device hopening content]
    split <;> rfl
  · exact runOn_alike (sameTask_of_levels hdashes o back l l') host

/-- A device with room for one byte only, and command lines with several levels and with none. -/
theorem progress_changes_nothing_full :
    let host : Host :=
      { directory := ⟨[(["in"], .file [7, 7, 7, 7]), (["full"], .device (some 1))]⟩ }
    let plain := runOn ["lzss", "--encode", "--", "in", "full"] host
    let shown := runOn ["-vtrace", "lzss", "--encode", "in", "full"] host
    let hidden := runOn ["-voff", "lzss", "--encode", "in", "full"] host
    (∀ inPieces,
      ((writeOutput (m := StateM Host) inPieces "full" [1, 2]).run host).1 =
        .error (.os .storageFull)) ∧
      ∀ r ∈ [shown, hidden],
        r.1.exitCode = plain.1.exitCode ∧ r.2.directory = plain.2.directory := by
  intro host plain shown hidden
  obtain ⟨-, hdevice, -, hjobs, hlevels⟩ := progress_changes_nothing host
  have hopening : host.directory.opening "full" = .ok (["full"], .device (some 1)) := by cbv
  have hplain : Asks ["lzss", "--encode", "--", "in", "full"] ⟨.compress, "in", "full"⟩ :=
    asks_lzss_encode "in" "full"
  have hshown : Asks ["-vtrace", "lzss", "--encode", "in", "full"] ⟨.compress, "in", "full"⟩ :=
    ⟨.upTo .trace, rfl⟩
  obtain ⟨hcode, hdirectory⟩ : shown.1.exitCode = hidden.1.exitCode ∧
      shown.2.directory = hidden.2.directory :=
    hlevels [] ["lzss", "--encode", "in", "full"] (.attached [] false) ⟨"trace", rfl⟩ ⟨"off", rfl⟩
      (by simp)
  obtain ⟨hcode', hdirectory'⟩ : plain.1.exitCode = shown.1.exitCode ∧
      plain.2.directory = shown.2.directory := hjobs _ _ _ hplain hshown
  refine ⟨fun inPieces => ?_, ?_⟩
  · exact congrArg Prod.fst (hdevice _ _ _ hopening inPieces [1, 2])
  · exact List.forall_mem_cons.2 ⟨⟨hcode'.symm, hdirectory'.symm⟩, List.forall_mem_singleton.2
      ⟨(hcode'.trans hcode).symm, (hdirectory'.trans hdirectory).symm⟩⟩

end CommandLine

end OtaPack
