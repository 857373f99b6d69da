/-
  Packing an image in one step, and in two.

  * `Job.outcome_compressed`: to compress on the way to a container is the same job as to make a
    container of what has been compressed before, for every compressor;
  * `Restores packed raw`: a run that decompresses a file with the bytes `packed` leaves `raw`;
  * `PackedAlike`: how runs that pack an image in one step, and in two by way of a file in the
    middle, end; `packedAlike_of_asks`: all such runs do;
  * `pack_in_steps`: both ways of packing lead to the same files, from which the image is restored.
-/
import Mathlib
import OtaPack.Proofs.CommandLine.Asks
import OtaPack.Proofs.Container.Layout
import OtaPack.Proofs.Lzss.Size

namespace OtaPack

/-! ## Compressing before and on the way -/

theorem Conversion.value_precompressed (board : Board) (payload : Bytes) :
    ((container board .precompressed).apply payload).value =
      Container.encode board payload true := by
  simp only [Conversion.apply, Mode.payload, Logged.value_bind, Logged.value_pure,
    Packing.value_encode]
  cases Container.encode board payload true <;> rfl

theorem Job.outcome_compressed {d : Directory} {raw : Bytes} {input middle : String}
    (board : Board) (c : Compressor) (output : String) (hraw : d.read input = .ok raw)
    (hmiddle : d.read middle = .ok (c.compress raw).value) :
    (Job.mk (.container board (.compressed c)) input output).outcome d =
      (Job.mk (.container board .precompressed) middle output).outcome d := by
  rw [Job.outcome, hraw, Job.outcome, hmiddle]
  dsimp only
  rw [Conversion.apply_compressed]

namespace CommandLine

open Container

/-! ## Runs that restore an image -/

/-- Wherever a file with the bytes `packed` is, a run that decompresses it succeeds and leaves a
    file with the bytes `raw`. -/
def Restores (packed raw : Bytes) : Prop :=
  ∀ (args : List String) (host : Host) (path back : String) (place : Place),
    Asks args ⟨.decompress, path, back⟩ → host.directory.read path = .ok packed →
      host.directory.Writable back place →
        (runOn args host).1.exitCode = 0 ∧ (runOn args host).2.directory.Holds back place raw

theorem restores_decode (packed : Bytes) : Restores packed (Lzss.decode packed) := by
  intro args host path back place hasks hread hwritable
  exact hasks.runOn_of_made hread rfl hwritable

theorem restores_encode (raw : Bytes) : Restores (Lzss.encode raw) raw := by
  have hback : Lzss.decode (Lzss.encode raw) = raw := Lzss.decode_tokens raw
  have h := restores_decode (Lzss.encode raw)
  rwa [hback] at h

/-! ## The two ways of packing -/

/-- How it ends to pack an image: `one` is the run that does it in one step on `host`, and `first`
    and `second` are the runs that do it in two. -/
structure PackedAlike (board : Board) (raw : Bytes) (host : Host) (one first second : Report × Host)
    (output middle output' : String) (o m o' : Place) : Prop where
  /-- The image can always be compressed. -/
  middle : first.1.exitCode = 0 ∧ first.2.directory.Holds middle m (Lzss.encode raw)
  exitCode : second.1.exitCode = one.1.exitCode
  /-- If it fits into a container then, both outputs are that container. -/
  packed : (Lzss.encode raw).length + 12 ≤ 2 ^ 32 - 1 → one.1.exitCode = 0 ∧ ∃ c,
    one.2.directory.Holds output o c ∧ second.2.directory.Holds output' o' c ∧
      Layout board.magic true (Lzss.encode raw) c ∧ Restores (c.drop 20) raw
  /-- Otherwise nothing is written any more. -/
  refused : ¬(Lzss.encode raw).length + 12 ≤ 2 ^ 32 - 1 → one.1.exitCode = 1 ∧
    one.2.directory = host.directory ∧ second.2.directory = first.2.directory

section
variable {board : Board} {raw : Bytes} {host host' : Host} {atOnce compress frame : List String}
  {input input' middle output output' : String} {o m o' : Place}

theorem packedAlike_of_asks
    (hatOnce : Asks atOnce ⟨.container board (.compressed .lzss), input, output⟩)
    (hcompress : Asks compress ⟨.compress, input', middle⟩)
    (hframe : Asks frame ⟨.container board .precompressed, middle, output'⟩)
    (hread : host.directory.read input = .ok raw) (hread' : host'.directory.read input' = .ok raw)
    (houtput : host.directory.Writable output o) (hmiddle : host'.directory.Writable middle m)
    (houtput' : host'.directory.Writable output' o') :
    PackedAlike board raw host (runOn atOnce host) (runOn compress host')
      (runOn frame (runOn compress host').2) output middle output' o m o' := by
  have hfirst : (runOn compress host').1.exitCode = 0 ∧
      (runOn compress host').2.directory.Holds middle m (Lzss.encode raw) :=
    hcompress.runOn_of_made hread' rfl hmiddle
  have hwritable := (hcompress.keeps hmiddle).writable houtput'
  have hone : ((Conversion.container board (.compressed .lzss)).apply raw).value =
      encode board (Lzss.encode raw) true := by
    rw [Conversion.apply_compressed, Compressor.value_lzss, Conversion.value_precompressed]
  have htwo := Conversion.value_precompressed board (Lzss.encode raw)
  by_cases hfits : (Lzss.encode raw).length + 12 ≤ 2 ^ 32 - 1
  · obtain ⟨c, hc⟩ : ∃ c, encode board (Lzss.encode raw) true = .ok c := encode_of_le hfits
    rw [hc] at hone htwo
    obtain ⟨hexit, hholds⟩ := hatOnce.runOn_of_made hread hone houtput
    obtain ⟨hexit', hholds'⟩ := hframe.runOn_of_made hfirst.2.read_eq htwo hwritable
    have hlayout := layout_of_encode hc
    have hrestores : Restores (c.drop 20) raw := by
      rw [hlayout.payload_eq]
      exact restores_encode raw
    exact ⟨hfirst, by rw [hexit, hexit'],
      fun _ => ⟨hexit, c, hholds, hholds', hlayout, hrestores⟩, fun h => absurd hfits h⟩
  · have hc : encode board (Lzss.encode raw) true = .error (.payloadTooLarge _) :=
      encode_of_not_le hfits
    rw [hc] at hone htwo
    obtain ⟨hexit, hdirectory⟩ := hatOnce.runOn_of_unmade hread hone
    obtain ⟨hexit', hdirectory'⟩ := hframe.runOn_of_unmade hfirst.2.read_eq htwo
    exact ⟨hfirst, by rw [hexit, hexit'], fun h => absurd h hfits,
      fun _ => ⟨hexit, hdirectory, hdirectory'⟩⟩

end

/-- **In one step or in two.**  To compress on the way to a container and to make a container of
    what has been compressed before end alike, for every compressor.  So for all command lines that
    ask for LZSS, an image that is packed in one step is packed as it is in two, and from the file
    in the middle and from the payload of both containers the image is restored.  All these runs can
    be made in one directory, one after the other. -/
theorem pack_in_steps (board : Board) (raw : Bytes) :
    (∀ (c : Compressor) (threshold : Log.Threshold) (host : Host) (input middle output : String),
      host.directory.read input = .ok raw →
      host.directory.read middle = .ok (c.compress raw).value →
        let one := (Job.mk (.container board (.compressed c)) input output).runOn threshold host
        let two := (Job.mk (.container board .precompressed) middle output).runOn threshold host
        one.1 = two.1 ∧ one.2.directory = two.2.directory) ∧
    (∀ (name input output : String), Board.find? name = some board →
      Asks ["encode", "--lzss", "--", name, input, output]
        ⟨.container board (.compressed .lzss), input, output⟩ ∧
      Asks ["lzss", "--encode", "--", input, output] ⟨.compress, input, output⟩ ∧
      Asks ["encode", "--", name, input, output]
        ⟨.container board .precompressed, input, output⟩ ∧
      Asks ["lzss", "--decode", "--", input, output] ⟨.decompress, input, output⟩) ∧
    (∀ (atOnce compress frame : List String) (host host' : Host)
      (input input' middle output output' : String) (m o o' : Place),
      Asks atOnce ⟨.container board (.compressed .lzss), input, output⟩ →
      Asks compress ⟨.compress, input', middle⟩ →
      Asks frame ⟨.container board .precompressed, middle, output'⟩ →
      host.directory.read input = .ok raw → host'.directory.read input' = .ok raw →
      host.directory.Writable output o → host'.directory.Writable middle m →
      host'.directory.Writable output' o' →
        PackedAlike board raw host (runOn atOnce host) (runOn compress host')
          (runOn frame (runOn compress host').2) output middle output' o m o') ∧
    Restores (Lzss.encode raw) raw ∧
    (∀ (args : List String) (job : Job) (host : Host) (place : Place), Asks args job →
      host.directory.Writable job.output place →
        Directory.Keeps place host.directory (runOn args host).2.directory) := by
  refine ⟨fun c threshold host input middle output hraw hmiddle => ?_,
    fun name input output hboard => ⟨asks_encode_lzss hboard input output,
      asks_lzss_encode input output, asks_encode hboard input output,
      asks_lzss_decode input output⟩,
    ?_, restores_encode raw, fun args job host place hasks hwritable => hasks.keeps hwritable⟩
  · have hone := Job.runOn_eq ⟨.container board (.compressed c), input, output⟩ threshold host
    have htwo := Job.runOn_eq ⟨.container board .precompressed, middle, output⟩ threshold host
    rw [Job.outcome_compressed board c output hraw hmiddle, ← htwo] at hone
    exact Prod.mk.inj hone
  · intro atOnce compress frame host host' input input' middle output output' m o o' hatOnce
      hcompress hframe hread hread' houtput hmiddle houtput'
    exact packedAlike_of_asks hatOnce hcompress hframe hread hread' houtput hmiddle houtput'

/-- Four runs in one directory: two containers in both ways, and the image out of the middle. -/
theorem pack_in_steps_esp32 :
    let start : Host := { directory := ⟨[(["in"], .file [7, 7, 7, 7])]⟩ }
    let one := runOn ["encode", "--lzss", "--", "esp32", "in", "c1"] start
    let first := runOn ["lzss", "--encode", "--", "in", "lz"] one.2
    let second := runOn ["encode", "--", "esp32", "lz", "c2"] first.2
    let last := runOn ["lzss", "--decode", "--", "lz", "re"] second.2
    [one, first, second, last].map (fun r => r.1.exitCode) = [0, 0, 0, 0] ∧
      (∃ c, last.2.directory.read "c1" = .ok c ∧ last.2.directory.read "c2" = .ok c) ∧
      last.2.directory.read "re" = .ok [7, 7, 7, 7] := by
  have hraw : (Directory.mk [(["in"], .file [7, 7, 7, 7])]).Holds "in" ["in"] [7, 7, 7, 7] :=
    { located := ⟨_, by cbv, by cbv⟩
      named := by cbv
      entry := ⟨_, by cbv, rfl⟩ }
  have hfree : ∀ path ∈ ["c1", "lz", "c2", "re"],
      (Directory.mk [(["in"], .file [7, 7, 7, 7])]).Writable path [path] := by
    simp only [List.forall_mem_cons, List.not_mem_nil, false_imp_iff, forall_const, and_true]
    refine ⟨?_, ?_, ?_, ?_⟩ <;> cbv
  have hlength : 8 * (Lzss.encode [7, 7, 7, 7]).length < 9 * 4 + 8 := Lzss.length_encode_lt _
  have hboard : Board.find? "esp32" = some ⟨"ESP32", 0x45535033⟩ := by decide
  obtain ⟨-, hlines, hsteps, hrestores, hkeeps⟩ :=
    pack_in_steps ⟨"ESP32", 0x45535033⟩ [7, 7, 7, 7]
  have hatOnce := (hlines "esp32" "in" "c1" hboard).1
  have hcompress := (hlines "esp32" "in" "lz" hboard).2.1
  have hframe := (hlines "esp32" "lz" "c2" hboard).2.2.1
  have hunpack := (hlines "esp32" "lz" "re" hboard).2.2.2
  intro start one first second last
  -- All runs find what they need, as the runs before them have kept it.
  have hone : start.directory.Writable "c1" ["c1"] := hfree _ (by simp)
  have keeps₁ := hkeeps _ _ start _ hatOnce hone
  have hmiddle : one.2.directory.Writable "lz" ["lz"] := keeps₁.writable (hfree _ (by simp))
  have htwo : one.2.directory.Writable "c2" ["c2"] := keeps₁.writable (hfree _ (by simp))
  have keeps₂ := hkeeps _ _ one.2 _ hcompress hmiddle
  have keeps₃ := hkeeps _ _ first.2 _ hframe (keeps₂.writable htwo)
  have hback : second.2.directory.Writable "re" ["re"] :=
    keeps₃.writable (keeps₂.writable (keeps₁.writable (hfree _ (by simp))))
  have keeps₄ := hkeeps _ _ second.2 _ hunpack hback
  have halike := hsteps _ _ _ start one.2 _ _ _ _ _ _ _ _ hatOnce hcompress hframe hraw.read_eq
    (keeps₁.holds hraw (by decide)).read_eq hone hmiddle htwo
  obtain ⟨hexit, c, hc, hc', -⟩ := halike.packed (by omega)
  obtain ⟨hexit₄, hrestored⟩ := hrestores _ second.2 _ _ _ hunpack
    (keeps₃.holds halike.middle.2 (by decide)).read_eq hback
  refine ⟨?_, ⟨c, ?_, ?_⟩, hrestored.read_eq⟩
  · have hexit₃ : second.1.exitCode = 0 := halike.exitCode.trans hexit
    rw [List.map_cons, List.map_cons, List.map_cons, List.map_cons, hexit, halike.middle.1, hexit₃,
      hexit₄]
    rfl
  · have hc₂ := keeps₂.holds hc (by decide)
    have hc₃ := keeps₃.holds hc₂ (by decide)
    exact (keeps₄.holds hc₃ (by decide)).read_eq
  · exact (keeps₄.holds hc' (by decide)).read_eq

end CommandLine

end OtaPack
