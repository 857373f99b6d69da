/-
  How a file is written through a buffer.

  * `Entry.write bs e`: the entry `e` after bytes have been written to it, if there are any;
    `Entry.append_write`, `Entry.write_error`: what is written in parts is written as it is at once,
    and what is refused stays refused;
  * `Buffered d place e given outcome host`: some bytes have been given to the buffer of a file that
    has been opened; `buffers_buffered`: what the buffer keeps; `outlives_buffered`: the streams of
    the program do not count;
  * `Directory.output`: how it ends to write a whole file, and the directory afterwards;
    `writeOutput_eq`: so it ends in pieces and at once.
-/
import OtaPack.Files.Host
import OtaPack.Proofs.Files.Buffer
import OtaPack.Proofs.Files.Directory

namespace OtaPack

/-! ## Entries -/

namespace Entry

variable {e : Entry} {x : OsError} {as bs : Bytes}

theorem append_append (h : (e.append as).1 = .ok ()) :
    (e.append as).2.append bs = e.append (as ++ bs) := by
  cases e with
  | file old => simp [append]
  | device room =>
    cases room with
    | none => rfl
    | some room =>
      have hroom : as.length ≤ room := by
        refine Nat.le_of_not_lt fun hlt => ?_
        rw [append, if_neg (Nat.not_le_of_lt hlt)] at h
        cases h
      have hfits : bs.length ≤ room - as.length ↔ as.length + bs.length ≤ room := by omega
      simp only [append, List.length_append, hfits, Nat.sub_sub]
  | directory | report | closed => cases h
  | void | stream => rfl

theorem append_error (h : (e.append as).1 = .error x) (bs : Bytes) :
    (e.append (as ++ bs)).1 = .error x := by
  cases e with
  | device room =>
    cases room with
    | none => cases h
    | some room =>
      rw [append] at h ⊢
      dsimp only at h ⊢
      split at h
      · cases h
      · rwa [if_neg]
        rw [List.length_append]
        omega
  | directory | report | closed => exact h
  | file | void | stream => cases h

/-- An entry after bytes have been written to it, if there are any. -/
def write (bs : Bytes) (e : Entry) : Except OsError Unit × Entry :=
  if bs = [] then (.ok (), e) else e.append bs

@[simp] theorem write_nil (e : Entry) : e.write [] = (.ok (), e) := if_pos rfl

theorem write_of_ne_nil (hbs : bs ≠ []) : e.write bs = e.append bs := if_neg hbs

theorem write_file (old bs : Bytes) : (file old).write bs = (.ok (), file (old ++ bs)) := by
  by_cases hbs : bs = []
  · rw [hbs, write_nil, List.append_nil]
  · rw [write_of_ne_nil hbs]
    rfl

/-- Nothing can be written to a device that is full. -/
theorem eq_nil_of_write_full (h : ((device (some 0)).write bs).1 = .ok ()) : bs = [] := by
  cases bs with
  | nil => rfl
  | cons => cases h

/-- Bytes that are written in two parts are written as they are at once. -/
theorem append_write (h : (e.write as).1 = .ok ()) (hbs : bs ≠ []) :
    (e.write as).2.append bs = e.write (as ++ bs) := by
  by_cases has : as = []
  · rw [has, write_nil, List.nil_append, write_of_ne_nil hbs]
  · rw [write_of_ne_nil has] at h ⊢
    rw [write_of_ne_nil (List.append_ne_nil_of_left_ne_nil has bs), append_append h]

/-- What is refused stays refused when more follows. -/
theorem write_error (h : (e.write as).1 = .error x) (bs : Bytes) :
    (e.write (as ++ bs)).1 = .error x := by
  have has : as ≠ [] := by
    rintro rfl
    cases h
  rw [write_of_ne_nil has] at h
  rw [write_of_ne_nil (List.append_ne_nil_of_left_ne_nil has bs), append_error h]

/-- Writing does not change whether an entry can be removed, and changes nothing if it cannot. -/
theorem removable_write (e : Entry) (bs : Bytes) :
    (e.write bs).2.removable = e.removable ∧ (e.removable = .ok () ∨ (e.write bs).2 = e) := by
  by_cases hbs : bs = []
  · rw [hbs, write_nil]
    exact ⟨rfl, .inr rfl⟩
  · rw [write_of_ne_nil hbs]
    cases e with
    | directory | report => exact ⟨rfl, .inr rfl⟩
    | device room => cases room <;> exact ⟨rfl, .inl rfl⟩
    | file | void | stream | closed => exact ⟨rfl, .inl rfl⟩

end Entry

/-! ## The buffer -/

namespace FileSystem

theorem run_create (path : String) (host : Host) :
    (FileSystem.create (m := StateM Host) path).run host =
      ((host.directory.create path).1,
        { host with directory := (host.directory.create path).2 }) := rfl

theorem run_remove (path : String) (host : Host) :
    (FileSystem.remove (m := StateM Host) path).run host =
      ((host.directory.remove path).1,
        { host with directory := (host.directory.remove path).2 }) := rfl

/-- Where the writing of a file stands: `e` is the entry that was left at its place when it was
    opened, and the bytes `given` have been given to the buffer.  Of these some have been written
    and all others wait, or some have been refused. -/
inductive Buffered (d : Directory) (place : Place) (e : Entry) (given : Bytes) :
    Except WriteError Bytes → Host → Prop
  | waiting {written waiting : Bytes} {host : Host} (hgiven : written ++ waiting = given)
      (hwrite : (e.write written).1 = .ok ())
      (hdirectory : host.directory = d.insert place (e.write written).2) :
      Buffered d place e given (.ok waiting) host
  | refused {written rest : Bytes} {x : OsError} {host : Host} (hgiven : written ++ rest = given)
      (hwrite : (e.write written).1 = .error x)
      (hdirectory : host.directory = d.insert place (e.write written).2) :
      Buffered d place e given (.error (.os x)) host

variable {d : Directory} {path : String} {place : Place} {e : Entry} {given waiting bs : Bytes}
  {outcome : Except WriteError Bytes} {x : OsError} {y : WriteError} {host : Host}

/-- The streams of the program do not count.  They take every text. -/
theorem outlives_buffered : Outlives (σ := Host) (Buffered d place e) where
  sent := by
    intro given outcome host h s text
    have hsend : ((Console.send (m := StateM Host) s text).run host).2.directory =
        host.directory :=
      Host.directory_send host s _
    cases h with
    | waiting hgiven hwrite hdirectory => exact .waiting hgiven hwrite (hsend.trans hdirectory)
    | refused hgiven hwrite hdirectory => exact .refused hgiven hwrite (hsend.trans hdirectory)
  lost hlost := by cases hlost

/-- After a refusal more bytes may be given, but none of them is written. -/
theorem Buffered.more (h : Buffered d place e given (.error y) host) (bs : Bytes) :
    Buffered d place e (given ++ bs) (.error y) host := by
  cases h with
  | refused hgiven hwrite hdirectory =>
    rw [← hgiven, List.append_assoc]
    exact .refused rfl hwrite hdirectory

/-- If nothing waits, all bytes have been written. -/
theorem Buffered.ok (h : Buffered d place e given (.ok []) host) :
    (e.write given).1 = .ok () ∧ host.directory = d.insert place (e.write given).2 := by
  cases h with
  | waiting hgiven hwrite hdirectory =>
    rw [List.append_nil] at hgiven
    subst hgiven
    exact ⟨hwrite, hdirectory⟩

theorem Buffered.error (h : Buffered d place e given (.error y) host) :
    ∃ x, y = .os x ∧ (e.write given).1 = .error x := by
  cases h with
  | @refused _ _ x _ hgiven hwrite hdirectory =>
    rw [← hgiven]
    exact ⟨x, rfl, Entry.write_error hwrite _⟩

section
variable (hd : d.Opens path place e)
include hd

/-- Bytes that wait are written after those before. -/
theorem Buffered.append (h : Buffered d place e given (.ok waiting) host) (hne : waiting ≠ []) :
    Buffered d place e given (emptied (host.append place waiting).1)
      (host.append place waiting).2 := by
  cases h with
  | @waiting written _ _ hgiven hwrite hdirectory =>
    have hstep := hd.append_insert (e.write written).2 waiting
    rw [← hdirectory, Entry.append_write hwrite hne, hgiven] at hstep
    have hafter : (host.append place waiting).2.directory = d.insert place (e.write given).2 := by
      rw [Host.directory_append, hstep]
    rw [Host.fst_append, hstep]
    cases hr : (e.write given).1 with
    | ok => exact .waiting (List.append_nil _) hr hafter
    | error => exact .refused (List.append_nil _) hr hafter

theorem buffers_buffered : Buffers (σ := Host) place (Buffered d place e) where
  wait := by
    intro given waiting host h bs
    cases h with
    | waiting hgiven hwrite hdirectory =>
      rw [← hgiven, List.append_assoc]
      exact .waiting rfl hwrite hdirectory
  append h hne := h.append hd hne
  more h bs := h.more bs

/-- What can be removed after a refusal is gone then, and all else is as it was when it was
    opened. -/
theorem Buffered.remove (h : Buffered d place e given (.error y) host) :
    host.directory.remove path =
      match e.removable with
      | .ok () => (.ok (), d.erase place)
      | .error x => (.error x, d.insert place e) := by
  cases h with
  | @refused written _ _ _ hgiven hwrite hdirectory =>
    obtain ⟨hremovable, hkept⟩ := Entry.removable_write e written
    rw [hdirectory, Directory.remove, hd.removing_insert, hremovable]
    cases hr : e.removable with
    | ok => exact congrArg _ (Directory.erase_insert d place _)
    | error y =>
      rw [hr] at hkept
      rcases hkept with hok | hkept
      · cases hok
      · rw [hkept]
        rfl

theorem buffered_writeContent (hdirectory : host.directory = d.insert place e) (inPieces : Bool)
    (content : Bytes) :
    Buffered d place e content
      (((writeContent (m := StateM Host) place inPieces content).run host).1.map fun _ => [])
      ((writeContent (m := StateM Host) place inPieces content).run host).2 := by
  have hstart : Buffered d place e [] (.ok []) host :=
    .waiting (List.append_nil []) (by rw [Entry.write_nil]) (by rw [Entry.write_nil, hdirectory])
  exact (buffers_buffered hd).writeContent outlives_buffered hstart inPieces content

end

end FileSystem

/-! ## Whole files -/

/-- How it ends to write a whole file, and the directory afterwards. -/
def Directory.output (d : Directory) (path : String) (content : Bytes) :
    Except OsError Unit × Directory :=
  match d.opening path with
  | .error x => (.error x, d)
  | .ok (place, e) =>
    match (e.write content).1, e.removable with
    | .ok (), _ => (.ok (), d.insert place (e.write content).2)
    | .error x, .ok () => (.error x, d.erase place)
    | .error _, .error x => (.error x, d.insert place e)

theorem Directory.Writable.output_eq {d : Directory} {path : String} {place : Place}
    (h : d.Writable path place) (content : Bytes) :
    d.output path content = (.ok (), d.insert place (.file content)) := by
  rw [Directory.output, h]
  dsimp only
  rw [Entry.write_file]
  rfl

/-- A file is written whole or not at all, whether in pieces or at once. -/
theorem writeOutput_eq (inPieces : Bool) (path : String) (content : Bytes) (host : Host) :
    (((FileSystem.writeOutput (m := StateM Host) inPieces path content).run host).1,
      ((FileSystem.writeOutput (m := StateM Host) inPieces path content).run host).2.directory) =
        ((host.directory.output path content).1.mapError .os,
          (host.directory.output path content).2) := by
  rw [FileSystem.writeOutput, FileSystem.run_bind, FileSystem.run_create, Directory.output,
    Directory.create]
  cases hopening : host.directory.opening path with
  | error x => rfl
  | ok o =>
    obtain ⟨place, e⟩ := o
    have hopens := Directory.opens_of_opening hopening
    have hcreated : ({ host with directory := host.directory.insert place e } : Host).directory =
        host.directory.insert place e := rfl
    have hwrites := FileSystem.buffered_writeContent hopens hcreated inPieces content
    dsimp only
    rw [FileSystem.run_bind]
    generalize (FileSystem.writeContent (m := StateM Host) place inPieces content).run _ = r at *
    obtain ⟨outcome, host'⟩ := r
    cases outcome with
    | ok =>
      obtain ⟨hwrite, hdirectory⟩ := hwrites.ok
      rw [hwrite]
      exact Prod.ext rfl hdirectory
    | error y =>
      obtain ⟨x, rfl, herror⟩ := hwrites.error
      have hremove := hwrites.remove hopens
      dsimp only
      rw [herror, FileSystem.run_bind, FileSystem.run_remove, hremove]
      cases e.removable <;> rfl

end OtaPack
