/-
  What a change at one place does to a directory.

  * `get?_insert`, `get?_erase`: only the entry at that place changes; `insert_insert`,
    `erase_insert`: and only its last change counts;
  * `Leads path place`: a path leads to a place; `locate_of_directories`: it leads there as long as
    all directories are where they were;
  * `Opens path place e`: the file at a path can be opened, which leaves the entry `e` at its place;
    `Opens.read_insert`, `Opens.removing_insert`: what is read from there afterwards, and whether it
    can be removed, depends on the entry that is there then and on nothing else;
  * `Holds path place content`, `Writable path place`: a file that is read, and one that can be
    written; `Holds.insert`, `Writable.insert`: other files do not count for either;
  * `Keeps place d d'`: files at other places are as they were; `Writable.keeps_insert`: when a file
    has been written they are.
-/
import OtaPack.Files.Directory
import OtaPack.Outcome

namespace OtaPack

namespace Directory

variable {d d' : Directory} {place q : Place} {e : Entry} {path : String}

/-! ## Entries -/

theorem lookup_cons (p q : Place) (e : Entry) (l : List (Place × Entry)) :
    ((p, e) :: l).lookup q = if q = p then some e else l.lookup q := by
  rw [List.lookup_cons]
  by_cases h : q = p
  · rw [beq_iff_eq.2 h, if_pos h]
  · rw [beq_eq_false_iff_ne.2 h, if_neg h]

theorem lookup_replace (place q : Place) (e : Entry) (l : List (Place × Entry)) :
    (l.map fun x => if x.1 = place then (place, e) else x).lookup q =
      if q = place then (l.lookup place).map fun _ => e else l.lookup q := by
  induction l with
  | nil => simp
  | cons x l ih =>
    obtain ⟨p, old⟩ := x
    rw [List.map_cons, lookup_cons, lookup_cons]
    by_cases hp : p = place
    · subst hp
      rw [if_pos rfl, lookup_cons, ih]
      by_cases hq : q = p <;> simp [hq]
    · rw [if_neg hp, lookup_cons, ih, if_neg (Ne.symm hp)]
      by_cases hq : q = p
      · subst hq
        rw [if_pos rfl, if_neg hp, if_pos rfl]
      · rw [if_neg hq, if_neg hq]

theorem lookup_filter_ne (place q : Place) (l : List (Place × Entry)) :
    (l.filter fun x => x.1 ≠ place).lookup q = if q = place then none else l.lookup q := by
  induction l with
  | nil => simp
  | cons x l ih =>
    obtain ⟨p, old⟩ := x
    rw [List.filter_cons, lookup_cons]
    by_cases hp : p = place
    · subst hp
      rw [if_neg (by simp), ih]
      by_cases hq : q = p <;> simp [hq]
    · rw [if_pos (by simpa using hp), lookup_cons, ih]
      by_cases hq : q = p
      · subst hq
        rw [if_pos rfl, if_neg hp, if_pos rfl]
      · rw [if_neg hq, if_neg hq]

theorem lookup_insert (d : Directory) (place q : Place) (e : Entry) :
    (d.insert place e).entries.lookup q = if q = place then some e else d.entries.lookup q := by
  unfold insert
  split
  · rename_i hsome
    obtain ⟨old, hold⟩ := Option.isSome_iff_exists.1 hsome
    rw [lookup_replace, hold]
    rfl
  · rename_i hnone
    rw [List.lookup_append, lookup_cons, List.lookup_nil]
    by_cases hq : q = place
    · subst hq
      rw [Option.not_isSome_iff_eq_none.1 hnone, if_pos rfl]
      rfl
    · rw [if_neg hq, if_neg hq, Option.or_none]

theorem get?_insert (hplace : ¬place.IsTop) :
    (d.insert place e).get? q = if q = place then some e else d.get? q := by
  unfold get?
  rw [lookup_insert]
  by_cases hq : q = place
  · rw [if_pos hq, if_pos hq, if_neg (hq ▸ hplace)]
  · rw [if_neg hq, if_neg hq]

theorem get?_insert_of_get? (hplace : ¬place.IsTop) (h : d.get? place = some e) (q : Place) :
    (d.insert place e).get? q = d.get? q := by
  rw [get?_insert hplace]
  split
  · rename_i hq
    rw [hq, h]
  · rfl

theorem get?_erase (hplace : ¬place.IsTop) :
    (d.erase place).get? q = if q = place then none else d.get? q := by
  unfold get? erase
  rw [lookup_filter_ne]
  by_cases hq : q = place
  · rw [if_pos hq, if_pos hq, if_neg (hq ▸ hplace)]
  · rw [if_neg hq, if_neg hq]

theorem ne_of_lookup_eq_none {l : List (Place × Entry)} (h : ¬(l.lookup place).isSome) :
    ∀ x ∈ l, x.1 ≠ place := by
  rintro x hx rfl
  exact h (List.lookup_isSome_iff.2 ⟨x, hx, by simp⟩)

/-- Only the last of two changes at one place counts. -/
theorem insert_insert (d : Directory) (place : Place) (e e' : Entry) :
    (d.insert place e).insert place e' = d.insert place e' := by
  have hthere : ((d.insert place e).entries.lookup place).isSome := by
    rw [lookup_insert, if_pos rfl]
    rfl
  rw [insert, if_pos hthere]
  unfold insert
  split
  · rw [List.map_map]
    refine congrArg mk (List.map_congr_left fun x _ => ?_)
    by_cases hx : x.1 = place <;> simp [hx]
  · rename_i hnone
    refine congrArg mk ?_
    rw [List.map_append, List.map_cons, if_pos rfl, List.map_nil]
    refine congrArg (· ++ _) ((List.map_congr_left fun x hx => ?_).trans (List.map_id _))
    rw [if_neg (ne_of_lookup_eq_none hnone x hx), id]

theorem erase_insert (d : Directory) (place : Place) (e : Entry) :
    (d.insert place e).erase place = d.erase place := by
  unfold insert erase
  split
  · refine congrArg mk ?_
    induction d.entries with
    | nil => rfl
    | cons x l ih =>
      rw [List.map_cons, List.filter_cons, List.filter_cons, ih]
      by_cases hx : x.1 = place <;> simp [hx]
  · simp

/-! ## Places -/

/-- The place that a path leads to. -/
def Leads (d : Directory) (path : String) (place : Place) : Prop :=
  ∃ p l, Path.ofString path = .ok p ∧ d.locate p = .ok l ∧ l.place = place

/-- Names that can be followed can still be followed when no directory has gone. -/
theorem follow_of_directories (h : ∀ q, d.get? q = some .directory → d'.get? q = some .directory)
    {names : List String} {start : Place} (hf : d.follow start names = .ok place) :
    d'.follow start names = .ok place := by
  fun_induction d.follow start names with
  | case1 => exact hf
  | case2 start names ih =>
    rw [follow, if_pos rfl]
    exact ih hf
  | case3 start names hdot ih =>
    rw [follow, if_neg hdot, if_pos rfl]
    exact ih hf
  | case6 start name names hdot hup hname next hnext ih =>
    -- The only case that looks at the directory and goes on.
    have hnext' : d'.get? (Place.canonical (start ++ [name])) = some .directory := h _ hnext
    rw [follow, if_neg hdot, if_neg hup, hname]
    simp only [hnext']
    exact ih hf
  | case4 | case5 | case7 => cases hf

theorem locate_of_directories (h : ∀ q, d.get? q = some .directory → d'.get? q = some .directory)
    {p : Path} {l : Location} (hl : d.locate p = .ok l) : d'.locate p = .ok l := by
  rcases hlast : p.names.getLast? with _ | name
  · rw [locate, hlast] at hl ⊢
    exact hl
  · rw [locate, hlast] at hl ⊢
    dsimp only at hl ⊢
    split at hl
    · rename_i hdots
      obtain ⟨place, hf, hplace⟩ := exists_of_map_eq_ok hl
      rw [if_pos hdots, follow_of_directories h hf]
      exact congrArg _ hplace
    · rename_i hdots
      obtain ⟨place, hf, hplace⟩ := exists_of_bind_eq_ok hl
      rw [if_neg hdots, follow_of_directories h hf]
      exact hplace

/-- The file at a path can be opened for writing, which leaves the entry `e` at its place. -/
structure Opens (d : Directory) (path : String) (place : Place) (e : Entry) : Prop where
  located : ∃ p, Path.ofString path = .ok p ∧ d.locate p = .ok ⟨place, false⟩
  named : place.checkName = .ok ()
  entry : d.get? place = none ∧ e = .file [] ∨ ∃ old, d.get? place = some old ∧ old.opened = .ok e

/-- What it takes to open the file at a path. -/
theorem opening_eq_ok :
    d.opening path = .ok (place, e) ↔
      (∃ p, Path.ofString path = .ok p ∧ d.locate p = .ok ⟨place, false⟩) ∧
      place.checkName = .ok () ∧
      (d.get? place = none ∧ place.checkNew = .ok () ∧ e = .file [] ∨
        ∃ old, d.get? place = some old ∧ old.opened = .ok e) := by
  constructor
  · intro h
    obtain ⟨p, hp, h⟩ := exists_of_bind_eq_ok h
    obtain ⟨⟨place', isDirectory⟩, hl, h⟩ := exists_of_bind_eq_ok h
    dsimp only at h
    split at h
    · cases h
    rename_i hfile
    obtain rfl : isDirectory = false := by simpa using hfile
    obtain ⟨⟨⟩, hname, h⟩ := exists_of_bind_eq_ok h
    split at h
    · rename_i old hold
      obtain ⟨e', ho, h⟩ := exists_of_bind_eq_ok h
      cases h
      exact ⟨⟨p, hp, hl⟩, hname, .inr ⟨old, hold, ho⟩⟩
    · rename_i hfree
      obtain ⟨⟨⟩, hnew, h⟩ := exists_of_bind_eq_ok h
      cases h
      exact ⟨⟨p, hp, hl⟩, hname, .inl ⟨hfree, hnew, rfl⟩⟩
  · rintro ⟨⟨p, hp, hl⟩, hname, hentry⟩
    rw [opening, hp, ok_bind, hl, ok_bind, if_neg Bool.false_ne_true, hname, ok_bind]
    rcases hentry with ⟨hfree, hnew, rfl⟩ | ⟨old, hold, ho⟩
    · rw [hfree]
      dsimp only
      rw [hnew]
      rfl
    · rw [hold]
      dsimp only
      rw [ho]
      rfl

theorem opens_of_opening (h : d.opening path = .ok (place, e)) : d.Opens path place e := by
  obtain ⟨hlocated, hname, hentry⟩ := opening_eq_ok.1 h
  refine ⟨hlocated, hname, ?_⟩
  rcases hentry with ⟨hfree, -, he⟩ | hold
  · exact .inl ⟨hfree, he⟩
  · exact .inr hold

namespace Opens

variable (h : d.Opens path place e)
include h

theorem leads : d.Leads path place := by
  obtain ⟨p, hp, hl⟩ := h.located
  exact ⟨p, _, hp, hl, rfl⟩

theorem get?_ne_directory : d.get? place ≠ some .directory := by
  intro hdir
  rcases h.entry with ⟨hfree, -⟩ | ⟨old, hold, hopen⟩
  · rw [hdir] at hfree
    cases hfree
  · rw [hdir] at hold
    cases hold
    cases hopen

theorem not_isTop : ¬place.IsTop := by
  intro htop
  exact h.get?_ne_directory (if_pos htop)

/-- All paths lead to the same places after a change there. -/
theorem locate_insert (e' : Entry) {p : Path} {l : Location} (hl : d.locate p = .ok l) :
    (d.insert place e').locate p = .ok l := by
  refine locate_of_directories (fun q hq => ?_) hl
  rw [get?_insert h.not_isTop, if_neg, hq]
  rintro rfl
  exact h.get?_ne_directory hq

theorem located_insert (e' : Entry) :
    ∃ p, Path.ofString path = .ok p ∧ (d.insert place e').locate p = .ok ⟨place, false⟩ := by
  obtain ⟨p, hp, hl⟩ := h.located
  exact ⟨p, hp, h.locate_insert e' hl⟩

theorem read_insert (e' : Entry) : (d.insert place e').read path = e'.content := by
  obtain ⟨p, hp, hl⟩ := h.located_insert e'
  rw [read, hp, ok_bind, hl, ok_bind, h.named, ok_bind, get?_insert h.not_isTop, if_pos rfl]
  cases e' <;> rfl

theorem removing_insert (e' : Entry) :
    (d.insert place e').removing path = e'.removable.map fun _ => place := by
  obtain ⟨p, hp, hl⟩ := h.located_insert e'
  rw [removing, hp, ok_bind, hl, ok_bind, get?_insert h.not_isTop, if_pos rfl]
  cases e' <;> rfl

theorem append_insert (e' : Entry) (bs : Bytes) :
    (d.insert place e').append place bs = ((e'.append bs).1, d.insert place (e'.append bs).2) := by
  rw [append, get?_insert h.not_isTop, if_pos rfl]
  cases e' with
  | directory => rfl
  | _ =>
    simp [insert_insert]

end Opens

/-! ## Files that are read and written -/

/-- The file at a path is at a place, and some content is read from it. -/
structure Holds (d : Directory) (path : String) (place : Place) (content : Bytes) : Prop where
  located : ∃ p, Path.ofString path = .ok p ∧ d.locate p = .ok ⟨place, false⟩
  named : place.checkName = .ok ()
  entry : ∃ e, d.get? place = some e ∧ e.content = .ok content

/-- A new file can be written at a path: nothing is at its place, or a file is. -/
def Writable (d : Directory) (path : String) (place : Place) : Prop :=
  d.opening path = .ok (place, .file [])

section
variable {content : Bytes}

theorem read_eq_ok : d.read path = .ok content ↔ ∃ place, d.Holds path place content := by
  constructor
  · intro h
    obtain ⟨p, hp, h⟩ := exists_of_bind_eq_ok h
    obtain ⟨⟨place, isDirectory⟩, hl, h⟩ := exists_of_bind_eq_ok h
    obtain ⟨⟨⟩, hname, h⟩ := exists_of_bind_eq_ok h
    dsimp only at h hname
    cases hentry : d.get? place with
    | none =>
      rw [hentry] at h
      cases h
    | some e =>
      rw [hentry] at h
      cases isDirectory with
      | true => cases e <;> cases h
      | false =>
        refine ⟨place, ⟨p, hp, hl⟩, hname, e, hentry, ?_⟩
        cases e <;> exact h
  · rintro ⟨place, ⟨p, hp, hl⟩, hname, e, hentry, hcontent⟩
    rw [read, hp, ok_bind, hl, ok_bind, hname, ok_bind, hentry]
    cases e <;> exact hcontent

theorem Holds.read_eq (h : d.Holds path place content) : d.read path = .ok content :=
  read_eq_ok.2 ⟨place, h⟩

/-- A file that is opened at another place changes nothing about what is read. -/
theorem Holds.insert (h : d.Holds path place content) {path' : String} (hq : d.Opens path' q e)
    (hne : place ≠ q) (e' : Entry) : (d.insert q e').Holds path place content := by
  obtain ⟨⟨p, hp, hl⟩, hname, old, hentry, hcontent⟩ := h
  refine ⟨⟨p, hp, hq.locate_insert e' hl⟩, hname, old, ?_, hcontent⟩
  rw [get?_insert hq.not_isTop, if_neg hne, hentry]

theorem Writable.opens (h : d.Writable path place) : d.Opens path place (.file []) :=
  opens_of_opening h

/-- A file that is written anywhere leaves all paths writable that have been so. -/
theorem Writable.insert (h : d.Writable path place) {path' : String} (hq : d.Opens path' q e)
    (content : Bytes) : (d.insert q (.file content)).Writable path place := by
  obtain ⟨⟨p, hp, hl⟩, hname, hentry⟩ := opening_eq_ok.1 h
  refine opening_eq_ok.2 ⟨⟨p, hp, hq.locate_insert _ hl⟩, hname, ?_⟩
  rw [get?_insert hq.not_isTop]
  split
  · exact .inr ⟨_, rfl, rfl⟩
  · exact hentry

theorem Writable.holds_insert (h : d.Writable path place) (content : Bytes) :
    (d.insert place (.file content)).Holds path place content := by
  refine ⟨h.opens.located_insert _, h.opens.named, .file content, ?_, rfl⟩
  rw [get?_insert h.opens.not_isTop, if_pos rfl]

end

/-- Whatever has become of one place, all files at other places are read as before, and all paths
    that could be written can still be written. -/
structure Keeps (place : Place) (d d' : Directory) : Prop where
  holds : ∀ {path : String} {q : Place} {content : Bytes}, d.Holds path q content → q ≠ place →
    d'.Holds path q content
  writable : ∀ {path : String} {q : Place}, d.Writable path q → d'.Writable path q

theorem Keeps.refl (place : Place) (d : Directory) : Keeps place d d :=
  ⟨fun h _ => h, id⟩

theorem Writable.keeps_insert (h : d.Writable path place) (content : Bytes) :
    Keeps place d (d.insert place (.file content)) :=
  ⟨fun hold hne => hold.insert h.opens hne _, fun hold => hold.insert h.opens content⟩

end Directory

end OtaPack
