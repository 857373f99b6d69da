/-
  What the buffer of a file keeps, on every file system.

  * `Buffers h I`: a statement `I given outcome s` about what has been given to the buffer of the
    open file `h`, which is kept when bytes wait, when they are written, and when they are refused;
  * `Buffers.flush`, `Buffers.put`: what a step keeps; `Outlives I`: a statement that texts on the
    streams of the program do not end, taken or lost;
  * `Buffers.putPieces`, `Buffers.writeContent`: what a run keeps, in pieces or at once, so that it
    holds of the whole content in the end;
  * `Recorded σ`: a state with the bytes that have been handed to files so far;
    `Mirrors.writeOutput`: keeping this record changes nothing;
  * `HandedInOrder`: what is handed to a file is its content, in order, and nothing more;
    `handedInOrder_writeOutput`: so it is for every file that is written.
-/
import OtaPack.Files.FileSystem

namespace OtaPack

namespace FileSystem

/-- What waits after bytes have been written, or why they have not been. -/
def emptied (outcome : Except OsError Unit) : Except WriteError Bytes :=
  (outcome.map fun _ => []).mapError .os

theorem run_bind {σ α β : Type} (m : StateM σ α) (f : α → StateM σ β) (s : σ) :
    (m >>= f).run s = (f (m.run s).1).run (m.run s).2 := rfl

/-! ## The buffer -/

section
variable {σ : Type} [FileSystem (StateM σ)]

/-- A statement about where the writing of the open file `h` stands.  `I given outcome s` tells it
    in the state `s`, when the bytes `given` have been given to the buffer: the outcome is what
    waits, or why bytes have been refused. -/
structure Buffers (h : Handle (StateM σ)) (I : Bytes → Except WriteError Bytes → σ → Prop) :
    Prop where
  /-- More bytes wait behind those that wait. -/
  wait : ∀ {given waiting : Bytes} {s : σ}, I given (.ok waiting) s → ∀ bs,
    I (given ++ bs) (.ok (waiting ++ bs)) s
  /-- What waits is written. -/
  append : ∀ {given waiting : Bytes} {s : σ}, I given (.ok waiting) s → waiting ≠ [] →
    I given (emptied ((append h waiting).run s).1) ((append h waiting).run s).2
  /-- After a refusal more bytes may be given. -/
  more : ∀ {given : Bytes} {x : WriteError} {s : σ}, I given (.error x) s → ∀ bs,
    I (given ++ bs) (.error x) s

namespace Buffers

variable {h : Handle (StateM σ)} {I : Bytes → Except WriteError Bytes → σ → Prop}
  {given waiting : Bytes} {s : σ} (hI : Buffers h I)
include hI

/-- After a flush nothing waits. -/
theorem flush (hs : I given (.ok waiting) s) :
    I given (emptied ((flush h waiting).run s).1) ((flush h waiting).run s).2 := by
  by_cases hwaiting : waiting = []
  · rw [FileSystem.flush, if_pos hwaiting]
    subst hwaiting
    exact hs
  · rw [FileSystem.flush, if_neg hwaiting]
    exact hI.append hs hwaiting

/-- After bytes have been put into the buffer they are written, or wait behind those before. -/
theorem put (hs : I given (.ok waiting) s) (bs : Bytes) :
    I (given ++ bs) (((put h waiting bs).run s).1.mapError .os) ((put h waiting bs).run s).2 := by
  unfold FileSystem.put
  split
  · exact hI.wait hs bs
  · have hflush := hI.flush hs
    rw [run_bind]
    cases hr : ((FileSystem.flush h waiting).run s).1 with
    | error x =>
      rw [hr] at hflush
      exact hI.more hflush bs
    | ok =>
      rw [hr] at hflush
      have hwaits : I (given ++ bs) (.ok bs) ((FileSystem.flush h waiting).run s).2 :=
        hI.wait hflush bs
      dsimp only
      split
      · exact hwaits
      · -- A piece that is not smaller than the buffer is not empty, so it is written at once.
        rename_i hlarge
        refine hI.append hwaits ?_
        rintro rfl
        exact hlarge (by decide)

end Buffers

variable [Console (StateM σ)]

/-- A statement that the streams of the program do not end: it is kept by every text that is sent,
    and when a text gets lost, so that the writing stops. -/
structure Outlives (I : Bytes → Except WriteError Bytes → σ → Prop) : Prop where
  sent : ∀ {given : Bytes} {outcome : Except WriteError Bytes} {s : σ}, I given outcome s →
    ∀ stream text, I given outcome ((Console.send (m := StateM σ) stream text).run s).2
  lost : ∀ {given : Bytes} {outcome : Except WriteError Bytes} {s s' : σ} {text : String},
    ((Console.send (m := StateM σ) .output text).run s).1 = false → I given outcome s' →
      I given (.error .stopped) s'

namespace Buffers

variable {h : Handle (StateM σ)} {I : Bytes → Except WriteError Bytes → σ → Prop}
  {given waiting : Bytes} {s : σ} (hI : Buffers h I) (hO : Outlives I)
include hI hO

theorem abandon {text : String} {s' : σ}
    (hlost : ((Console.send (m := StateM σ) .output text).run s').1 = false)
    (hs : I given (.ok waiting) s) :
    I given (.error .stopped) ((abandon h waiting).run s).2 :=
  hO.lost hlost (hI.flush hs)

/-- After all pieces have been given to the buffer, what they are made of has been given to it. -/
theorem putPieces (hs : I given (.ok waiting) s) (total : Nat) (pieces : List Bytes) (done : Nat) :
    I (given ++ pieces.flatten) ((putPieces h total pieces waiting done).run s).1
      ((putPieces h total pieces waiting done).run s).2 := by
  induction pieces generalizing given waiting s done with
  | nil =>
    rw [List.flatten_nil, List.append_nil]
    exact hs
  | cons bs rest ih =>
    have hput := hI.put hs bs
    rw [FileSystem.putPieces, run_bind, List.flatten_cons, ← List.append_assoc]
    cases hr : ((FileSystem.put h waiting bs).run s).1 with
    | error x =>
      rw [hr] at hput
      exact hI.more hput _
    | ok waiting' =>
      rw [hr] at hput
      have hsent := hO.sent hput .output (progress (done + bs.length) total)
      dsimp only
      rw [run_bind]
      cases htaken : ((Console.send (m := StateM σ) .output
          (progress (done + bs.length) total)).run _).1 with
      | true => exact ih hsent _
      | false => exact hI.more (hI.abandon hO htaken hsent) _

-- From here on the buffer starts out empty.

theorem putContent (hs : I [] (.ok []) s) (inPieces : Bool) (content : Bytes) :
    I content ((putContent h inPieces content).run s).1
      ((putContent h inPieces content).run s).2 := by
  cases inPieces with
  | false => exact hI.put hs content
  | true =>
    have hpieces := hI.putPieces hO hs content.length (chunksOf pieceSize content) 0
    rw [flatten_chunksOf (by decide), List.nil_append] at hpieces
    have hsent := hO.sent hpieces .output "\n"
    rw [FileSystem.putContent, if_pos rfl, run_bind]
    cases hr : ((FileSystem.putPieces h content.length
        (chunksOf pieceSize content) [] 0).run s).1 with
    | ok waiting =>
      rw [hr] at hsent
      dsimp only
      rw [run_bind]
      cases htaken : ((Console.send (m := StateM σ) .output "\n").run _).1 with
      | true => exact hsent
      | false => exact hI.abandon hO htaken hsent
    | error x =>
      rw [hr] at hpieces hsent
      cases x with
      | stopped => exact hpieces
      | os x =>
        dsimp only
        rw [run_bind]
        cases htaken : ((Console.send (m := StateM σ) .output "\n").run _).1 with
        | true => exact hsent
        | false => exact hO.lost htaken hsent

/-- **What holds of the buffer** holds in the end of the whole content, whether it has been written
    in pieces or at once. -/
theorem writeContent (hs : I [] (.ok []) s) (inPieces : Bool) (content : Bytes) :
    I content (((writeContent h inPieces content).run s).1.map fun _ => [])
      ((writeContent h inPieces content).run s).2 := by
  have hput := hI.putContent hO hs inPieces content
  rw [FileSystem.writeContent, run_bind]
  cases hr : ((FileSystem.putContent h inPieces content).run s).1 with
  | error x =>
    rw [hr] at hput
    exact hput
  | ok waiting =>
    rw [hr] at hput
    have hflush := hI.flush hput
    dsimp only
    rw [run_bind]
    cases hw : ((FileSystem.flush h waiting).run _).1 <;> rw [hw] at hflush <;> exact hflush

end Buffers

end

/-! ## Records -/

/-- A state, and the bytes that have been handed to files so far, in order. -/
structure Recorded (σ : Type) [FileSystem (StateM σ)] where
  state : σ
  handed : List (Handle (StateM σ) × Bytes) := []

namespace Recorded

variable {σ : Type} [FileSystem (StateM σ)]

/-- Does what is done to the state. -/
def lift {α : Type} (m : StateM σ α) : StateM (Recorded σ) α := fun r =>
  ((m.run r.state).1, { r with state := (m.run r.state).2 })

instance : FileSystem (StateM (Recorded σ)) where
  Handle := Handle (StateM σ)
  read path := lift (read path)
  create path := lift (create path)
  append h bs := do
    modify fun r => { r with handed := r.handed ++ [(h, bs)] }
    lift (append h bs)
  remove path := lift (remove path)

instance [Console (StateM σ)] : Console (StateM (Recorded σ)) where
  send s text := lift (Console.send s text)

/-- The bytes that have been handed over. -/
def bytes (r : Recorded σ) : Bytes :=
  r.handed.flatMap Prod.snd

end Recorded

/-! ### A record changes nothing -/

section
variable {σ α β : Type} [FileSystem (StateM σ)]

/-- The first computation ends as the second one does on the state alone. -/
def Mirrors (m : StateM (Recorded σ) α) (m' : StateM σ α) : Prop :=
  ∀ r, (m.run r).1 = (m'.run r.state).1 ∧ (m.run r).2.state = (m'.run r.state).2

namespace Mirrors

theorem pure (a : α) : Mirrors (σ := σ) (pure a) (pure a) := fun _ => ⟨rfl, rfl⟩

theorem bind {m : StateM (Recorded σ) α} {m' : StateM σ α} {f : α → StateM (Recorded σ) β}
    {f' : α → StateM σ β} (h : Mirrors m m') (hf : ∀ a, Mirrors (f a) (f' a)) :
    Mirrors (m >>= f) (m' >>= f') := by
  intro r
  obtain ⟨houtcome, hstate⟩ := h r
  rw [run_bind, run_bind, houtcome, ← hstate]
  exact hf _ _

theorem lift (m : StateM σ α) : Mirrors (Recorded.lift m) m := fun _ => ⟨rfl, rfl⟩

variable {h : Handle (StateM σ)}

theorem append (bs : Bytes) :
    Mirrors (append (m := StateM (Recorded σ)) h bs) (append (m := StateM σ) h bs) :=
  fun _ => ⟨rfl, rfl⟩

theorem flush (waiting : Bytes) :
    Mirrors (flush (m := StateM (Recorded σ)) h waiting) (flush (m := StateM σ) h waiting) := by
  unfold FileSystem.flush
  split
  · exact pure _
  · exact append _

theorem put (waiting bs : Bytes) :
    Mirrors (put (m := StateM (Recorded σ)) h waiting bs)
      (put (m := StateM σ) h waiting bs) := by
  unfold FileSystem.put
  split
  · exact pure _
  · refine (flush waiting).bind fun outcome => ?_
    cases outcome with
    | error x => exact pure _
    | ok =>
      dsimp only
      split
      · exact pure _
      · exact (append bs).bind fun _ => pure _

/-- Whether a text is taken or not. -/
theorem ite {α : Type} {m n : StateM (Recorded σ) α} {m' n' : StateM σ α} (hm : Mirrors m m')
    (hn : Mirrors n n') (taken : Bool) :
    Mirrors (if taken then m else n) (if taken then m' else n') := by
  cases taken with
  | true => exact hm
  | false => exact hn

theorem abandon (waiting : Bytes) :
    Mirrors (abandon (m := StateM (Recorded σ)) h waiting)
      (abandon (m := StateM σ) h waiting) :=
  (flush waiting).bind fun _ => pure _

variable [Console (StateM σ)]

theorem putPieces (total : Nat) (pieces : List Bytes) (waiting : Bytes) (done : Nat) :
    Mirrors (putPieces (m := StateM (Recorded σ)) h total pieces waiting done)
      (putPieces (m := StateM σ) h total pieces waiting done) := by
  induction pieces generalizing waiting done with
  | nil => exact pure _
  | cons bs rest ih =>
    refine (put waiting bs).bind fun outcome => ?_
    cases outcome with
    | error x => exact pure _
    | ok waiting => exact (lift _).bind fun taken => (ih _ _).ite (abandon _) taken

theorem putContent (inPieces : Bool) (content : Bytes) :
    Mirrors (putContent (m := StateM (Recorded σ)) h inPieces content)
      (putContent (m := StateM σ) h inPieces content) := by
  cases inPieces with
  | false => exact (put [] content).bind fun _ => pure _
  | true =>
    refine (putPieces _ _ _ _).bind fun outcome => ?_
    rcases outcome with (x | _) | waiting
    · exact (lift _).bind fun _ => pure _
    · exact pure _
    · exact (lift _).bind fun taken => (pure _).ite (abandon _) taken

theorem writeContent (inPieces : Bool) (content : Bytes) :
    Mirrors (writeContent (m := StateM (Recorded σ)) h inPieces content)
      (writeContent (m := StateM σ) h inPieces content) := by
  refine (putContent inPieces content).bind fun outcome => ?_
  cases outcome with
  | error x => exact pure _
  | ok waiting => exact (flush waiting).bind fun _ => pure _

theorem writeOutput (inPieces : Bool) (path : String) (content : Bytes) :
    Mirrors (writeOutput (m := StateM (Recorded σ)) inPieces path content)
      (writeOutput (m := StateM σ) inPieces path content) := by
  refine (lift _).bind fun created => ?_
  cases created with
  | error x => exact pure _
  | ok h =>
    refine (writeContent inPieces content).bind fun written => ?_
    rcases written with (x | _) | _
    · refine (lift _).bind fun removed => ?_
      cases removed <;> exact pure _
    · exact pure _
    · exact pure _

end Mirrors

/-! ### What a record shows -/

/-- All that has been handed over was for the file `h`, and it is what has been given to the buffer,
    but for what waits; after a refusal it is the front of it. -/
structure Hands (h : Handle (StateM σ)) (given : Bytes) (outcome : Except WriteError Bytes)
    (r : Recorded σ) : Prop where
  file : ∀ x ∈ r.handed, x.1 = h
  bytes : match outcome with
    | .ok waiting => r.bytes ++ waiting = given
    | .error _ => r.bytes <+: given

variable {h : Handle (StateM σ)}

/-- After a refusal neither the error nor the state counts. -/
theorem Hands.refused {given : Bytes} {x : WriteError} {r : Recorded σ}
    (h' : Hands h given (.error x) r) (y : WriteError) (s : σ) :
    Hands h given (.error y) { r with state := s } :=
  ⟨h'.file, h'.bytes⟩

/-- What has been handed over is the front of what has been given, whatever waits. -/
theorem Hands.front {given : Bytes} {outcome : Except WriteError Bytes} {r : Recorded σ}
    (h' : Hands h given outcome r) : r.bytes <+: given := by
  have hbytes := h'.bytes
  cases outcome with
  | error => exact hbytes
  | ok waiting => exact ⟨waiting, hbytes⟩

theorem buffers_hands : Buffers (σ := Recorded σ) h (Hands h) where
  wait := by
    rintro given waiting r ⟨hfile, hbytes⟩ bs
    refine ⟨hfile, ?_⟩
    dsimp only at hbytes ⊢
    rw [← hbytes, List.append_assoc]
  append := by
    rintro given waiting r ⟨hfile, hbytes⟩ -
    have hfile' : ∀ x ∈ r.handed ++ [(h, waiting)], x.1 = h := by
      intro x hx
      rcases List.mem_append.1 hx with hx | hx
      · exact hfile x hx
      · rw [List.mem_singleton.1 hx]
    have hbytes' : ((FileSystem.append (m := StateM (Recorded σ)) h waiting).run r).2.bytes =
        given := by
      rw [← hbytes]
      exact List.flatMap_append.trans (congrArg (r.bytes ++ ·) (List.append_nil waiting))
    refine ⟨hfile', ?_⟩
    cases ((FileSystem.append (m := StateM (Recorded σ)) h waiting).run r).1 with
    | ok => exact (List.append_nil _).trans hbytes'
    | error => exact hbytes' ▸ List.prefix_refl _
  more := by
    rintro given x r ⟨hfile, hbytes⟩ bs
    exact ⟨hfile, hbytes.trans (List.prefix_append given bs)⟩

variable [Console (StateM σ)]

theorem outlives_hands : Outlives (σ := Recorded σ) (Hands h) where
  sent := by
    rintro given outcome r ⟨hfile, hbytes⟩ stream text
    exact ⟨hfile, hbytes⟩
  lost _ h' := ⟨h'.file, h'.front⟩

theorem hands_writeContent {r : Recorded σ} (hr : r.handed = []) (inPieces : Bool)
    (content : Bytes) :
    Hands h content
      (((writeContent (m := StateM (Recorded σ)) h inPieces content).run r).1.map fun _ => [])
      ((writeContent (m := StateM (Recorded σ)) h inPieces content).run r).2 := by
  have hstart : Hands h [] (.ok []) r := by
    refine ⟨?_, ?_⟩
    · rw [hr]
      nofun
    · rw [Recorded.bytes, hr]
      rfl
  exact buffers_hands.writeContent outlives_hands hstart inPieces content

/-- What is handed over is for the file that is created, and if none is, nothing is. -/
theorem hands_writeOutput (inPieces : Bool) (path : String) (content : Bytes) (s : σ) :
    let created := ((create (m := StateM σ) path).run s).1
    let recorded := (writeOutput (m := StateM (Recorded σ)) inPieces path content).run ⟨s, []⟩
    (∃ x, created = .error x ∧ recorded.1 = .error (.os x) ∧ recorded.2.handed = []) ∨
      ∃ h, created = .ok h ∧ Hands h content (recorded.1.map fun _ => []) recorded.2 := by
  intro created recorded
  have hcreate : (create (m := StateM (Recorded σ)) path).run ⟨s, []⟩ =
      (created, ⟨((create (m := StateM σ) path).run s).2, []⟩) := rfl
  have hrecorded : recorded =
      (writeOutput (m := StateM (Recorded σ)) inPieces path content).run ⟨s, []⟩ := rfl
  rw [FileSystem.writeOutput, run_bind, hcreate] at hrecorded
  cases hcreated : created with
  | error x =>
    rw [hcreated] at hrecorded
    rw [hrecorded]
    exact .inl ⟨x, rfl, rfl, rfl⟩
  | ok h =>
    refine .inr ⟨h, rfl, ?_⟩
    rw [hcreated] at hrecorded
    dsimp only at hrecorded
    rw [run_bind] at hrecorded
    have hhands := hands_writeContent (h := h)
      (r := ⟨((create (m := StateM σ) path).run s).2, []⟩) rfl inPieces content
    generalize (FileSystem.writeContent (m := StateM (Recorded σ)) h inPieces content).run _ = w
      at hhands hrecorded
    obtain ⟨written, r⟩ := w
    rw [hrecorded]
    rcases written with (x | _) | _
    · have hremove : (remove (m := StateM (Recorded σ)) path).run r =
          (((remove (m := StateM σ) path).run r.state).1,
            { r with state := ((remove (m := StateM σ) path).run r.state).2 }) := rfl
      dsimp only
      rw [run_bind, hremove]
      cases ((remove (m := StateM σ) path).run r.state).1 <;> exact hhands.refused _ _
    · exact hhands
    · exact hhands

/-- How the writing of a file ends when a record is kept, and how it ends without. -/
structure HandedInOrder (created : Except OsError (Handle (StateM σ))) (content : Bytes)
    (recorded : Except WriteError Unit × Recorded σ) (plain : Except WriteError Unit × σ) :
    Prop where
  outcome : recorded.1 = plain.1
  state : recorded.2.state = plain.2
  /-- Nothing is handed to another file. -/
  file : ∀ x ∈ recorded.2.handed, created = .ok x.1
  front : recorded.2.bytes <+: content
  whole : recorded.1 = .ok () → recorded.2.bytes = content

/-- **What is handed to a file** is its content, in order, in pieces or at once; after a failure it
    is the front of it. -/
theorem handedInOrder_writeOutput (inPieces : Bool) (path : String) (content : Bytes) (s : σ) :
    HandedInOrder ((create (m := StateM σ) path).run s).1 content
      ((writeOutput (m := StateM (Recorded σ)) inPieces path content).run ⟨s, []⟩)
      ((writeOutput (m := StateM σ) inPieces path content).run s) := by
  obtain ⟨houtcome, hstate⟩ := Mirrors.writeOutput inPieces path content (⟨s, []⟩ : Recorded σ)
  have hhands := hands_writeOutput inPieces path content s
  generalize (FileSystem.writeOutput (m := StateM (Recorded σ)) inPieces path content).run _ =
    recorded at *
  obtain ⟨outcome, r⟩ := recorded
  rcases hhands with ⟨x, -, herror, hnone⟩ | ⟨h, hcreated, hfile, hbytes⟩
  · have hbytes : r.bytes = [] := congrArg (List.flatMap Prod.snd) hnone
    cases herror
    exact ⟨houtcome, hstate, by rw [hnone]; nofun, hbytes ▸ List.nil_prefix, nofun⟩
  · have hfile' (y : Handle (StateM σ) × Bytes) (hy : y ∈ r.handed) :
        ((create (m := StateM σ) path).run s).1 = .ok y.1 := by
      rw [hcreated, hfile y hy]
    cases outcome with
    | ok =>
      have hwhole : r.bytes = content := (List.append_nil _).symm.trans hbytes
      exact ⟨houtcome, hstate, hfile', hwhole ▸ List.prefix_refl _, fun _ => hwhole⟩
    | error x => exact ⟨houtcome, hstate, hfile', hbytes, nofun⟩

end

end FileSystem

end OtaPack
