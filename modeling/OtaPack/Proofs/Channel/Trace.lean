/-
  The calls of a sink, one by one.

  * `Call`: an offer of bytes or a flush, with what came of it; `Call.fault?` is why it ends a
    writing;
  * `taken calls`: the bytes that were taken in some calls;
  * `WritesAll`, `Sends`: what `Sink.writeAll` and `Sink.send` do to a sink, step by step; what
    holds of all calls is shown by induction on these;
  * `Sink.Mirrors`: a sink that does what another one does, with more or less beside its state;
  * `Sink.traced`: the same sink, which also keeps all its calls (`sends_traced`).
-/
import OtaPack.Channel.Sink

namespace OtaPack.Channel

variable {σ τ ε : Type}

/-! ## Calls -/

/-- A call of a sink and what came of it. -/
inductive Call (ε : Type) where
  | write (bs : Bytes) (answer : Answer ε)
  | flush (outcome : Except ε Unit)

/-- The bytes that were taken in a call. -/
def Call.taken : Call ε → Bytes
  | write bs answer => bs.take answer.count
  | flush _ => []

/-- The fault that a call ends a writing with, if it does. -/
def Call.fault? : Call ε → Option (WriteFault ε)
  | write _ (.failed e) => some (.sink e)
  | write _ (.accepted 0) => some .nothingAccepted
  | flush (.error e) => some (.sink e)
  | _ => none

/-- The bytes that were taken in some calls. -/
def taken (calls : List (Call ε)) : Bytes :=
  calls.flatMap Call.taken

/-- The record of some calls. -/
def Record.ofCalls (calls : List (Call ε)) : Record where
  taken := Channel.taken calls
  offers := calls.filterMap fun | .write bs _ => some bs.length | .flush _ => none
  flushes := calls.countP fun | .write .. => false | .flush _ => true

@[simp] theorem taken_nil : taken ([] : List (Call ε)) = [] := rfl

@[simp] theorem taken_cons (c : Call ε) (calls : List (Call ε)) :
    taken (c :: calls) = c.taken ++ taken calls := rfl

@[simp] theorem taken_append (calls calls' : List (Call ε)) :
    taken (calls ++ calls') = taken calls ++ taken calls' :=
  List.flatMap_append

theorem prefix_taken {calls calls' : List (Call ε)} (h : calls <+: calls') :
    taken calls <+: taken calls' := by
  obtain ⟨more, rfl⟩ := h
  rw [taken_append]
  exact List.prefix_append _ _

/-! ## What a writing does, step by step -/

/-- Offering `bs` until nothing is left makes the calls `calls`, takes the sink from one state to
    another, and ends as told. -/
inductive WritesAll (k : Sink σ ε) :
    σ → Bytes → List (Call ε) → Except (WriteFault ε) Unit → σ → Prop
  | done {s} : WritesAll k s [] [] (.ok ()) s
  | interrupted {s s' s'' bs calls r} : bs ≠ [] → k.write s bs = (.interrupted, s') →
      WritesAll k s' bs calls r s'' → WritesAll k s bs (.write bs .interrupted :: calls) r s''
  | failed {s s' bs e} : bs ≠ [] → k.write s bs = (.failed e, s') →
      WritesAll k s bs [.write bs (.failed e)] (.error (.sink e)) s'
  | refused {s s' bs} : bs ≠ [] → k.write s bs = (.accepted 0, s') →
      WritesAll k s bs [.write bs (.accepted 0)] (.error .nothingAccepted) s'
  | accepted {s s' s'' bs n calls r} : bs ≠ [] → k.write s bs = (.accepted (n + 1), s') →
      WritesAll k s' (bs.drop (n + 1)) calls r s'' →
      WritesAll k s bs (.write bs (.accepted (n + 1)) :: calls) r s''

/-- Writing the parts in order and flushing makes the calls `calls`, and so on. -/
inductive Sends (k : Sink σ ε) :
    σ → List Bytes → List (Call ε) → Except (WriteFault ε) Unit → σ → Prop
  | flushed {s outcome s'} : k.flush s = (outcome, s') →
      Sends k s [] [.flush outcome] (outcome.mapError .sink) s'
  | written {s s' s'' bs parts calls calls' r} : WritesAll k s bs calls (.ok ()) s' →
      Sends k s' parts calls' r s'' → Sends k s (bs :: parts) (calls ++ calls') r s''
  | broken {s s' bs parts calls e} : WritesAll k s bs calls (.error e) s' →
      Sends k s (bs :: parts) calls (.error e) s'

theorem writeAll_of_ne_nil {k : Sink σ ε} {s : σ} {bs : Bytes} (hbs : bs ≠ []) :
    k.writeAll s bs = match k.write s bs with
      | (.interrupted, s') => k.writeAll s' bs
      | (.failed e, s') => (.error (.sink e), s')
      | (.accepted 0, s') => (.error .nothingAccepted, s')
      | (.accepted (n + 1), s') => k.writeAll s' (bs.drop (n + 1)) := by
  rw [Sink.writeAll, if_neg hbs]
  split <;> rename_i h <;> rw [h]

theorem exists_writesAll (k : Sink σ ε) (s : σ) (bs : Bytes) :
    ∃ calls, WritesAll k s bs calls (k.writeAll s bs).1 (k.writeAll s bs).2 := by
  fun_induction Sink.writeAll k s bs with
  | case1 s => exact ⟨[], .done⟩
  | case2 s bs hbs s' h ih =>
    obtain ⟨calls, hcalls⟩ := ih
    exact ⟨_, .interrupted hbs h hcalls⟩
  | case3 s bs hbs e s' h => exact ⟨_, .failed hbs h⟩
  | case4 s bs hbs s' h => exact ⟨_, .refused hbs h⟩
  | case5 s bs hbs n s' h ih =>
    obtain ⟨calls, hcalls⟩ := ih
    exact ⟨_, .accepted hbs h hcalls⟩

theorem exists_sends (k : Sink σ ε) (s : σ) (parts : List Bytes) :
    ∃ calls, Sends k s parts calls (k.send s parts).1 (k.send s parts).2 := by
  induction parts generalizing s with
  | nil => exact ⟨_, .flushed rfl⟩
  | cons bs parts ih =>
    obtain ⟨calls, hcalls⟩ := exists_writesAll k s bs
    rw [Sink.send]
    rcases h : k.writeAll s bs with ⟨_ | e, s'⟩
    · rw [h] at hcalls
      exact ⟨calls, .broken hcalls⟩
    · rw [h] at hcalls
      obtain ⟨calls', hcalls'⟩ := ih s'
      exact ⟨_, .written hcalls hcalls'⟩

section
variable {k : Sink σ ε} {s s' : σ} {bs : Bytes} {parts : List Bytes} {calls : List (Call ε)}
  {r : Except (WriteFault ε) Unit}

theorem WritesAll.writeAll_eq (h : WritesAll k s bs calls r s') : k.writeAll s bs = (r, s') := by
  induction h with
  | done => rw [Sink.writeAll, if_pos rfl]
  | interrupted hbs hw _ ih =>
    rw [writeAll_of_ne_nil hbs, hw]
    exact ih
  | failed hbs hw | refused hbs hw => rw [writeAll_of_ne_nil hbs, hw]
  | accepted hbs hw _ ih =>
    rw [writeAll_of_ne_nil hbs, hw]
    exact ih

theorem Sends.send_eq (h : Sends k s parts calls r s') : k.send s parts = (r, s') := by
  induction h with
  | flushed hf => rw [Sink.send, hf]
  | written hw _ ih => rw [Sink.send, hw.writeAll_eq]; exact ih
  | broken hw => rw [Sink.send, hw.writeAll_eq]

/-! ## Bytes, flushes and faults -/

theorem WritesAll.prefix_taken (h : WritesAll k s bs calls r s') : taken calls <+: bs := by
  induction h with
  | done => exact List.prefix_rfl
  | interrupted _ _ _ ih => exact ih
  | failed | refused => exact List.nil_prefix
  | @accepted _ _ _ bs n _ _ _ _ _ ih =>
    rw [taken_cons]
    show bs.take (n + 1) ++ _ <+: bs
    conv => rhs; rw [← List.take_append_drop (n + 1) bs]
    exact (List.prefix_append_right_inj _).2 ih

theorem WritesAll.taken_eq (h : WritesAll k s bs calls r s') (hr : r = .ok ()) :
    taken calls = bs := by
  induction h with
  | done => rfl
  | interrupted _ _ _ ih => exact ih hr
  | failed | refused => cases hr
  | @accepted _ _ _ bs n _ _ _ _ _ ih =>
    rw [taken_cons, ih hr]
    exact List.take_append_drop (n + 1) bs

theorem WritesAll.flush_notMem (h : WritesAll k s bs calls r s') (outcome : Except ε Unit) :
    Call.flush outcome ∉ calls := by
  induction h with
  | done | failed | refused => simp
  | interrupted _ _ _ ih | accepted _ _ _ ih => simpa using ih

theorem WritesAll.fault {e : WriteFault ε} (h : WritesAll k s bs calls r s') (hr : r = .error e) :
    ∃ before last, calls = before ++ [last] ∧ last.fault? = some e := by
  induction h with
  | done => cases hr
  | failed | refused => cases hr; exact ⟨[], _, rfl, rfl⟩
  | interrupted _ _ _ ih | accepted _ _ _ ih =>
    obtain ⟨before, last, rfl, hlast⟩ := ih hr
    exact ⟨_ :: before, last, rfl, hlast⟩

theorem Sends.prefix_taken (h : Sends k s parts calls r s') : taken calls <+: parts.flatten := by
  induction h with
  | flushed => exact List.nil_prefix
  | written hw _ ih =>
    rw [taken_append, hw.taken_eq rfl, List.flatten_cons]
    exact (List.prefix_append_right_inj _).2 ih
  | broken hw => exact hw.prefix_taken.trans (List.prefix_append _ _)

/-- The flush is the last call, and it comes after the last byte. -/
theorem Sends.flush_last (h : Sends k s parts calls r s') {before after : List (Call ε)}
    {outcome : Except ε Unit} (hcalls : calls = before ++ .flush outcome :: after) :
    taken before = parts.flatten ∧ after = [] ∧ r = outcome.mapError .sink := by
  induction h generalizing before with
  | flushed =>
    rcases before with _ | ⟨c, before⟩
    · cases hcalls
      exact ⟨rfl, rfl, rfl⟩
    · cases before <;> cases hcalls
  | written hw _ ih =>
    rcases List.append_eq_append_iff.1 hcalls with ⟨more, rfl, hmore⟩ | ⟨more, hmore, hrest⟩
    · obtain ⟨htaken, hafter, hr⟩ := ih hmore
      exact ⟨by rw [taken_append, hw.taken_eq rfl, htaken, List.flatten_cons], hafter, hr⟩
    · rcases more with _ | ⟨c, more⟩
      · -- the flush is the first call after those of the first part
        rw [List.append_nil] at hmore
        obtain ⟨htaken, hafter, hr⟩ := @ih [] hrest.symm
        refine ⟨?_, hafter, hr⟩
        rw [← hmore, hw.taken_eq rfl, List.flatten_cons, ← htaken, taken_nil, List.append_nil]
      · -- no part is written by a flush
        cases hrest
        refine absurd ?_ (hw.flush_notMem outcome)
        rw [hmore]
        simp
  | broken hw =>
    refine absurd ?_ (hw.flush_notMem outcome)
    rw [hcalls]
    simp

theorem Sends.flush_mem (h : Sends k s parts calls r s') (hr : r = .ok ()) :
    Call.flush (.ok ()) ∈ calls := by
  induction h with
  | @flushed _ outcome _ _ =>
    cases outcome with
    | ok => exact List.mem_singleton_self _
    | error => cases hr
  | written _ _ ih => exact List.mem_append_right _ (ih hr)
  | broken => cases hr

theorem Sends.taken_eq (h : Sends k s parts calls r s') (hr : r = .ok ()) :
    taken calls = parts.flatten := by
  obtain ⟨before, after, hcalls⟩ := List.append_of_mem (h.flush_mem hr)
  obtain ⟨htaken, rfl, -⟩ := h.flush_last hcalls
  rw [hcalls, taken_append, htaken]
  exact List.append_nil _

/-- A writing succeeds exactly when all bytes were taken and the flush succeeded. -/
theorem Sends.ok_iff (h : Sends k s parts calls r s') :
    r = .ok () ↔ taken calls = parts.flatten ∧ Call.flush (.ok ()) ∈ calls := by
  constructor
  · intro hr
    exact ⟨h.taken_eq hr, h.flush_mem hr⟩
  · rintro ⟨-, hmem⟩
    obtain ⟨before, after, hcalls⟩ := List.append_of_mem hmem
    obtain ⟨-, -, hr⟩ := h.flush_last hcalls
    exact hr

/-- A writing that fails fails with the fault of its last call. -/
theorem Sends.fault {e : WriteFault ε} (h : Sends k s parts calls r s') (hr : r = .error e) :
    ∃ before last, calls = before ++ [last] ∧ last.fault? = some e := by
  induction h with
  | @flushed _ outcome _ _ =>
    cases outcome with
    | ok => cases hr
    | error => cases hr; exact ⟨[], _, rfl, rfl⟩
  | @written _ _ _ _ _ calls _ _ _ _ ih =>
    obtain ⟨before, last, rfl, hlast⟩ := ih hr
    exact ⟨calls ++ before, last, (List.append_assoc _ _ _).symm, hlast⟩
  | broken hw => exact hw.fault hr

end

/-! ## Watching a sink -/

/-- The sink `l` does what `k` does, as seen through `f`. -/
structure Sink.Mirrors (l : Sink τ ε) (k : Sink σ ε) (f : σ → τ) : Prop where
  write_eq : ∀ s bs, l.write (f s) bs = ((k.write s bs).1, f (k.write s bs).2)
  flush_eq : ∀ s, l.flush (f s) = ((k.flush s).1, f (k.flush s).2)

section
variable {k : Sink σ ε} {l : Sink τ ε} {f : σ → τ} {s s' : σ} {bs : Bytes} {parts : List Bytes}
  {calls : List (Call ε)} {r : Except (WriteFault ε) Unit}

theorem Sink.Mirrors.writesAll (hl : l.Mirrors k f) (h : WritesAll k s bs calls r s') :
    WritesAll l (f s) bs calls r (f s') := by
  induction h with
  | done => exact .done
  | interrupted hbs hw _ ih => exact .interrupted hbs (by rw [hl.write_eq, hw]) ih
  | failed hbs hw => exact .failed hbs (by rw [hl.write_eq, hw])
  | refused hbs hw => exact .refused hbs (by rw [hl.write_eq, hw])
  | accepted hbs hw _ ih => exact .accepted hbs (by rw [hl.write_eq, hw]) ih

theorem Sink.Mirrors.sends (hl : l.Mirrors k f) (h : Sends k s parts calls r s') :
    Sends l (f s) parts calls r (f s') := by
  induction h with
  | flushed hf => exact .flushed (by rw [hl.flush_eq, hf])
  | written hw _ ih => exact .written (hl.writesAll hw) ih
  | broken hw => exact .broken (hl.writesAll hw)

end

/-! ## The trace of a sink -/

/-- The sink, with all calls so far beside its state. -/
def Sink.traced (k : Sink σ ε) : Sink (σ × List (Call ε)) ε where
  write s bs :=
    let (answer, s') := k.write s.1 bs
    (answer, s', s.2 ++ [.write bs answer])
  flush s :=
    let (r, s') := k.flush s.1
    (r, s', s.2 ++ [.flush r])
  patience s bs := k.patience s.1 bs
  accepted_le h := by
    simp only [Prod.mk.injEq] at h
    exact k.accepted_le (Prod.ext h.1 rfl)
  patience_lt h := by
    simp only [Prod.mk.injEq] at h
    obtain ⟨h₁, rfl⟩ := h
    exact k.patience_lt (Prod.ext h₁ rfl)

theorem mirrors_traced (k : Sink σ ε) : k.Mirrors k.traced Prod.fst :=
  ⟨fun _ _ => rfl, fun _ => rfl⟩

theorem ofCalls_append_write (calls : List (Call ε)) (bs : Bytes) (answer : Answer ε) :
    Record.ofCalls (calls ++ [.write bs answer]) =
      (Record.ofCalls calls).addOffer bs answer.count := by
  simp [Record.ofCalls, Record.addOffer, Call.taken]

theorem ofCalls_append_flush (calls : List (Call ε)) (outcome : Except ε Unit) :
    Record.ofCalls (calls ++ [.flush outcome]) =
      { Record.ofCalls calls with flushes := (Record.ofCalls calls).flushes + 1 } := by
  simp [Record.ofCalls, Call.taken]

theorem recorded_mirrors_traced (k : Sink σ ε) :
    k.recorded.Mirrors k.traced fun s => (s.1, Record.ofCalls s.2) where
  write_eq s bs := by
    simp only [Sink.recorded, Sink.traced, ofCalls_append_write]
  flush_eq s := by
    simp only [Sink.recorded, Sink.traced, ofCalls_append_flush]

section
variable {k : Sink σ ε} {s s' : σ × List (Call ε)} {bs : Bytes} {parts : List Bytes}
  {calls : List (Call ε)} {r : Except (WriteFault ε) Unit}

theorem snd_of_write_traced {answer : Answer ε} (h : k.traced.write s bs = (answer, s')) :
    s'.2 = s.2 ++ [.write bs answer] := by
  cases h
  rfl

theorem WritesAll.snd_traced (h : WritesAll k.traced s bs calls r s') : s'.2 = s.2 ++ calls := by
  induction h with
  | done => exact (List.append_nil _).symm
  | failed _ hw | refused _ hw => exact snd_of_write_traced hw
  | interrupted _ hw _ ih | accepted _ hw _ ih =>
    rw [ih, snd_of_write_traced hw, List.append_assoc]
    rfl

theorem Sends.snd_traced (h : Sends k.traced s parts calls r s') : s'.2 = s.2 ++ calls := by
  induction h with
  | flushed hf => cases hf; rfl
  | written hw _ ih => rw [ih, hw.snd_traced, List.append_assoc]
  | broken hw => exact hw.snd_traced

end

/-- The calls that a traced sink keeps are those that a writing makes. -/
theorem sends_traced {k : Sink σ ε} {s s' : σ} {parts : List Bytes} {calls : List (Call ε)}
    {r : Except (WriteFault ε) Unit} (h : k.traced.send (s, []) parts = (r, (s', calls))) :
    Sends k.traced (s, []) parts calls r (s', calls) := by
  obtain ⟨calls', hcalls⟩ := exists_sends k.traced (s, []) parts
  rw [h] at hcalls
  have htrace : calls = calls' := hcalls.snd_traced
  rwa [← htrace] at hcalls

end OtaPack.Channel
