/-
  Places that bytes are written to.

  * `Sink σ ε`: a sink with states `σ` and errors `ε`.  A sink may take only a part of the bytes
    that it is offered, and it may be interrupted, but not for ever (`patience`);
  * `Sink.writeAll`: offers all bytes that are left until none are;
  * `Sink.send`: writes some parts one after the other and flushes the sink once;
  * `Sink.recorded`: the same sink, which also keeps a `Record` of what it was asked to do and took.
-/
import OtaPack.Bytes

namespace OtaPack.Channel

variable {σ ε : Type}

/-- What a sink says to an offer of bytes. -/
inductive Answer (ε : Type) where
  /-- The first `n` bytes were taken. -/
  | accepted (n : Nat)
  /-- Nothing was taken, and the offer may be made again. -/
  | interrupted
  | failed (e : ε)
deriving DecidableEq, Repr

/-- A place that bytes are written to. -/
structure Sink (σ ε : Type) where
  write : σ → Bytes → Answer ε × σ
  flush : σ → Except ε Unit × σ
  /-- How often an offer may still be interrupted. -/
  patience : σ → Bytes → Nat
  /-- No more is taken than was offered. -/
  accepted_le : ∀ {s s' bs n}, write s bs = (.accepted n, s') → n ≤ bs.length
  /-- Every interruption is one less to come. -/
  patience_lt : ∀ {s s' bs}, write s bs = (.interrupted, s') → patience s' bs < patience s bs

/-- Why bytes did not reach a sink. -/
inductive WriteFault (ε : Type) where
  | sink (e : ε)
  /-- The sink took none of the bytes that it was offered. -/
  | nothingAccepted
deriving DecidableEq, Repr

/-- The fault in words, given those for the errors of the sink. -/
def WriteFault.message (describe : ε → String) : WriteFault ε → String
  | sink e => describe e
  | nothingAccepted => "failed to write whole buffer"

namespace Sink

/-- Offers `bs`, and what is left of it, until nothing is left.  No bytes are no offer. -/
def writeAll (k : Sink σ ε) (s : σ) (bs : Bytes) : Except (WriteFault ε) Unit × σ :=
  if bs = [] then (.ok (), s)
  else
    match _h : k.write s bs with
    | (.interrupted, s') => k.writeAll s' bs
    | (.failed e, s') => (.error (.sink e), s')
    | (.accepted 0, s') => (.error .nothingAccepted, s')
    | (.accepted (n + 1), s') => k.writeAll s' (bs.drop (n + 1))
termination_by (bs.length, k.patience s bs)
decreasing_by
  · exact Prod.Lex.right _ (k.patience_lt _h)
  · have := k.accepted_le _h
    exact Prod.Lex.left _ _ (by simp only [List.length_drop]; omega)

/-- Writes the parts in order and then flushes, up to the first fault. -/
def send (k : Sink σ ε) (s : σ) : (parts : List Bytes) → Except (WriteFault ε) Unit × σ
  | [] => let (r, s) := k.flush s; (r.mapError .sink, s)
  | bs :: parts =>
    match k.writeAll s bs with
    | (.ok (), s) => k.send s parts
    | (.error e, s) => (.error e, s)

end Sink

/-! ## Records -/

/-- What a sink has been asked to do and what it took. -/
structure Record where
  /-- The bytes that were taken. -/
  taken : Bytes := []
  /-- The number of bytes of each offer. -/
  offers : List Nat := []
  flushes : Nat := 0
deriving DecidableEq, Repr

/-- The record after one more offer, of which `n` bytes were taken. -/
def Record.addOffer (r : Record) (bs : Bytes) (n : Nat) : Record :=
  { r with taken := r.taken ++ bs.take n, offers := r.offers ++ [bs.length] }

/-- The number of bytes that an answer tells to be taken. -/
def Answer.count : Answer ε → Nat
  | .accepted n => n
  | .interrupted | .failed _ => 0

/-- The sink, with a record beside its state. -/
def Sink.recorded (k : Sink σ ε) : Sink (σ × Record) ε where
  write s bs :=
    let (answer, s') := k.write s.1 bs
    (answer, s', s.2.addOffer bs answer.count)
  flush s :=
    let (r, s') := k.flush s.1
    (r, s', { s.2 with flushes := s.2.flushes + 1 })
  patience s bs := k.patience s.1 bs
  accepted_le h := by
    simp only [Prod.mk.injEq] at h
    exact k.accepted_le (Prod.ext h.1 rfl)
  patience_lt h := by
    simp only [Prod.mk.injEq] at h
    obtain ⟨h₁, rfl⟩ := h
    exact k.patience_lt (Prod.ext h₁ rfl)

end OtaPack.Channel
