/-
  Sources and sinks in memory, with limits and faults that can be chosen.

  * `Fault`: what goes wrong with them;
  * `BoundedSink`: a sink with room for a number of bytes, which takes a number of them at once;
  * `BoundedSource`: a source that gives a number of bytes at once and may fail at a given place.
-/
import OtaPack.Channel.Sink
import OtaPack.Channel.Source

namespace OtaPack.Channel

/-- What goes wrong in memory. -/
inductive Fault where
  | diskFull
  | flushFailed
  | readFailed
deriving DecidableEq, Repr

/-- The fault in words. -/
def Fault.message : Fault → String
  | diskFull => "disk full"
  | flushFailed => "flush failed"
  | readFailed => "read failed"

/-- `n`, but no more than the bound, if there is one. -/
def capped (bound : Option Nat) (n : Nat) : Nat :=
  match bound with
  | some b => min b n
  | none => n

theorem capped_le (bound : Option Nat) (n : Nat) : capped bound n ≤ n := by
  cases bound with
  | none => exact Nat.le_refl _
  | some b => exact Nat.min_le_right _ _

/-! ## Sinks -/

/-- The state of a sink in memory. -/
structure BoundedSink where
  /-- The number of bytes for which there is room, if it is limited. -/
  room : Option Nat := none
  /-- The number of bytes taken at once, if it is limited. -/
  atOnce : Option Nat := none
  /-- Without room the sink takes nothing instead of failing. -/
  silent : Bool := false
  flushFails : Bool := false
  /-- The number of offers that are interrupted first. -/
  interrupts : Nat := 0
deriving DecidableEq, Repr

/-- An offer of bytes to a sink in memory. -/
def BoundedSink.offer (s : BoundedSink) (bs : Bytes) : Answer Fault × BoundedSink :=
  if s.interrupts ≠ 0 then (.interrupted, { s with interrupts := s.interrupts - 1 })
  else if s.room = some 0 ∧ ¬ s.silent then (.failed .diskFull, s)
  else
    let n := capped s.atOnce (capped s.room bs.length)
    (.accepted n, { s with room := s.room.map (· - n) })

/-- Sinks in memory. -/
def BoundedSink.sink : Sink BoundedSink Fault where
  write := offer
  flush s := (if s.flushFails then .error .flushFailed else .ok (), s)
  patience s _ := s.interrupts
  accepted_le {s s' bs n} h := by
    simp only [offer] at h
    split at h
    · cases h
    split at h
    · cases h
    cases h
    exact Nat.le_trans (capped_le _ _) (capped_le _ _)
  patience_lt {s s' bs} h := by
    simp only [offer] at h
    split at h
    · cases h
      simp only
      omega
    split at h
    · cases h
    · cases h

/-! ## Sources -/

/-- The state of a source in memory. -/
structure BoundedSource where
  /-- The bytes that are still to be given. -/
  rest : Bytes
  /-- The number of bytes given at once, if it is limited. -/
  atOnce : Option Nat := none
  /-- The number of bytes after which the source fails, if it does. -/
  failsAfter : Option Nat := none
  /-- The number of reads that are interrupted first. -/
  interrupts : Nat := 0
deriving DecidableEq, Repr

/-- A read from a source in memory. -/
def BoundedSource.next (s : BoundedSource) : Arrival Fault × BoundedSource :=
  if s.interrupts ≠ 0 then (.interrupted, { s with interrupts := s.interrupts - 1 })
  else if s.failsAfter = some 0 then (.failed .readFailed, s)
  else
    let n := capped s.atOnce (capped s.failsAfter s.rest.length)
    (.bytes (s.rest.take n),
      { s with rest := s.rest.drop n, failsAfter := s.failsAfter.map (· - n) })

/-- Sources in memory. -/
def BoundedSource.source : Source BoundedSource Fault where
  read := next
  budget s := s.interrupts + s.rest.length
  budget_lt {s a s'} h ha := by
    simp only [next] at h
    split at h
    · cases h
      simp only
      omega
    split at h
    · cases h
      exact ha.elim
    · cases h
      simp only [Arrival.GoesOn, ne_eq, List.take_eq_nil_iff, not_or] at ha
      have : s.rest.length ≠ 0 := fun h0 => ha.2 (List.eq_nil_of_length_eq_zero h0)
      simp only [List.length_drop]
      omega

end OtaPack.Channel
