/-
  Places that bytes are read from.

  * `Source σ ε`: a source with states `σ` and errors `ε`.  It gives its bytes in pieces of any size
    and may be interrupted; no bytes are the end.  It comes to an end or fails at last (`budget`);
  * `Source.readAll`: reads up to the end.
-/
import OtaPack.Bytes

namespace OtaPack.Channel

variable {σ ε : Type}

/-- What a source says to a read. -/
inductive Arrival (ε : Type) where
  /-- The next bytes.  None are the end. -/
  | bytes (bs : Bytes)
  /-- Nothing was read, and the read may be tried again. -/
  | interrupted
  | failed (e : ε)
deriving DecidableEq, Repr

/-- Whether a read has to be followed by another one. -/
def Arrival.GoesOn : Arrival ε → Prop
  | bytes bs => bs ≠ []
  | interrupted => True
  | failed _ => False

/-- A place that bytes are read from. -/
structure Source (σ ε : Type) where
  read : σ → Arrival ε × σ
  /-- How many reads may still be followed by another one. -/
  budget : σ → Nat
  budget_lt : ∀ {s a s'}, read s = (a, s') → a.GoesOn → budget s' < budget s

namespace Source

/-- Reads up to the end.  The bytes of `acc` have been read before. -/
def readOnto (k : Source σ ε) (s : σ) (acc : Array UInt8) : Except ε (Array UInt8) × σ :=
  match _h : k.read s with
  | (.interrupted, s') => k.readOnto s' acc
  | (.failed e, s') => (.error e, s')
  | (.bytes [], s') => (.ok acc, s')
  | (.bytes (b :: bs), s') => k.readOnto s' (acc ++ (b :: bs))
termination_by k.budget s
decreasing_by
  · exact k.budget_lt _h trivial
  · exact k.budget_lt _h (by simp [Arrival.GoesOn])

/-- Reads up to the end. -/
def readAll (k : Source σ ε) (s : σ) : Except ε Bytes × σ :=
  let (r, s) := k.readOnto s #[]
  (r.map Array.toList, s)

end Source

end OtaPack.Channel
