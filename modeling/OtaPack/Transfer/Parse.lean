/-
  Reading a transfer document.

  A document is an object with the three members in any order, among others that are passed over,
  or an array of the three values.

  * `Draft`: the members read so far; `Draft.complete` needs all three of them;
  * `readObject`, `readArray`: read what stands inside the brackets;
  * `Document.parse`: reads a document.  The first problem from left to right is reported: a member
    that comes twice at its second name, a missing one at the closing brace.
-/
import OtaPack.Json.Skip
import OtaPack.Transfer.Document

namespace OtaPack.Transfer

open Json

/-! ## Objects -/

/-- The members of a document read so far. -/
structure Draft where
  binary : Option String := none
  chunkSize : Option UInt32 := none
  delay : Option UInt32 := none
deriving DecidableEq, Repr

/-- The document, if no member is missing. -/
def Draft.complete : Draft → Except Problem Document
  | ⟨some binary, some chunkSize, some delay⟩ => .ok ⟨binary, chunkSize, delay⟩
  | _ => .error .mismatch

/-- The members of a document. -/
inductive Member where
  | binary
  | chunkSize
  | delay
deriving DecidableEq, Repr

/-- The member of a name. -/
def Member.ofName? : String → Option Member
  | "binary" => some .binary
  | "chunk_size" => some .chunkSize
  | "delay" => some .delay
  | _ => none

/-- Whether a member has been read. -/
def Draft.has (d : Draft) : Member → Bool
  | .binary => d.binary.isSome
  | .chunkSize => d.chunkSize.isSome
  | .delay => d.delay.isSome

/-- Reads the value of a member. -/
def Draft.readValue (d : Draft) (m : Member) (cs : List Char) :
    Except Problem (Draft × List Char) :=
  match m with
  | .binary => (readText cs).map fun (s, rest) => ({ d with binary := some s }, rest)
  | .chunkSize => (readWord32 cs).map fun (w, rest) => ({ d with chunkSize := some w }, rest)
  | .delay => (readWord32 cs).map fun (w, rest) => ({ d with delay := some w }, rest)

/-- Reads the colon after a name. -/
def readColon (cs : List Char) : Except Problem (List Char) :=
  expectWord [':'] (skipBlanks cs)

/-- Reads what follows a name: the colon and the value.  A name that has come before is refused, and
    the value of a name that is not a member's is passed over. -/
def Draft.readAfterName (d : Draft) (name : String) (cs : List Char) :
    Except Problem (Draft × List Char) :=
  match Member.ofName? name with
  | some m =>
    if d.has m then .error .mismatch
    else match readColon cs with
      | .ok rest => d.readValue m rest
      | .error p => .error p
  | none =>
    match readColon cs with
    | .ok rest => (skipValue rest).map fun rest => (d, rest)
    | .error p => .error p

/-- Reads a name and what follows it. -/
def Draft.readMember (d : Draft) (cs : List Char) : Except Problem (Draft × List Char) :=
  match skipBlanks cs with
  | [] => .error .endOfText
  | c :: rest =>
    if c = '"' then
      match readQuoted rest with
      | .ok (name, rest) => d.readAfterName name rest
      | .error p => .error p
    else .error .malformed

theorem Draft.length_of_readValue {d d' : Draft} {m : Member} {cs rest : List Char}
    (h : d.readValue m cs = .ok (d', rest)) : rest.length < cs.length := by
  cases m with
  | binary =>
    obtain ⟨⟨s, r⟩, hr, e⟩ := exists_of_map_eq_ok h
    cases e
    exact length_of_readText hr
  | chunkSize =>
    obtain ⟨⟨w, r⟩, hr, e⟩ := exists_of_map_eq_ok h
    cases e
    exact length_of_readWord32 hr
  | delay =>
    obtain ⟨⟨w, r⟩, hr, e⟩ := exists_of_map_eq_ok h
    cases e
    exact length_of_readWord32 hr

theorem length_of_readColon {cs rest : List Char} (h : readColon cs = .ok rest) :
    rest.length < cs.length := by
  have := length_of_expectWord h
  have := length_skipBlanks_le cs
  simp only [List.length_cons, List.length_nil] at *
  omega

theorem Draft.length_of_readAfterName {d d' : Draft} {name : String} {cs rest : List Char}
    (h : d.readAfterName name cs = .ok (d', rest)) : rest.length < cs.length := by
  unfold Draft.readAfterName at h
  split at h
  · split at h
    · cases h
    split at h
    · rename_i hc
      have := length_of_readColon hc
      have := Draft.length_of_readValue h
      omega
    · cases h
  · split at h
    · rename_i hc
      obtain ⟨r, hr, e⟩ := exists_of_map_eq_ok h
      have := length_of_readColon hc
      have := length_of_skipValue hr
      cases e
      omega
    · cases h

theorem Draft.length_of_readMember {d d' : Draft} {cs rest : List Char}
    (h : d.readMember cs = .ok (d', rest)) : rest.length < cs.length := by
  have hb := length_skipBlanks_le cs
  unfold Draft.readMember at h
  split at h
  · cases h
  rename_i c cs' hc
  rw [hc, List.length_cons] at hb
  split at h
  · split at h
    · rename_i hq
      have := length_of_readQuoted hq
      have := Draft.length_of_readAfterName h
      omega
    · cases h
  · cases h

/-- Reads the members after the first one, up to the closing brace. -/
def readMembers (d : Draft) (cs : List Char) : Except Problem (Document × List Char) :=
  match _h : skipBlanks cs with
  | [] => .error .endOfText
  | c :: rest =>
    if c = '\x7d' then d.complete.map fun document => (document, rest)
    else if c = ',' then
      match _h' : d.readMember rest with
      | .ok (d, after) => readMembers d after
      | .error p => .error p
    else .error .malformed
termination_by cs.length
decreasing_by
  have hb := length_skipBlanks_le cs
  rw [_h, List.length_cons] at hb
  have := Draft.length_of_readMember _h'
  omega

/-- Reads an object, after its opening brace. -/
def readObject (cs : List Char) : Except Problem (Document × List Char) :=
  match skipBlanks cs with
  | [] => .error .endOfText
  | c :: rest =>
    if c = '\x7d' then Draft.complete {} |>.map fun document => (document, rest)
    else match Draft.readMember {} (c :: rest) with
      | .ok (d, after) => readMembers d after
      | .error p => .error p

/-! ## Arrays -/

/-- Reads up to the first value of an array.  The array is too short if it ends here. -/
def readFirstLead (cs : List Char) : Except Problem (List Char) :=
  match skipBlanks cs with
  | [] => .error .endOfText
  | c :: rest => if c = ']' then .error .mismatch else .ok (c :: rest)

/-- Reads up to the next value of an array.  The array is too short if it ends here. -/
def readNextLead (cs : List Char) : Except Problem (List Char) :=
  match skipBlanks cs with
  | [] => .error .endOfText
  | c :: rest =>
    if c = ']' then .error .mismatch
    else if c = ',' then
      match skipBlanks rest with
      | [] => .error .endOfText
      | c :: rest => if c = ']' then .error .malformed else .ok (c :: rest)
    else .error .malformed

/-- Reads the end of an array. -/
def readArrayEnd (cs : List Char) : Except Problem (List Char) :=
  expectWord [']'] (skipBlanks cs)

/-- Reads an array, after its opening bracket. -/
def readArray (cs : List Char) : Except Problem (Document × List Char) := do
  let (binary, cs) ← readText (← readFirstLead cs)
  let (chunkSize, cs) ← readWord32 (← readNextLead cs)
  let (delay, cs) ← readWord32 (← readNextLead cs)
  return (⟨binary, chunkSize, delay⟩, ← readArrayEnd cs)

/-! ## Documents -/

/-- Reads the value at the front of a text, which has to be a document. -/
def readDocument (cs : List Char) : Except Problem (Document × List Char) :=
  match readLexeme cs with
  | .ok (.openArray, rest) => readArray rest
  | .ok (.openObject, rest) => readObject rest
  | .ok _ => .error .mismatch
  | .error p => .error p

/-- Reads a document.  Only blanks may stand after it. -/
def Document.parse (text : String) : Except Problem Document :=
  match readDocument text.toList with
  | .ok (document, rest) => if skipBlanks rest = [] then .ok document else .error .malformed
  | .error p => .error p

end OtaPack.Transfer
