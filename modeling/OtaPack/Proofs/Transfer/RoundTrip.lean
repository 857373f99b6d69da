/-
  A transfer document is read back from its text.

  * `Document.entries`: the members of a document as they are written;
  * `isText_render`: the text of a document is that of an object with these members;
    `describes_entries`: these are the members of a document, each once;
  * `parse_render`: so the document is read back;
  * `render_ofContainer`: the text for a container;
  * `document_transport`: both together.
-/
import OtaPack.Proofs.Base64
import OtaPack.Proofs.Json.Quoted
import OtaPack.Proofs.Transfer.Members

namespace OtaPack.Transfer

open Json

/-! ## The written text -/

/-- A member that is written without blanks. -/
def writtenEntry (name : String) (v : Value) (text : List Char) : Json.Entry where
  margin := []
  name := name
  spelling := name.toList
  gap := []
  item := ⟨[], v, text, []⟩

/-- A word as a value. -/
def wordValue (w : UInt32) : Value :=
  .number (.ofWhole (digitValues (toString w.toNat).toList))

/-- The entries of a document, with its numbers in plain decimal. -/
def Document.entries (d : Document) : List Json.Entry :=
  [writtenEntry "binary" (.text d.binary) (quote d.binary).toList,
    writtenEntry "chunk_size" (wordValue d.chunkSize) (toString d.chunkSize.toNat).toList,
    writtenEntry "delay" (wordValue d.delay) (toString d.delay.toNat).toList]

theorem toList_render (d : Document) :
    d.render.toList = '\x7b' :: (separated (d.entries.map Json.Entry.chars) ++ ['\x7d']) := by
  have hbinary : "\x7b\"binary\":".toList = '\x7b' :: '"' :: ("binary".toList ++ ['"', ':']) := rfl
  have hchunk : ",\"chunk_size\":".toList = ',' :: '"' :: ("chunk_size".toList ++ ['"', ':']) := rfl
  have hdelay : ",\"delay\":".toList = ',' :: '"' :: ("delay".toList ++ ['"', ':']) := rfl
  have hbrace : "\x7d".toList = ['\x7d'] := rfl
  show ("\x7b\"binary\":" ++ quote d.binary ++ ",\"chunk_size\":" ++
    toString d.chunkSize.toNat ++ ",\"delay\":" ++ toString d.delay.toNat ++ "\x7d").toList = _
  simp only [String.toList_append, hbinary, hchunk, hdelay, hbrace, Document.entries, writtenEntry,
    Json.Entry.chars, Item.chars, separated, commas, List.map_cons, List.map_nil, List.flatMap_cons,
    List.flatMap_nil, List.append_assoc, List.cons_append, List.nil_append,
    List.append_nil]

theorem isText_quote (s : String) : IsText (.text s) (quote s).toList := by
  rw [quote, String.toList_ofList]
  exact .text (spells_flatMap_escapeChar s.toList)

theorem isText_wordValue (w : UInt32) : IsText (wordValue w) (toString w.toNat).toList :=
  .number (plainDecimal_toString w.toNat).isWhole.isNumeral

theorem isWord_wordValue (w : UInt32) : IsWord w (wordValue w) :=
  .intro (plainDecimal_toString w.toNat).value

theorem spaced_writtenEntry {name : String} (h : name.toList.flatMap escapeChar = name.toList)
    (v : Value) (text : List Char) : (writtenEntry name v text).Spaced := by
  have hspells := spells_flatMap_escapeChar name.toList
  rw [h] at hspells
  exact ⟨blanks_nil, hspells, blanks_nil, blanks_nil, blanks_nil⟩

/-- The text of a document is that of an object with its three members. -/
theorem isText_render (d : Document) :
    IsText (.object (d.entries.map Json.Entry.member)) d.render.toList := by
  rw [toList_render]
  refine .object (by simp [Document.entries]) ?_ ?_
  · simp only [Document.entries, List.forall_mem_cons]
    exact ⟨spaced_writtenEntry (by decide) _ _, spaced_writtenEntry (by decide) _ _,
      spaced_writtenEntry (by decide) _ _, by simp⟩
  · simp only [Document.entries, List.forall_mem_cons, writtenEntry]
    exact ⟨isText_quote d.binary, isText_wordValue d.chunkSize, isText_wordValue d.delay, by simp⟩

theorem isJson_render (d : Document) :
    IsJson (.object (d.entries.map Json.Entry.member)) d.render := by
  refine .intro ?_ blanks_nil (isText_render d) blanks_nil
  rw [List.nil_append, List.append_nil]

/-! ## Documents -/

theorem describes_entries (d : Document) : Describes (d.entries.map Json.Entry.member) d := by
  refine ⟨?_, ?_, ?_⟩
  · simp [valuesOf, Document.entries, Json.Entry.member, writtenEntry]
  · refine ⟨_, isWord_wordValue d.chunkSize, ?_⟩
    simp [valuesOf, Document.entries, Json.Entry.member, writtenEntry]
  · refine ⟨_, isWord_wordValue d.delay, ?_⟩
    simp [valuesOf, Document.entries, Json.Entry.member, writtenEntry]

/-- **A document is read back** from its text. -/
theorem parse_render (d : Document) : Document.parse d.render = .ok d :=
  parse_of_describes (isJson_render d) (describes_entries d)

theorem quote_encode (container : Bytes) :
    quote (Base64.encode container) = "\"" ++ Base64.encode container ++ "\"" := by
  have hplain : ((Base64.padding :: Base64.alphabet.toList).all fun c =>
      c ≠ '"' ∧ c ≠ '\\' ∧ ¬ c < ' ') = true := by
    decide
  refine quote_of_plain fun c hc => ?_
  exact of_decide_eq_true (List.all_eq_true.1 hplain c (Base64.mem_encode hc))

/-- The document for a container: its base64 text stands there without an escape. -/
theorem render_ofContainer (container : Bytes) (chunkSize delay : UInt32) :
    (Document.ofContainer container chunkSize delay).render =
      "\x7b\"binary\":\"" ++ Base64.encode container ++ "\",\"chunk_size\":" ++
        toString chunkSize.toNat ++ ",\"delay\":" ++ toString delay.toNat ++ "\x7d" := by
  have hfront : "\x7b\"binary\":\"" = "\x7b\"binary\":" ++ "\"" := rfl
  have hback : "\",\"chunk_size\":" = "\"" ++ ",\"chunk_size\":" := rfl
  show "\x7b\"binary\":" ++ quote (Base64.encode container) ++ ",\"chunk_size\":" ++
    toString chunkSize.toNat ++ ",\"delay\":" ++ toString delay.toNat ++ "\x7d" = _
  rw [quote_encode, hfront, hback]
  simp only [String.append_assoc]

/-- **Transport.**  Every document is read back from its text as it was.  The text for a container
    has the base64 text between its quotes and both numbers in plain decimal, and what is read from
    it is decoded to the container. -/
theorem document_transport :
    (∀ d : Document, Document.parse d.render = .ok d) ∧
    ∀ (container : Bytes) (chunkSize delay : UInt32), ∃ size pause : String,
      PlainDecimal chunkSize.toNat size ∧ PlainDecimal delay.toNat pause ∧
      (Document.ofContainer container chunkSize delay).render =
        "\x7b\"binary\":\"" ++ Base64.encode container ++ "\",\"chunk_size\":" ++ size ++
          ",\"delay\":" ++ pause ++ "\x7d" ∧
      ∃ d, Document.parse (Document.ofContainer container chunkSize delay).render = .ok d ∧
        Base64.decode? d.binary = some container ∧ d.chunkSize = chunkSize ∧ d.delay = delay := by
  refine ⟨parse_render, ?_⟩
  intro container chunkSize delay
  exact ⟨_, _, plainDecimal_toString _, plainDecimal_toString _,
    render_ofContainer container chunkSize delay, _, parse_render _,
    Base64.decode?_encode container, rfl, rfl⟩

-- a quote, a line feed and another control character
example : (Document.mk "\"\n\x1f" 7 0).render =
    "\x7b\"binary\":\"\\\"\\n\\u001f\",\"chunk_size\":7,\"delay\":0\x7d" := by
  rfl

end OtaPack.Transfer
