/-
  Containers on their way from any source to any sink.

  * `Delivered c calls r`: what the calls of a sink and the outcome have to do with the container;
  * `deliver_calls`: the container is delivered faithfully to every sink;
  * `convert_calls`: only the bytes of a source count, and nothing is written before its end.
-/
import OtaPack.Outcome
import OtaPack.Proofs.Channel.Reading
import OtaPack.Proofs.Channel.Room
import OtaPack.Proofs.Container.Layout

namespace OtaPack

open Channel

namespace Container

variable {σ τ ρ ε : Type}

/-- The calls `calls` of a sink and the outcome `r` are those of a faithful delivery of `c`. -/
structure Delivered (c : Bytes) (calls : List (Call ε)) (r : Except (DeliveryError ρ ε) Unit) :
    Prop where
  /-- At all times the bytes taken so far are the first ones of the container. -/
  prefix_taken : ∀ calls', calls' <+: calls → taken calls' <+: c
  ok_iff : r = .ok () ↔ taken calls = c ∧ Call.flush (.ok ()) ∈ calls
  /-- There is at most one flush, after the last byte and with nothing after it. -/
  flush_last : ∀ before outcome after, calls = before ++ .flush outcome :: after →
    taken before = c ∧ after = []
  /-- A failure is that of the last call. -/
  fault_eq : ∀ e, r = .error e → ∃ fault before last, e = .write fault ∧
    calls = before ++ [last] ∧ last.fault? = some fault ∧
    (fault = .nothingAccepted →
      ∀ describe, fault.message describe = "failed to write whole buffer")

theorem delivered_of_sends {k : Sink σ ε} {s s' : σ} {parts : List Bytes} {calls : List (Call ε)}
    {r : Except (WriteFault ε) Unit} (h : Sends k s parts calls r s') :
    Delivered parts.flatten calls (r.mapError .write : Except (DeliveryError ρ ε) Unit) where
  prefix_taken calls' hcalls := (prefix_taken hcalls).trans h.prefix_taken
  ok_iff := by
    rw [← h.ok_iff, mapError_eq_ok]
  flush_last before outcome after hcalls := by
    obtain ⟨htaken, hafter, -⟩ := h.flush_last hcalls
    exact ⟨htaken, hafter⟩
  fault_eq e he := by
    cases r with
    | ok => cases he
    | error fault =>
      obtain ⟨before, last, hcalls, hlast⟩ := h.fault rfl
      cases he
      exact ⟨fault, before, last, rfl, hcalls, hlast, fun hf _ => hf ▸ rfl⟩

section
variable {board : Board} {payload : Bytes} {compressed : Bool}

theorem deliver_of_ok {header : Header} (h : Header.build board ⟨compressed⟩ payload = .ok header)
    (k : Sink σ ε) (s : σ) :
    (deliver board payload compressed k s : Except (DeliveryError ρ ε) Unit × σ) =
      ((k.send s [header.toBytes, payload]).1.mapError .write,
        (k.send s [header.toBytes, payload]).2) := by
  rw [deliver, h]
  rfl

theorem deliver_of_error {e : PackError} (h : Header.build board ⟨compressed⟩ payload = .error e)
    (k : Sink σ ε) (s : σ) :
    (deliver board payload compressed k s : Except (DeliveryError ρ ε) Unit × σ) =
      (.error (.pack e), s) := by
  rw [deliver, h]

theorem encode_of_ok {header : Header} (h : Header.build board ⟨compressed⟩ payload = .ok header) :
    encode board payload compressed = .ok (header.toBytes ++ payload) := by
  rw [encode, h]
  rfl

theorem encode_of_error {e : PackError} (h : Header.build board ⟨compressed⟩ payload = .error e) :
    encode board payload compressed = .error e := by
  rw [encode, h]
  rfl

theorem eq_payloadTooLarge {e : PackError} (h : encode board payload compressed = .error e) :
    e = .payloadTooLarge payload.length := by
  by_cases hle : payload.length + 12 ≤ 2 ^ 32 - 1
  · have hmade : ∃ c, encode board payload compressed = .ok c := encode_of_le hle
    rw [h] at hmade
    exact hmade.elim nofun
  · rw [encode_of_not_le hle] at h
    cases h
    rfl

end

/-- **Delivery.**  The calls of any sink are a faithful delivery of the container that is built in
    one piece; a sink that lacks nothing but room takes what fits.  No call is made if there is no
    container. -/
theorem deliver_calls (board : Board) (payload : Bytes) (compressed : Bool) (k : Sink σ ε)
    {s s' : σ} {calls : List (Call ε)} {r : Except (DeliveryError ρ ε) Unit}
    (hrun : (Packing.deliver board payload compressed k.traced (s, [])).value =
      (r, (s', calls))) :
    (Packing.deliver board payload compressed k s).value = (r, s') ∧
    (Packing.deliver board payload compressed k.recorded (s, {})).value =
      (r, (s', Record.ofCalls calls)) ∧
    (∀ c, (Packing.encode board payload compressed).value = .ok c →
      Delivered c calls r ∧
      ∀ (P : Nat → σ → Prop) (L : Nat), k.HasRoom P → P L s →
        taken calls = c.take (min L (20 + payload.length)) ∧
        (r = .ok () ↔ 20 + payload.length ≤ L)) ∧
    (∀ e, (Packing.encode board payload compressed).value = .error e →
      e = .payloadTooLarge payload.length ∧ r = .error (.pack e) ∧ calls = [] ∧ s' = s) := by
  simp only [Packing.value_deliver, Packing.value_encode] at hrun ⊢
  rcases hb : Header.build board ⟨compressed⟩ payload with e | header
  · rw [deliver_of_error hb] at hrun
    cases hrun
    rw [deliver_of_error hb, deliver_of_error hb, encode_of_error hb]
    refine ⟨rfl, rfl, nofun, ?_⟩
    rintro e' he
    cases he
    exact ⟨eq_payloadTooLarge (encode_of_error hb), rfl, rfl, rfl⟩
  · rw [deliver_of_ok hb] at hrun
    rcases hsend : k.traced.send (s, []) [header.toBytes, payload] with ⟨r', s'', calls'⟩
    rw [hsend] at hrun
    cases hrun
    have htrace := sends_traced hsend
    have hplain : Sends k s [header.toBytes, payload] calls r' s' := (mirrors_traced k).sends htrace
    have hrecorded := (recorded_mirrors_traced k).sends htrace
    rw [deliver_of_ok hb, deliver_of_ok hb, encode_of_ok hb, hplain.send_eq]
    have hflat : [header.toBytes, payload].flatten = header.toBytes ++ payload := by simp
    refine ⟨rfl, ?_, ?_, nofun⟩
    · have hsend' : k.recorded.send (s, {}) [header.toBytes, payload] =
          (r', (s', Record.ofCalls calls)) := hrecorded.send_eq
      rw [hsend']
    · rintro c hc
      cases hc
      rw [← hflat]
      refine ⟨delivered_of_sends hplain, ?_⟩
      intro P L hk hP
      obtain ⟨htaken, hok⟩ := hplain.of_hasRoom hk hP
      have hlen : [header.toBytes, payload].flatten.length = 20 + payload.length := by
        rw [hflat, List.length_append, Header.length_toBytes]
        rfl
      rw [hlen] at hok
      constructor
      · rw [htaken, ← hlen, ← List.take_eq_take_min]
      · rw [← hok, mapError_eq_ok]

/-- A sink that takes sixteen bytes at once and is full after two bytes of the payload. -/
theorem deliver_calls_full :
    ∃ (r : Except (DeliveryError Fault Fault) Unit) (s' : BoundedSink) (calls : List (Call Fault)),
      (Packing.deliver ⟨"ESP32", 0x45535033⟩ [1, 2, 3, 4] false BoundedSink.sink.traced
        ({ room := some 22, atOnce := some 16, interrupts := 1 }, [])).value = (r, (s', calls)) ∧
      taken calls = [0x10, 0, 0, 0, 0x59, 0xB6, 0x42, 0xD6, 0x33, 0x50, 0x53, 0x45,
        0, 0, 0, 0, 0, 0, 0, 0, 1, 2] ∧
      r ≠ .ok () := by
  obtain ⟨-, -, hfaithful, -⟩ := deliver_calls ⟨"ESP32", 0x45535033⟩ [1, 2, 3, 4] false
    BoundedSink.sink (s := { room := some 22, atOnce := some 16, interrupts := 1 }) rfl
  obtain ⟨-, hroom⟩ := hfaithful _ value_encode_esp32
  obtain ⟨htaken, hok⟩ := hroom _ 22 hasRoom_bounded ⟨rfl, nofun, rfl⟩
  exact ⟨_, _, _, rfl, htaken, mt hok.1 (by decide)⟩

/-- **Conversion.**  A source either ends or fails.  If it ends, the outcome and every call of the
    sink are those of delivering its bytes, however they came; if it fails, wherever that is, its
    own error is told and no call has been made. -/
theorem convert_calls (board : Board) (compressed : Bool) (src : Source τ ρ) (t : τ)
    (k : Sink σ ε) (s : σ) :
    (∃ bs r, src.Reads t bs r ∧ ∀ bs' r', src.Reads t bs' r' → bs' = bs ∧ r' = r) ∧
    (∀ bs, src.Reads t bs (.ok ()) →
      (Packing.convert board compressed src t k s).value =
        (Packing.deliver board bs compressed k s).value ∧
      (Packing.convert board compressed src t k.traced (s, [])).value =
        (Packing.deliver board bs compressed k.traced (s, [])).value) ∧
    (∀ bs e, src.Reads t bs (.error e) →
      (Packing.convert board compressed src t k s).value = (.error (.read e), s) ∧
      (Packing.convert board compressed src t k.traced (s, [])).value =
        (.error (.read e), (s, []))) := by
  simp only [Packing.value_convert, Packing.value_deliver]
  refine ⟨?_, ?_, ?_⟩
  · obtain ⟨bs, r, h⟩ := src.exists_reads t
    exact ⟨bs, r, h, fun bs' r' h' => h.unique h'⟩
  · intro bs h
    have hread : (src.readAll t).1 = .ok bs := Source.readAll_of_reads h
    simp only [convert, hread, and_self]
  · intro bs e h
    have hread : (src.readAll t).1 = .error e := Source.readAll_of_reads h
    simp only [convert, hread, and_self]

/-- A source whose bytes come in two pieces after an interruption, and one that fails after its last
    byte. -/
theorem convert_calls_bounded :
    (Packing.convert ⟨"ESP32", 0x45535033⟩ false BoundedSource.source
        { rest := [1, 2, 3], atOnce := some 2, interrupts := 1 }
        BoundedSink.sink.traced ({}, [])).value =
      (Packing.deliver ⟨"ESP32", 0x45535033⟩ [1, 2, 3] false
        BoundedSink.sink.traced ({}, [])).value ∧
    (Packing.convert ⟨"ESP32", 0x45535033⟩ false BoundedSource.source
        { rest := [1, 2, 3], failsAfter := some 3 } BoundedSink.sink.traced ({}, [])).value =
      (.error (.read .readFailed), ({}, [])) := by
  have hends : BoundedSource.source.Reads { rest := [1, 2, 3], atOnce := some 2, interrupts := 1 }
      [1, 2, 3] (.ok ()) :=
    .interrupted rfl (@.bytes _ _ _ _ _ [1, 2] _ _ rfl nofun
      (@.bytes _ _ _ _ _ [3] _ _ rfl nofun (.ended rfl)))
  have hfails : BoundedSource.source.Reads { rest := [1, 2, 3], failsAfter := some 3 } [1, 2, 3]
      (.error .readFailed) :=
    @.bytes _ _ _ _ _ [1, 2, 3] _ _ rfl nofun (.failed rfl)
  exact ⟨((convert_calls _ _ _ _ BoundedSink.sink _).2.1 _ hends).2,
    ((convert_calls _ _ _ _ BoundedSink.sink _).2.2 _ _ hfails).2⟩

end Container

end OtaPack
