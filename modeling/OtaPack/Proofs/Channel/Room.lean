/-
  Sinks that fail for nothing but a lack of room.

  * `Sink.HasRoom k P`: in a state with `P n` the sink has room for `n` more bytes; as long as there
    is room it takes something of every offer, sooner or later, and its flush succeeds;
  * `Sends.of_hasRoom`: it takes as many bytes as there is room for, and all is well exactly when
    all bytes fit;
  * `hasRoom_bounded`: sinks in memory whose room is limited.
-/
import OtaPack.Channel.Bounded
import OtaPack.Proofs.Channel.Trace

namespace OtaPack.Channel

variable {σ ε : Type}

/-- In a state with `P n` there is room for `n` more bytes, and nothing else is amiss. -/
structure Sink.HasRoom (k : Sink σ ε) (P : Nat → σ → Prop) : Prop where
  accepted : ∀ {n m s s' bs}, P n s → bs ≠ [] → k.write s bs = (.accepted m, s') →
    m ≤ n ∧ (m = 0 → n = 0) ∧ P (n - m) s'
  interrupted : ∀ {n s s' bs}, P n s → bs ≠ [] → k.write s bs = (.interrupted, s') → P n s'
  failed : ∀ {n s s' bs e}, P n s → bs ≠ [] → k.write s bs = (.failed e, s') → n = 0
  flushed : ∀ {n s}, P n s → (k.flush s).1 = .ok ()

section
variable {k : Sink σ ε} {P : Nat → σ → Prop} {s s' : σ} {bs : Bytes} {parts : List Bytes}
  {calls : List (Call ε)} {r : Except (WriteFault ε) Unit} {n : Nat}

theorem WritesAll.of_hasRoom (hk : k.HasRoom P) (h : WritesAll k s bs calls r s') (hP : P n s) :
    taken calls = bs.take n ∧ (r = .ok () ↔ bs.length ≤ n) ∧
      (r = .ok () → P (n - bs.length) s') := by
  induction h generalizing n with
  | done => exact ⟨List.take_nil.symm, by simp, fun _ => hP⟩
  | interrupted hbs hw _ ih => exact ih (hk.interrupted hP hbs hw)
  | failed hbs hw =>
    obtain rfl := hk.failed hP hbs hw
    exact ⟨rfl, by simpa using hbs, nofun⟩
  | refused hbs hw =>
    obtain rfl := (hk.accepted hP hbs hw).2.1 rfl
    exact ⟨rfl, by simpa using hbs, nofun⟩
  | @accepted s s' _ bs m calls r hbs hw _ ih =>
    obtain ⟨hle, -, hP'⟩ := hk.accepted hP hbs hw
    have hlen := k.accepted_le hw
    obtain ⟨htaken, hok, hroom⟩ := ih hP'
    rw [List.length_drop] at hok hroom
    refine ⟨?_, by rw [hok]; omega, ?_⟩
    · rw [taken_cons, htaken, ← Nat.add_sub_of_le hle, List.take_add, Nat.add_sub_cancel_left]
      rfl
    · intro hr
      have := hroom hr
      rwa [show n - (m + 1) - (bs.length - (m + 1)) = n - bs.length by omega] at this

/-- **A lack of room is the only failure.** -/
theorem Sends.of_hasRoom (hk : k.HasRoom P) (h : Sends k s parts calls r s') (hP : P n s) :
    taken calls = parts.flatten.take n ∧ (r = .ok () ↔ parts.flatten.length ≤ n) := by
  induction h generalizing n with
  | flushed hf =>
    have hok := hk.flushed hP
    rw [hf] at hok
    cases hok
    exact ⟨List.take_nil.symm, iff_of_true rfl (Nat.zero_le _)⟩
  | @written _ _ _ bs _ _ _ _ hw _ ih =>
    obtain ⟨htaken, hok, hroom⟩ := hw.of_hasRoom hk hP
    have hle := hok.1 rfl
    obtain ⟨htaken', hok'⟩ := ih (hroom rfl)
    refine ⟨?_, ?_⟩
    · rw [taken_append, htaken, htaken', List.flatten_cons, List.take_append]
    · rw [hok', List.flatten_cons, List.length_append]
      omega
  | @broken _ _ _ _ _ e hw =>
    obtain ⟨htaken, hok, -⟩ := hw.of_hasRoom hk hP
    have hne : (Except.error e : Except (WriteFault ε) Unit) ≠ .ok () := by
      intro he
      cases he
    have hlt := Nat.lt_of_not_le (mt hok.2 hne)
    refine ⟨?_, iff_of_false hne ?_⟩
    · rw [htaken, List.flatten_cons, List.take_append_of_le_length (Nat.le_of_lt hlt)]
    · rw [List.flatten_cons, List.length_append]
      omega

end

/-! ## Sinks in memory -/

theorem BoundedSink.offer_cases {s s' : BoundedSink} {bs : Bytes} {answer : Answer Fault}
    (h : s.offer bs = (answer, s')) :
    answer = .interrupted ∧ s' = { s with interrupts := s.interrupts - 1 } ∨
    answer = .failed .diskFull ∧ s.room = some 0 ∧ s' = s ∨
    ∃ n, n = capped s.atOnce (capped s.room bs.length) ∧ answer = .accepted n ∧
      s' = { s with room := s.room.map (· - n) } := by
  unfold offer at h
  split at h
  · cases h
    exact Or.inl ⟨rfl, rfl⟩
  split at h
  · rename_i hfull
    cases h
    exact Or.inr (Or.inl ⟨rfl, hfull.1, rfl⟩)
  · cases h
    exact Or.inr (Or.inr ⟨_, rfl, rfl, rfl⟩)

/-- Sinks in memory with room for a number of bytes, which take at least one of them at once. -/
theorem hasRoom_bounded : BoundedSink.sink.HasRoom fun n s =>
    s.room = some n ∧ s.atOnce ≠ some 0 ∧ s.flushFails = false where
  accepted {n m s s' bs} hP hbs hw := by
    obtain ⟨hroom, honce, hflush⟩ := hP
    have hpos : bs.length ≠ 0 := fun h0 => hbs (List.eq_nil_of_length_eq_zero h0)
    obtain ⟨h, -⟩ | ⟨h, -⟩ | ⟨m', hm', h, rfl⟩ := BoundedSink.offer_cases hw
    · cases h
    · cases h
    · cases h
      rw [hroom] at hm'
      have hle : m ≤ n := hm' ▸ Nat.le_trans (capped_le _ _) (Nat.min_le_left _ _)
      refine ⟨hle, ?_, by simp [hroom], honce, hflush⟩
      intro hzero
      rcases hat : s.atOnce with _ | b
      · rw [hat] at hm'
        simp only [capped] at hm'
        omega
      · rw [hat] at hm' honce
        have : b ≠ 0 := fun hb => honce (congrArg some hb)
        simp only [capped] at hm'
        omega
  interrupted {n s s' bs} hP hbs hw := by
    obtain ⟨-, rfl⟩ | ⟨h, -⟩ | ⟨_, -, h, -⟩ := BoundedSink.offer_cases hw
    · exact hP
    · cases h
    · cases h
  failed {n s s' bs e} hP hbs hw := by
    obtain ⟨h, -⟩ | ⟨-, hfull, -⟩ | ⟨_, -, h, -⟩ := BoundedSink.offer_cases hw
    · cases h
    · rw [hP.1] at hfull
      exact Option.some.inj hfull
    · cases h
  flushed {n s} hP := by
    simp [BoundedSink.sink, hP.2.2]

end OtaPack.Channel
