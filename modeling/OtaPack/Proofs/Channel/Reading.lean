/-
  What a source gives up to its end or its failure.

  * `Source.Reads k t bs r`: from the state `t` on the source gives the bytes `bs`, in pieces of any
    size and with interruptions anywhere, and then ends or fails;
  * `exists_reads`, `Reads.unique`: every source does one or the other, and not both;
  * `readAll_of_reads`: reading to the end gives all bytes, or the failure alone.
-/
import OtaPack.Channel.Source

namespace OtaPack.Channel

variable {τ ρ : Type}

/-- From the state `t` on the source gives `bs` and then ends or fails. -/
inductive Source.Reads (k : Source τ ρ) : τ → Bytes → Except ρ Unit → Prop
  | ended {t t'} : k.read t = (.bytes [], t') → Reads k t [] (.ok ())
  | failed {t t' e} : k.read t = (.failed e, t') → Reads k t [] (.error e)
  | bytes {t t' bs rest r} : k.read t = (.bytes bs, t') → bs ≠ [] → Reads k t' rest r →
      Reads k t (bs ++ rest) r
  | interrupted {t t' rest r} : k.read t = (.interrupted, t') → Reads k t' rest r →
      Reads k t rest r

namespace Source

theorem exists_reads (k : Source τ ρ) (t : τ) : ∃ bs r, k.Reads t bs r := by
  induction hk : k.budget t using Nat.strongRecOn generalizing t with
  | _ n ih =>
    rcases h : k.read t with ⟨bs | _ | e, t'⟩
    · by_cases hbs : bs = []
      · subst hbs
        exact ⟨[], _, .ended h⟩
      · obtain ⟨rest, r, hrest⟩ := ih _ (hk ▸ k.budget_lt h hbs) t' rfl
        exact ⟨_, r, .bytes h hbs hrest⟩
    · obtain ⟨rest, r, hrest⟩ := ih _ (hk ▸ k.budget_lt h trivial) t' rfl
      exact ⟨rest, r, .interrupted h hrest⟩
    · exact ⟨[], _, .failed h⟩

theorem Reads.unique {k : Source τ ρ} {t : τ} {bs bs' : Bytes} {r r' : Except ρ Unit}
    (h : k.Reads t bs r) (h' : k.Reads t bs' r') : bs' = bs ∧ r' = r := by
  induction h generalizing bs' with
  | ended hr =>
    cases h' with
    | ended => exact ⟨rfl, rfl⟩
    | bytes hr' hbs => rw [hr] at hr'; cases hr'; exact absurd rfl hbs
    | failed hr' | interrupted hr' => rw [hr] at hr'; cases hr'
  | failed hr =>
    cases h' with
    | failed hr' => rw [hr] at hr'; cases hr'; exact ⟨rfl, rfl⟩
    | ended hr' | bytes hr' | interrupted hr' => rw [hr] at hr'; cases hr'
  | bytes hr hbs _ ih =>
    cases h' with
    | ended hr' => rw [hr] at hr'; cases hr'; exact absurd rfl hbs
    | bytes hr' _ hrest =>
      rw [hr] at hr'
      cases hr'
      obtain ⟨rfl, rfl⟩ := ih hrest
      exact ⟨rfl, rfl⟩
    | failed hr' | interrupted hr' => rw [hr] at hr'; cases hr'
  | interrupted hr _ ih =>
    cases h' with
    | interrupted hr' hrest => rw [hr] at hr'; cases hr'; exact ih hrest
    | ended hr' | bytes hr' | failed hr' => rw [hr] at hr'; cases hr'

theorem readOnto_eq (k : Source τ ρ) (t : τ) (acc : Array UInt8) :
    k.readOnto t acc = match k.read t with
      | (.interrupted, t') => k.readOnto t' acc
      | (.failed e, t') => (.error e, t')
      | (.bytes [], t') => (.ok acc, t')
      | (.bytes (b :: bs), t') => k.readOnto t' (acc ++ (b :: bs)) := by
  rw [readOnto]
  split <;> rename_i h <;> rw [h]

theorem readOnto_of_reads {k : Source τ ρ} {t : τ} {bs : Bytes} {r : Except ρ Unit}
    (h : k.Reads t bs r) (acc : Array UInt8) :
    (k.readOnto t acc).1.map Array.toList = r.map fun _ => acc.toList ++ bs := by
  induction h generalizing acc with
  | ended hr =>
    rw [readOnto_eq, hr, List.append_nil]
    rfl
  | failed hr =>
    rw [readOnto_eq, hr]
    rfl
  | @bytes _ _ bs _ _ hr hbs _ ih =>
    obtain ⟨b, bs, rfl⟩ := List.exists_cons_of_ne_nil hbs
    rw [readOnto_eq, hr]
    show (k.readOnto _ (acc ++ (b :: bs))).1.map Array.toList = _
    rw [ih, Array.toList_appendList, List.append_assoc]
  | interrupted hr _ ih =>
    rw [readOnto_eq, hr]
    exact ih acc

/-- **Only the bytes count**, not the pieces and the interruptions that they came with. -/
theorem readAll_of_reads {k : Source τ ρ} {t : τ} {bs : Bytes} {r : Except ρ Unit}
    (h : k.Reads t bs r) : (k.readAll t).1 = r.map fun _ => bs :=
  readOnto_of_reads h #[]

end Source

end OtaPack.Channel
