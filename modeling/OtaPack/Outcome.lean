/-
  Outcomes: values, or why there is none.

  * `exists_of_map_eq_ok`, `exists_of_bind_eq_ok`: a value that is made of others shows that these
    were there; `ok_bind`: with the first one there, only the rest counts;
  * `mapError_eq_ok`: it does not matter for a success how failures are told.
-/

namespace OtaPack

variable {ε ε' α β : Type}

theorem exists_of_map_eq_ok {x : Except ε α} {f : α → β} {b : β} (h : x.map f = .ok b) :
    ∃ a, x = .ok a ∧ f a = b := by
  cases x with
  | error => cases h
  | ok a => exact ⟨a, rfl, Except.ok.inj h⟩

theorem exists_of_bind_eq_ok {x : Except ε α} {f : α → Except ε β} {b : β}
    (h : (x >>= f) = .ok b) : ∃ a, x = .ok a ∧ f a = .ok b := by
  cases x with
  | error => cases h
  | ok a => exact ⟨a, rfl, h⟩

theorem ok_bind (a : α) (f : α → Except ε β) : (Except.ok a >>= f) = f a := rfl

theorem mapError_eq_ok {f : ε → ε'} {x : Except ε Unit} : x.mapError f = .ok () ↔ x = .ok () := by
  cases x with
  | ok => exact iff_of_true rfl rfl
  | error e =>
    constructor
    · intro h
      cases h
    · intro h
      cases h

end OtaPack
