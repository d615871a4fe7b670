/-!
The outcome of a step that may fail: when the outcome after one more step is a value, and when it is
a failure.
-/

set_option autoImplicit false
set_option relaxedAutoImplicit false

namespace DiagramMacros

variable {ε α β : Type} {r : Except ε α}

theorem ok_ne_error {a : α} {e : ε} : (Except.ok a : Except ε α) ≠ .error e := by simp

theorem exists_of_isOk (h : r.isOk) : ∃ a, r = .ok a := by
  cases r with
  | error e => exact Bool.noConfusion h
  | ok a => exact ⟨a, rfl⟩

theorem map_eq_ok_iff {f : α → β} {b : β} : r.map f = .ok b ↔ ∃ a, r = .ok a ∧ f a = b := by
  cases r <;> simp [Except.map]

theorem map_eq_error_iff {f : α → β} {e : ε} : r.map f = .error e ↔ r = .error e := by
  cases r <;> simp [Except.map]

theorem bind_eq_ok_iff {f : α → Except ε β} {b : β} :
    (r >>= f) = .ok b ↔ ∃ a, r = .ok a ∧ f a = .ok b := by
  cases r <;> simp [bind, Except.bind]

theorem bind_eq_error_iff {f : α → Except ε β} {e : ε} :
    (r >>= f) = .error e ↔ r = .error e ∨ ∃ a, r = .ok a ∧ f a = .error e := by
  cases r <;> simp [bind, Except.bind]

end DiagramMacros
