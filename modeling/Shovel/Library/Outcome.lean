import Mathlib.Logic.Basic

/-!
# Successful computations

Inversion lemmas for computations that end in a value or in an error. They take
a successful composed computation apart into its successful steps.
-/

namespace Outcome

universe u v w

variable {ε : Type u} {α β : Type v}

/-- A sequence of two fallible steps succeeds exactly when both succeed. -/
theorem bind_eq_ok {first : Except ε α} {second : α → Except ε β} {result : β} :
    first >>= second = .ok result ↔ ∃ middle, first = .ok middle ∧ second middle = .ok result := by
  cases first <;> simp [bind, Except.bind]

/-- A mapped computation succeeds exactly when the computation does. -/
theorem map_eq_ok {γ : Type w} {first : Except ε α} {f : α → γ} {result : γ} :
    first.map f = .ok result ↔ ∃ middle, first = .ok middle ∧ f middle = result := by
  cases first <;> simp [Except.map]

/-- A successful computation has one answer and leaves one state. -/
theorem answer_unique {γ : Type w} {computed : Except ε (α × γ)} {answer other : α}
    {state left : γ} (h : computed = .ok (answer, state)) (hother : computed = .ok (other, left)) :
    answer = other ∧ state = left :=
  Prod.mk.inj (Except.ok.inj (h.symm.trans hother))

end Outcome
