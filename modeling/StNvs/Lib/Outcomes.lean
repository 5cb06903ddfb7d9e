import Mathlib.Tactic.Common

/-! # What holds of an outcome

A computation that can fail returns a result or an error. `Ends P E x`: the result of `x` has `P`, and its
error has `E`. A computation that goes on with the result of another one is judged by the two of them
(`Ends.bind`). -/

namespace StNvs.Lib.Outcomes

universe u v

variable {ε : Type v} {α β : Type u} {P P' : α → Prop} {Q : β → Prop} {E : ε → Prop} {x : Except ε α}
  {f : α → Except ε β}

/-- The result has `P`, the error has `E`. -/
def Ends (P : α → Prop) (E : ε → Prop) : Except ε α → Prop
  | .ok a => P a
  | .error e => E e

theorem Ends.mono (h : Ends P E x) (hP : ∀ a, P a → P' a) : Ends P' E x := by
  cases x with
  | ok a => exact hP a h
  | error e => exact h

/-- What goes on with a result. -/
theorem Ends.bind (h : Ends P E x) (hf : ∀ a, P a → Ends Q E (f a)) : Ends Q E (x >>= f) := by
  cases x with
  | ok a => exact hf a h
  | error e => exact h

/-- There is a result, or the error is one that can be. -/
theorem Ends.cases (h : Ends P E x) : (∃ a, x = .ok a ∧ P a) ∨ ∃ e, x = .error e ∧ E e := by
  cases x with
  | ok a => exact .inl ⟨a, rfl, h⟩
  | error e => exact .inr ⟨e, rfl, h⟩

end StNvs.Lib.Outcomes
