import Mathlib

/-! # Reading after a write

What the value of `update f i v` at a place tells about the place. -/

open Function

variable {α β : Type*} {f : α → β} {i j : α} {v w : β}

/-- Places with different values are different. -/
theorem ne_of_values (hi : f i = v) (hj : f j = w) (h : v ≠ w) : i ≠ j :=
  ne_of_apply_ne f (by rwa [hi, hj])

variable [DecidableEq α]

/-- A value read after a write is the new one, or the old one of another place. -/
theorem update_cases (h : update f i v j = w) : j = i ∧ v = w ∨ j ≠ i ∧ f j = w := by
  rcases eq_or_ne j i with rfl | hj
  · exact .inl ⟨rfl, (update_self ..).symm.trans h⟩
  · exact .inr ⟨hj, (update_of_ne hj ..).symm.trans h⟩
