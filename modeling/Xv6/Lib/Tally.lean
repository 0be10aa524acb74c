import Mathlib

/-! # Counting pointers

`tally f b` is the number of places `a` with `f a = some b`: how many of the pointers `f` point to
`b`. A reference count is right if it is the tally of the pointers it counts, so what matters is how
a tally changes with one pointer (`tally_update`). -/

universe u v

variable {α : Type u} {β : Type v} [Fintype α] [DecidableEq β]

/-- How many pointers point to `b`. -/
def tally (f : α → Option β) (b : β) : ℕ := (Finset.univ.filter fun a => f a = some b).card

variable {f g : α → Option β} {a : α} {b : β} {o : Option β}

theorem tally_pos (h : f a = some b) : 0 < tally f b :=
  Finset.card_pos.mpr ⟨a, by simp [h]⟩

theorem exists_of_tally_pos (h : 0 < tally f b) : ∃ a, f a = some b := by
  obtain ⟨a, ha⟩ := Finset.card_pos.mp h
  exact ⟨a, (Finset.mem_filter.mp ha).2⟩

theorem tally_eq_zero (h : ∀ a, f a ≠ some b) : tally f b = 0 := by
  by_contra hne
  obtain ⟨a, ha⟩ := exists_of_tally_pos (Nat.pos_of_ne_zero hne)
  exact h a ha

variable [DecidableEq α]

/-- A pointer that changes leaves the count of what it pointed to and joins that of what it points
to now. -/
theorem tally_update (f : α → Option β) (a : α) (o : Option β) (b : β) :
    tally (Function.update f a o) b + (if f a = some b then 1 else 0) =
      tally f b + if o = some b then 1 else 0 := by
  -- apart from `a` the two count the same places
  have split : ∀ g : α → Option β, tally g b =
      ((Finset.univ.erase a).filter fun x => g x = some b).card + if g a = some b then 1 else 0 := by
    intro g
    rw [tally, ← Finset.insert_erase (Finset.mem_univ a), Finset.filter_insert,
      Finset.erase_insert (Finset.notMem_erase a _)]
    split
    · rw [Finset.card_insert_of_notMem]
      simp
    · rfl
  have rest : ((Finset.univ.erase a).filter fun x => Function.update f a o x = some b) =
      (Finset.univ.erase a).filter fun x => f x = some b := by
    refine Finset.filter_congr fun x hx => ?_
    rw [Function.update_of_ne (Finset.ne_of_mem_erase hx)]
  rw [split (Function.update f a o), split f, rest, Function.update_self]
  omega

variable {c : β}

/-- A pointer that was null now points to `c`. -/
theorem tally_set (h : f a = none) :
    tally (Function.update f a (some c)) = Function.update (tally f) c (tally f c + 1) := by
  funext b
  have := tally_update f a (some c) b
  rw [h, if_neg nofun, Nat.add_zero] at this
  rw [this]
  by_cases hb : b = c
  · rw [hb, if_pos rfl, Function.update_self]
  · rw [if_neg fun hc => hb (Option.some.inj hc).symm, Function.update_of_ne hb, Nat.add_zero]

/-- A pointer to `c` becomes null. -/
theorem tally_clear (h : f a = some c) :
    Function.update (tally (Function.update f a none)) c (tally (Function.update f a none) c + 1) =
      tally f := by
  rw [← tally_set (a := a) (Function.update_self ..), Function.update_idem, ← h,
    Function.update_eq_self]
