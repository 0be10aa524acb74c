import Xv6.Lib.Update

/-! # Exact ownership

Places hold resources: `P i = some b` says that the place `i` holds `b`. `Exact P U X` says that
every resource in use (in `U`) is held by exactly one place or is in flight (in `X`, taken by the
code that is running but not yet stored anywhere), never both. Resources move in four ways: a free
one is taken, one in flight is attached to a place, detached from it, or given back. -/

universe u v

variable {ι : Type u} {β : Type v}

/-- Every resource in use is in flight or held by exactly one place, and not both. -/
structure Exact (P : ι → Option β) (U X : Set β) : Prop where
  inj : ∀ {i j : ι} {b : β}, P i = some b → P j = some b → i = j
  notMem : ∀ {i : ι} {b : β}, P i = some b → b ∉ X
  mem_iff : ∀ {b : β}, b ∈ U ↔ b ∈ X ∨ ∃ i, P i = some b

namespace Exact

variable {P P' : ι → Option β} {U X : Set β} {i : ι} {b : β}

theorem mem_of_eq (h : Exact P U X) (hi : P i = some b) : b ∈ U := h.mem_iff.mpr (Or.inr ⟨i, hi⟩)

theorem mem_of_inFlight (h : Exact P U X) (hb : b ∈ X) : b ∈ U := h.mem_iff.mpr (Or.inl hb)

/-- Ownership is a property of the contents of the places. -/
theorem congr (h : Exact P U X) (hP : ∀ i, P' i = P i) : Exact P' U X := by
  have : P' = P := funext hP
  rwa [this]

/-- Ownership is a property of the set in use. -/
theorem congr_used {U' : Set β} (h : Exact P U X) (hU : ∀ b, b ∈ U' ↔ b ∈ U) : Exact P U' X := by
  have : U' = U := Set.ext hU
  rwa [this]

/-- **Taking** a free resource puts it in flight. -/
theorem take (h : Exact P U X) (hb : b ∉ U) : Exact P (insert b U) (insert b X) where
  inj := h.inj
  notMem := by
    intro j c hj hc
    rcases Set.mem_insert_iff.mp hc with rfl | hc
    · exact hb (h.mem_of_eq hj)
    · exact h.notMem hj hc
  mem_iff := by
    intro c
    rw [Set.mem_insert_iff, Set.mem_insert_iff, h.mem_iff, or_assoc]

/-- **Giving back** a resource in flight frees it. -/
theorem give (h : Exact P U X) (hb : b ∈ X) : Exact P (U \ {b}) (X \ {b}) where
  inj := h.inj
  notMem := fun hj hc => h.notMem hj hc.1
  mem_iff := by
    intro c
    constructor
    · rintro ⟨hc, hne⟩
      exact (h.mem_iff.mp hc).imp (fun hx => ⟨hx, hne⟩) id
    · rintro (⟨hc, hne⟩ | ⟨j, hj⟩)
      · exact ⟨h.mem_of_inFlight hc, hne⟩
      · refine ⟨h.mem_of_eq hj, ?_⟩
        rintro rfl
        exact h.notMem hj hb

/-- **Attaching** a resource in flight to an empty place. -/
theorem attach (h : Exact P U X) (hb : b ∈ X) (hi : P i = none) (hi' : P' i = some b)
    (hne : ∀ j, j ≠ i → P' j = P j) : Exact P' U (X \ {b}) where
  inj := by
    intro j k c hj hk
    -- a place other than `i` holds nothing that is in flight
    have hold : ∀ l, l ≠ i → P' l ≠ some b := by
      intro l hl heq
      rw [hne l hl] at heq
      exact h.notMem heq hb
    by_cases hji : j = i <;> by_cases hki : k = i
    · rw [hji, hki]
    · subst hji
      obtain rfl : b = c := Option.some.inj (hi'.symm.trans hj)
      exact absurd hk (hold k hki)
    · subst hki
      obtain rfl : b = c := Option.some.inj (hi'.symm.trans hk)
      exact absurd hj (hold j hji)
    · rw [hne j hji] at hj
      rw [hne k hki] at hk
      exact h.inj hj hk
  notMem := by
    rintro j c hj ⟨hc, hcb⟩
    rcases eq_or_ne j i with rfl | hji
    · obtain rfl : b = c := Option.some.inj (hi'.symm.trans hj)
      exact hcb rfl
    · rw [hne j hji] at hj
      exact h.notMem hj hc
  mem_iff := by
    intro c
    rw [h.mem_iff]
    constructor
    · rintro (hc | ⟨j, hj⟩)
      · by_cases hcb : c = b
        · exact Or.inr ⟨i, hcb ▸ hi'⟩
        · exact Or.inl ⟨hc, hcb⟩
      · have hji : j ≠ i := ne_of_values hj hi nofun
        exact Or.inr ⟨j, (hne j hji).trans hj⟩
    · rintro (hc | ⟨j, hj⟩)
      · exact Or.inl hc.1
      · rcases eq_or_ne j i with rfl | hji
        · obtain rfl : b = c := Option.some.inj (hi'.symm.trans hj)
          exact Or.inl hb
        · exact Or.inr ⟨j, (hne j hji).symm.trans hj⟩

/-- **Detaching** everything that the places of `S` hold puts it in flight. -/
theorem detach (h : Exact P U X) (S : Set ι) (hS : ∀ j ∈ S, P' j = none)
    (hne : ∀ j, j ∉ S → P' j = P j) :
    Exact P' U (X ∪ {c | ∃ j ∈ S, P j = some c}) := by
  have hold : ∀ {j c}, P' j = some c → j ∉ S ∧ P j = some c := by
    intro j c hj
    have hjS : j ∉ S := fun hjS => by
      rw [hS j hjS] at hj
      cases hj
    exact ⟨hjS, (hne j hjS).symm.trans hj⟩
  refine ⟨fun hj hk => h.inj (hold hj).2 (hold hk).2, ?_, ?_⟩
  · rintro j c hj (hc | ⟨k, hkS, hk⟩)
    · exact h.notMem (hold hj).2 hc
    · obtain rfl := h.inj (hold hj).2 hk
      exact (hold hj).1 hkS
  · intro c
    rw [h.mem_iff]
    constructor
    · rintro (hc | ⟨j, hj⟩)
      · exact Or.inl (Or.inl hc)
      · by_cases hjS : j ∈ S
        · exact Or.inl (Or.inr ⟨j, hjS, hj⟩)
        · exact Or.inr ⟨j, (hne j hjS).trans hj⟩
    · rintro ((hc | ⟨j, -, hj⟩) | ⟨j, hj⟩)
      · exact Or.inl hc
      · exact Or.inr ⟨j, hj⟩
      · exact Or.inr ⟨j, (hold hj).2⟩

/-- Detaching the contents of one place. -/
theorem detach_one (h : Exact P U X) (hi : P i = some b) (hi' : P' i = none)
    (hne : ∀ j, j ≠ i → P' j = P j) : Exact P' U (insert b X) := by
  have := h.detach {i} (by rintro j rfl; exact hi') (fun j hj => hne j hj)
  have hset : X ∪ {c | ∃ j ∈ ({i} : Set ι), P j = some c} = insert b X := by
    ext c
    simp [hi, eq_comm]
  rwa [hset] at this

end Exact
