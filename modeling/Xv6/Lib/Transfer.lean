import Mathlib

/-! # Transfers between an owner and a free list

`Transfer m m' f f' A B` says of a program that it takes the memory from `m` to `m'` and the free list
from `f` to `f'`, that the pages it owns are `A` before and `B` after, and that it does so at nobody
else's cost: the pages it owns together with the free ones stay the same, none is lost or listed twice,
and no other page is changed. Transfers compose, and hold next to whatever else is owned. -/

variable {α β : Type*}

/-- An owner of the pages `A` becomes an owner of the pages `B`. -/
structure Transfer (m m' : α → β) (f f' : List α) (A B : Set α) : Prop where
  frame : ∀ q, q ∉ A → q ∉ f → m' q = m q
  nodup : f'.Nodup
  disjoint : ∀ q ∈ B, q ∉ f'
  conserve : ∀ q, q ∈ B ∨ q ∈ f' ↔ q ∈ A ∨ q ∈ f

namespace Transfer

variable {m m' m'' : α → β} {f f' f'' : List α} {A B C F : Set α} {p : α}

theorem refl (hf : f.Nodup) (hA : ∀ q ∈ A, q ∉ f) : Transfer m m f f A A :=
  ⟨fun _ _ _ => rfl, hf, hA, fun _ => Iff.rfl⟩

/-- What is neither owned nor free before is so afterwards. -/
theorem others {q : α} (h : Transfer m m' f f' A B) (hA : q ∉ A) (hf : q ∉ f) : q ∉ B ∧ q ∉ f' :=
  not_or.mp fun hq => ((h.conserve q).mp hq).elim hA hf

theorem trans (h : Transfer m m' f f' A B) (h' : Transfer m' m'' f' f'' B C) :
    Transfer m m'' f f'' A C where
  frame := by
    intro q hA hf
    obtain ⟨hB, hf'⟩ := h.others hA hf
    rw [h'.frame q hB hf', h.frame q hA hf]
  nodup := h'.nodup
  disjoint := h'.disjoint
  conserve := fun q => (h'.conserve q).trans (h.conserve q)

/-- What else is owned stays owned, and stays as it is. -/
theorem add (h : Transfer m m' f f' A B) (hA : ∀ q ∈ F, q ∉ A) (hf : ∀ q ∈ F, q ∉ f) :
    Transfer m m' f f' (A ∪ F) (B ∪ F) ∧ (∀ q ∈ F, m' q = m q) ∧ ∀ q ∈ F, q ∉ B := by
  have hq : ∀ q ∈ F, q ∉ B ∧ q ∉ f' := fun q hF => h.others (hA q hF) (hf q hF)
  refine ⟨⟨?_, h.nodup, ?_, ?_⟩, fun q hF => h.frame q (hA q hF) (hf q hF), fun q hF => (hq q hF).1⟩
  · intro q hAF hqf
    exact h.frame q (fun hA => hAF (.inl hA)) hqf
  · rintro q (hB | hF)
    · exact h.disjoint q hB
    · exact (hq q hF).2
  · intro q
    rw [Set.mem_union, Set.mem_union, or_right_comm, h.conserve q, or_right_comm]

/-- A page is taken from the free list. -/
theorem take (hf : (p :: f').Nodup) (hA : ∀ q ∈ A, q ∉ p :: f') (hm : ∀ q, q ≠ p → m' q = m q) :
    Transfer m m' (p :: f') f' A (insert p A) where
  frame := fun q _ hq => hm q fun h => hq (h ▸ List.mem_cons_self)
  nodup := (List.nodup_cons.mp hf).2
  disjoint := by
    rintro q (rfl | hq) hqf
    · exact (List.nodup_cons.mp hf).1 hqf
    · exact hA q hq (List.mem_cons_of_mem _ hqf)
  conserve := by
    intro q
    rw [Set.mem_insert_iff, List.mem_cons]
    tauto

/-- A page is put on the free list. -/
theorem give (hf : f.Nodup) (hA : ∀ q ∈ A, q ∉ f) (hp : p ∈ A) (hm : ∀ q, q ≠ p → m' q = m q) :
    Transfer m m' f (p :: f) A (A \ {p}) where
  frame := fun q hq _ => hm q fun h => hq (h ▸ hp)
  nodup := List.nodup_cons.mpr ⟨hA p hp, hf⟩
  disjoint := by
    rintro q ⟨hq, hqp⟩ hqf
    rcases List.mem_cons.mp hqf with rfl | hqf
    · exact hqp rfl
    · exact hA q hq hqf
  conserve := by
    intro q
    rw [Set.mem_sdiff, Set.mem_singleton_iff, List.mem_cons]
    rcases eq_or_ne q p with rfl | hne
    · simp [hp]
    · simp [hne]

/-- A page of one's own is written. -/
theorem write (hf : f.Nodup) (hA : ∀ q ∈ A, q ∉ f) (hm : ∀ q, q ∉ A → m' q = m q) :
    Transfer m m' f f A A :=
  ⟨fun q hq _ => hm q hq, hf, hA, fun _ => Iff.rfl⟩

end Transfer

open Function

variable {P : Type*} [DecidableEq P] {m m' : α → β} {f f' : List α} {U B : Set α} {own : P → Set α} {p : P}

/-- The pages `U` are the free ones and those of the owners, each of them once. -/
structure Divided (U : Set α) (f : List α) (own : P → Set α) : Prop where
  nodup : f.Nodup
  notFree : ∀ p, ∀ q ∈ own p, q ∉ f
  apart : ∀ p p', ∀ q ∈ own p, q ∈ own p' → p = p'
  all : ∀ q, q ∈ U ↔ q ∈ f ∨ ∃ p, q ∈ own p

/-- A transfer by one of the owners keeps it so. -/
theorem Divided.transfer (h : Divided U f own) (ht : Transfer m m' f f' (own p) B) :
    Divided U f' (update own p B) := by
  have hrest : ∀ p' ≠ p, ∀ q ∈ own p', q ∉ B ∧ q ∉ f' := fun p' hne q hq =>
    ht.others (fun hp => hne (h.apart p' p q hq hp)) (h.notFree p' q hq)
  refine ⟨ht.nodup, ?_, ?_, fun q => ?_⟩
  · rw [forall_update_iff own fun _ A => ∀ q ∈ A, q ∉ f']
    exact ⟨ht.disjoint, fun p' hne q hq => (hrest p' hne q hq).2⟩
  · intro p₁ p₂ q h₁ h₂
    grind [h.apart p₁ p₂ q, update_apply]
  · have hq := ht.conserve q
    rw [h.all, exists_update_iff own fun _ A => q ∈ A]
    grind
