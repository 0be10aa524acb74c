import Mathlib

/-! # Circular linked lists

`Linked next l` says that each element of `l` points to the one after it. A circular list with the
elements `b :: l` is `Linked next (b :: l ++ [b])`; it can be entered anywhere. -/

variable {α : Type*}

/-- Each element points to the one after it. -/
def Linked (next : α → α) (l : List α) : Prop := l.IsChain fun x y => next x = y

namespace Linked

variable {next next' : α → α} {a b p : α} {l l' : List α}

theorem congr (h : Linked next l) (heq : ∀ x ∈ l.dropLast, next' x = next x) : Linked next' l := by
  induction l with
  | nil => exact .nil
  | cons x l ih =>
    cases l with
    | nil => exact .singleton x
    | cons y l =>
      obtain ⟨hxy, htail⟩ := List.isChain_cons_cons.mp h
      refine List.isChain_cons_cons.mpr ⟨(heq x (by simp)).trans hxy, ih htail fun z hz => heq z ?_⟩
      rw [List.dropLast_cons_cons]
      exact List.mem_cons_of_mem _ hz

/-- Two stretches that meet in `p`. -/
theorem append_iff : Linked next (l ++ p :: l') ↔ Linked next (l ++ [p]) ∧ Linked next (p :: l') :=
  List.isChain_split

theorem cons_cons : Linked next (a :: b :: l) ↔ next a = b ∧ Linked next (b :: l) := List.isChain_cons_cons

theorem singleton (a : α) : Linked next [a] := List.IsChain.singleton a

/-- A circular list entered at `p`. -/
theorem rotate {A B : List α} (h : Linked next (b :: l ++ [b])) (hsplit : b :: l = A ++ p :: B) :
    Linked next (p :: B ++ A ++ [p]) := by
  cases A with
  | nil =>
    obtain ⟨rfl, rfl⟩ := List.cons.inj hsplit
    rwa [List.append_nil]
  | cons c A =>
    rw [List.cons_append] at hsplit
    obtain ⟨rfl, rfl⟩ := List.cons.inj hsplit
    have hlist : b :: (A ++ p :: B) ++ [b] = (b :: A) ++ p :: (B ++ [b]) := by simp
    rw [hlist, append_iff] at h
    have hgoal : p :: B ++ b :: A ++ [p] = (p :: B) ++ b :: (A ++ [p]) := by simp
    rw [hgoal, append_iff]
    exact ⟨by simpa using h.2, by simpa using h.1⟩

/-- What an element points to, if it is not the first one, stands after it. -/
theorem split_next {x : α} (h : Linked next (l ++ [b])) (ha : a ∈ l) (hx : next a = x) (hne : x ≠ b) :
    ∃ A B, l = A ++ a :: x :: B := by
  obtain ⟨A, B, rfl⟩ := List.append_of_mem ha
  rw [List.append_assoc, List.cons_append, append_iff] at h
  cases B with
  | nil => exact absurd (hx.symm.trans (cons_cons.mp h.2).1) hne
  | cons y B =>
    obtain rfl : x = y := hx.symm.trans (cons_cons.mp h.2).1
    exact ⟨A, B, rfl⟩

end Linked

/-- Where a number belongs in a sorted list that starts below it. -/
theorem List.exists_place {l : List ℕ} {a x : ℕ} (h : (a :: l).Pairwise (· < ·)) (ha : a < x) (hx : x ∉ l) :
    ∃ A p B, a :: l = A ++ p :: B ∧ (∀ y ∈ A, y < p) ∧ p < x ∧ ∀ y ∈ B, x < y := by
  induction l generalizing a with
  | nil => exact ⟨[], a, [], rfl, nofun, ha, nofun⟩
  | cons b l ih =>
    obtain ⟨hab, htail⟩ := List.pairwise_cons.mp h
    obtain ⟨hb, hl⟩ := List.pairwise_cons.mp htail
    rw [List.mem_cons, not_or] at hx
    rcases Nat.lt_or_gt_of_ne hx.1 with hlt | hgt
    · refine ⟨[], a, b :: l, rfl, nofun, ha, fun y hy => ?_⟩
      rcases List.mem_cons.mp hy with rfl | hy
      · exact hlt
      · exact hlt.trans (hb y hy)
    · obtain ⟨A, p, B, heq, hA, hp, hB⟩ := ih htail hgt hx.2
      refine ⟨a :: A, p, B, by rw [heq, List.cons_append], fun y hy => ?_, hp, hB⟩
      rcases List.mem_cons.mp hy with rfl | hy
      · exact hab p (heq ▸ List.mem_append_right A List.mem_cons_self)
      · exact hA y hy
