import Mathlib

/-! # Tilings

A list of intervals, each given by its start and its length, tiles a set of numbers if the intervals are
disjoint and their union is the set. The order of the list does not matter, an interval can be cut in
two, and two that touch can be joined. -/

/-- The numbers of an interval. -/
def Tile.points (t : ℕ × ℕ) : Set ℕ := {x | t.1 ≤ x ∧ x < t.1 + t.2}

/-- The intervals are disjoint, and their union is `S`. -/
structure Tiles (l : List (ℕ × ℕ)) (S : Set ℕ) : Prop where
  disjoint : l.Pairwise fun t u => ∀ x, x ∈ Tile.points t → x ∉ Tile.points u
  cover : ∀ x, x ∈ S ↔ ∃ t ∈ l, x ∈ Tile.points t

namespace Tiles

variable {l l' : List (ℕ × ℕ)} {S : Set ℕ} {t : ℕ × ℕ} {a b m n : ℕ}

theorem nil : Tiles [] ∅ := ⟨List.Pairwise.nil, by simp⟩

theorem perm (h : Tiles l S) (hp : l.Perm l') : Tiles l' S := by
  constructor
  case disjoint =>
    refine (hp.pairwise_iff ?_).mp h.disjoint
    intro t u htu x hu ht
    exact htu x ht hu
  case cover =>
    intro x
    rw [h.cover x]
    exact exists_congr fun t => and_congr_left fun _ => hp.mem_iff

/-- An interval that is disjoint from the set is added. -/
theorem cons (h : Tiles l S) (ht : ∀ x ∈ Tile.points t, x ∉ S) : Tiles (t :: l) (Tile.points t ∪ S) := by
  constructor
  case disjoint =>
    refine List.pairwise_cons.mpr ⟨fun u hu x hx hxu => ht x hx ?_, h.disjoint⟩
    exact (h.cover x).mpr ⟨u, hu, hxu⟩
  case cover =>
    intro x
    rw [Set.mem_union, h.cover x, List.exists_mem_cons_iff]

theorem points_add (a m n : ℕ) :
    Tile.points (a, m + n) = Tile.points (a, m) ∪ Tile.points (a + m, n) := by
  ext x
  simp only [Tile.points, Set.mem_ofPred_eq, Set.mem_union]
  omega

/-- An interval is cut in two, or two that touch are joined. -/
theorem split_iff : Tiles ((a, m + n) :: l) S ↔ Tiles ((a, m) :: (a + m, n) :: l) S := by
  have hcover : ∀ x, (∃ t ∈ (a, m + n) :: l, x ∈ Tile.points t) ↔
      ∃ t ∈ (a, m) :: (a + m, n) :: l, x ∈ Tile.points t := by
    intro x
    rw [List.exists_mem_cons_iff, List.exists_mem_cons_iff, List.exists_mem_cons_iff, points_add,
      Set.mem_union, or_assoc]
  constructor
  · rintro ⟨hd, hc⟩
    obtain ⟨hhead, htail⟩ := List.pairwise_cons.mp hd
    have hpart : ∀ t, Tile.points t ⊆ Tile.points (a, m + n) → ∀ u ∈ l, ∀ x ∈ Tile.points t,
        x ∉ Tile.points u := fun t ht u hu x hx => hhead u hu x (ht hx)
    have hleft : Tile.points (a, m) ⊆ Tile.points (a, m + n) := by
      rw [points_add]
      exact Set.subset_union_left
    have hright : Tile.points (a + m, n) ⊆ Tile.points (a, m + n) := by
      rw [points_add]
      exact Set.subset_union_right
    refine ⟨List.pairwise_cons.mpr ⟨?_, List.pairwise_cons.mpr ⟨hpart _ hright, htail⟩⟩,
      fun x => (hc x).trans (hcover x)⟩
    intro u hu
    rcases List.mem_cons.mp hu with rfl | hu
    · rintro x ⟨-, hx⟩ ⟨hx', -⟩
      dsimp only at hx hx'
      omega
    · exact hpart _ hleft u hu
  · rintro ⟨hd, hc⟩
    obtain ⟨hhead, htail⟩ := List.pairwise_cons.mp hd
    obtain ⟨hmid, hl⟩ := List.pairwise_cons.mp htail
    refine ⟨List.pairwise_cons.mpr ⟨fun u hu x hx => ?_, hl⟩, fun x => (hc x).trans (hcover x).symm⟩
    rw [points_add] at hx
    rcases hx with hx | hx
    · exact hhead u (List.mem_cons_of_mem _ hu) x hx
    · exact hmid u hu x hx

theorem subset (h : Tiles l S) (ht : t ∈ l) : Tile.points t ⊆ S := fun x hx => (h.cover x).mpr ⟨t, ht, hx⟩

end Tiles
