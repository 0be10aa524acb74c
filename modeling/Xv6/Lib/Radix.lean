import Mathlib

/-! # Radix trees in memory

A memory `m` gives each page its entries, and `child` says which page an entry points to, if any. The
pages that can be reached from a root in so many steps are the nodes of a tree as long as no two paths
lead to the same page. A tree changes in two ways: an entry of a page at the lowest level is written,
which changes no node, or an empty entry higher up is made to point to a fresh empty page. -/

namespace Radix

variable {α ι ε : Type*} (child : ε → Option α)

/-- The page a path leads to. -/
def node (m : α → ι → ε) : α → List ι → Option α
  | r, [] => some r
  | r, i :: π => (child (m r i)).bind fun c => node m c π

/-- The pages at most `D` steps away from the root. -/
def nodes (m : α → ι → ε) (r : α) (D : ℕ) : Set α :=
  {p | ∃ π : List ι, π.length ≤ D ∧ node child m r π = some p}

/-- No two paths of at most `D` steps lead to the same page. -/
def Distinct (m : α → ι → ε) (r : α) (D : ℕ) : Prop :=
  ∀ ⦃π ρ : List ι⦄ ⦃p : α⦄, π.length ≤ D → ρ.length ≤ D →
    node child m r π = some p → node child m r ρ = some p → π = ρ

/-- An entry is written. -/
def write [DecidableEq α] [DecidableEq ι] (m : α → ι → ε) (p : α) (i : ι) (e : ε) : α → ι → ε :=
  Function.update m p (Function.update (m p) i e)

variable {child} {m m' : α → ι → ε} {r p c : α} {i j : ι} {π ρ : List ι} {e : ε} {D : ℕ}

@[simp] theorem node_nil : node child m r [] = some r := rfl

theorem node_append (π ρ : List ι) :
    node child m r (π ++ ρ) = (node child m r π).bind fun p => node child m p ρ := by
  induction π generalizing r with
  | nil => rfl
  | cons i π ih =>
    rw [List.cons_append, node, node, Option.bind_assoc]
    exact Option.bind_congr fun c _ => ih

theorem node_concat (h : node child m r π = some p) (i : ι) :
    node child m r (π ++ [i]) = child (m p i) := by
  rw [node_append, h, Option.bind_some, node]
  cases child (m p i) <;> rfl

theorem root_mem_nodes : r ∈ nodes child m r D := ⟨[], Nat.zero_le _, rfl⟩

/-- An empty page is a tree of its own. -/
theorem node_of_empty (h : ∀ j, child (m r j) = none) (hp : node child m r π = some p) : π = [] ∧ p = r := by
  cases π with
  | nil => exact ⟨rfl, (Option.some.inj hp).symm⟩
  | cons i π =>
    rw [node, h, Option.bind_none] at hp
    cases hp

theorem Distinct.of_empty (h : ∀ j, child (m r j) = none) : Distinct child m r D :=
  fun _ _ _ _ _ hp hq => (node_of_empty h hp).1.trans (node_of_empty h hq).1.symm

theorem nodes_of_empty (h : ∀ j, child (m r j) = none) (hp : p ∈ nodes child m r D) : p = r := by
  obtain ⟨π, -, hπ⟩ := hp
  exact (node_of_empty h hπ).2

/-- A path depends on the entries on the way only. -/
theorem node_congr (h : ∀ ρ j p, ρ ++ [j] <+: π → node child m r ρ = some p → m' p j = m p j) :
    node child m' r π = node child m r π := by
  induction π generalizing r with
  | nil => rfl
  | cons i π ih =>
    have hr : m' r i = m r i := h [] i r (by simp) rfl
    rw [node, node, hr]
    refine Option.bind_congr fun c hc => ih fun ρ j p hρ hp => ?_
    refine h (i :: ρ) j p (List.cons_prefix_cons.mpr ⟨rfl, hρ⟩) ?_
    rw [node, hc]
    exact hp

theorem concat_prefix_length_le (h : ρ ++ [j] <+: π) (hπ : π.length ≤ D + 1) : ρ.length ≤ D := by
  have := h.length_le
  rw [List.length_append, List.length_singleton] at this
  omega

theorem not_concat_prefix_self (ρ : List ι) (i : ι) : ¬ ρ ++ [i] <+: ρ := by
  intro h
  have := h.length_le
  rw [List.length_append, List.length_singleton] at this
  omega

/-- What is outside a tree does not matter to it. -/
theorem node_frame (h : ∀ p ∈ nodes child m r D, m' p = m p) (hπ : π.length ≤ D + 1) :
    node child m' r π = node child m r π :=
  node_congr fun ρ j p hρ hp => by
    rw [h p ⟨ρ, concat_prefix_length_le hρ hπ, hp⟩]

theorem nodes_frame (h : ∀ p ∈ nodes child m r D, m' p = m p) :
    nodes child m' r D = nodes child m r D := by
  ext q
  exact exists_congr fun π => and_congr_right fun hπ => by rw [node_frame h (by omega)]

theorem Distinct.frame (hd : Distinct child m r D) (h : ∀ p ∈ nodes child m r D, m' p = m p) :
    Distinct child m' r D := by
  intro π ρ p hπ hρ hp hq
  rw [node_frame h (by omega)] at hp hq
  exact hd hπ hρ hp hq

/-! ### Subtrees -/

section Subtree

variable (hc : child (m r i) = some c)

include hc

theorem node_cons : node child m r (i :: π) = node child m c π := by rw [node, hc, Option.bind_some]

theorem mem_nodes_of_child (hp : p ∈ nodes child m c D) : p ∈ nodes child m r (D + 1) := by
  obtain ⟨π, hπ, hp⟩ := hp
  exact ⟨i :: π, Nat.succ_le_succ hπ, (node_cons hc).trans hp⟩

theorem Distinct.subtree (hd : Distinct child m r (D + 1)) : Distinct child m c D := by
  intro π ρ p hπ hρ hp hq
  have hπ : (i :: π).length ≤ D + 1 := Nat.succ_le_succ hπ
  have hρ : (i :: ρ).length ≤ D + 1 := Nat.succ_le_succ hρ
  exact (List.cons.inj (hd hπ hρ ((node_cons hc).trans hp) ((node_cons hc).trans hq))).2

theorem Distinct.root_notMem (hd : Distinct child m r (D + 1)) : r ∉ nodes child m c D := by
  rintro ⟨π, hπ, hp⟩
  have hπ : (i :: π).length ≤ D + 1 := Nat.succ_le_succ hπ
  have hnil : ([] : List ι).length ≤ D + 1 := Nat.zero_le _
  cases hd hnil hπ node_nil ((node_cons hc).trans hp)

/-- Different entries have different subtrees. -/
theorem Distinct.disjoint {c' : α} (hd : Distinct child m r (D + 1)) (hc' : child (m r j) = some c') (hij : i ≠ j)
    (hp : p ∈ nodes child m c D) : p ∉ nodes child m c' D := by
  rintro ⟨ρ, hρ, hq⟩
  obtain ⟨π, hπ, hp⟩ := hp
  have hπ : (i :: π).length ≤ D + 1 := Nat.succ_le_succ hπ
  have hρ : (j :: ρ).length ≤ D + 1 := Nat.succ_le_succ hρ
  exact hij (List.cons.inj (hd hπ hρ ((node_cons hc).trans hp) ((node_cons hc').trans hq))).1

end Subtree

/-- A tree is its root and its subtrees. -/
theorem mem_nodes_succ : p ∈ nodes child m r (D + 1) ↔
    p = r ∨ ∃ i c, child (m r i) = some c ∧ p ∈ nodes child m c D := by
  constructor
  · rintro ⟨π, hπ, hp⟩
    cases π with
    | nil => exact .inl (Option.some.inj hp).symm
    | cons i π =>
      obtain ⟨c, hc, hp⟩ := Option.bind_eq_some_iff.mp hp
      exact .inr ⟨i, c, hc, π, Nat.le_of_succ_le_succ hπ, hp⟩
  · rintro (rfl | ⟨i, c, hc, hp⟩)
    · exact root_mem_nodes
    · exact mem_nodes_of_child hc hp

section Write

variable [DecidableEq α] [DecidableEq ι]

theorem write_self : write m p i e p i = e := by rw [write, Function.update_self, Function.update_self]

theorem write_of_ne_page {q : α} (h : q ≠ p) : write m p i e q = m q := Function.update_of_ne h _ _

theorem write_of_ne {q : α} (h : q = p → j ≠ i) : write m p i e q j = m q j := by
  rcases eq_or_ne q p with rfl | hq
  · rw [write, Function.update_self, Function.update_of_ne (h rfl)]
  · rw [write_of_ne_page hq]

/-- A path that does not go through the entry is not affected. -/
theorem node_write (hd : Distinct child m r D) (hp : node child m r ρ = some p) (hρ : ρ.length ≤ D)
    (hπ : π.length ≤ D + 1) (hnot : ¬ ρ ++ [i] <+: π) :
    node child (write m p i e) r π = node child m r π :=
  node_congr fun ρ' j q hρ' hq => write_of_ne fun hqp hji => by
    subst hqp hji
    obtain rfl := hd (concat_prefix_length_le hρ' hπ) hρ hq hp
    exact hnot hρ'

/-- A path through the entry goes on where the entry points to. -/
theorem node_write_self (hd : Distinct child m r D) (hp : node child m r ρ = some p)
    (hρ : ρ.length ≤ D) : node child (write m p i e) r (ρ ++ [i]) = child e := by
  have hp' := (node_write (e := e) hd hp hρ (by omega) (not_concat_prefix_self ρ i)).trans hp
  rw [node_concat hp', write_self]

/-- Writing an entry at the lowest level changes no node. -/
theorem node_write_lowest (hd : Distinct child m r D) (hp : node child m r ρ = some p)
    (hρ : ρ.length = D) (hπ : π.length ≤ D) :
    node child (write m p i e) r π = node child m r π :=
  node_write hd hp hρ.le (by omega) fun h => by
    have := h.length_le
    rw [List.length_append, List.length_singleton] at this
    omega

theorem nodes_write_lowest (hd : Distinct child m r D) (hp : node child m r ρ = some p)
    (hρ : ρ.length = D) : nodes child (write m p i e) r D = nodes child m r D := by
  ext q
  exact exists_congr fun π => and_congr_right fun hπ => by rw [node_write_lowest hd hp hρ hπ]

theorem Distinct.write_lowest (hd : Distinct child m r D) (hp : node child m r ρ = some p)
    (hρ : ρ.length = D) : Distinct child (write m p i e) r D := by
  intro π π' q hπ hπ' hq hq'
  rw [node_write_lowest hd hp hρ ‹_›] at hq hq'
  exact hd hπ hπ' hq hq'

/-- An empty entry that is made to point to a fresh empty page adds one node. -/
theorem node_grow (hd : Distinct child m r D) (hp : node child m r ρ = some p) (hρ : ρ.length < D)
    (hnone : child (m p i) = none) (hfresh : c ∉ nodes child m r D) (hempty : ∀ j, child (m c j) = none)
    (hchild : child e = some c) (hπ : π.length ≤ D + 1) :
    node child (write m p i e) r π = if π = ρ ++ [i] then some c else node child m r π := by
  by_cases hpre : ρ ++ [i] <+: π
  · obtain ⟨σ, rfl⟩ := hpre
    have hcp : c ≠ p := by
      rintro rfl
      exact hfresh ⟨ρ, hρ.le, hp⟩
    rw [node_append, node_write_self hd hp hρ.le, hchild, Option.bind_some]
    cases σ with
    | nil => rw [List.append_nil, if_pos rfl, node]
    | cons j σ =>
      rw [if_neg (by simp), node_append, node_concat hp, hnone, Option.bind_none, node,
        write_of_ne_page hcp, hempty, Option.bind_none]
  · rw [node_write hd hp hρ.le hπ hpre, if_neg]
    rintro rfl
    exact hpre List.prefix_rfl

theorem nodes_grow (hd : Distinct child m r D) (hp : node child m r ρ = some p) (hρ : ρ.length < D)
    (hnone : child (m p i) = none) (hfresh : c ∉ nodes child m r D) (hempty : ∀ j, child (m c j) = none)
    (hchild : child e = some c) : nodes child (write m p i e) r D = insert c (nodes child m r D) := by
  have hnode := fun π hπ => node_grow (π := π) hd hp hρ hnone hfresh hempty hchild hπ
  ext q
  constructor
  · rintro ⟨π, hπ, hq⟩
    rw [hnode π (by omega)] at hq
    split at hq
    · exact .inl (Option.some.inj hq).symm
    · exact .inr ⟨π, hπ, hq⟩
  · rintro (rfl | ⟨π, hπ, hq⟩)
    · refine ⟨ρ ++ [i], by rw [List.length_append, List.length_singleton]; omega, ?_⟩
      rw [hnode _ (by rw [List.length_append, List.length_singleton]; omega), if_pos rfl]
    · refine ⟨π, hπ, ?_⟩
      rw [hnode π (by omega), if_neg, hq]
      rintro rfl
      rw [node_concat hp, hnone] at hq
      cases hq

theorem Distinct.grow (hd : Distinct child m r D) (hp : node child m r ρ = some p) (hρ : ρ.length < D)
    (hnone : child (m p i) = none) (hfresh : c ∉ nodes child m r D) (hempty : ∀ j, child (m c j) = none)
    (hchild : child e = some c) : Distinct child (write m p i e) r D := by
  have hnode := fun π hπ => node_grow (π := π) hd hp hρ hnone hfresh hempty hchild hπ
  intro π π' q hπ hπ' hq hq'
  rw [hnode π (by omega)] at hq
  rw [hnode π' (by omega)] at hq'
  split at hq <;> split at hq'
  · rename_i h h'
    rw [h, h']
  · cases hq
    exact absurd ⟨π', hπ', hq'⟩ hfresh
  · cases hq'
    exact absurd ⟨π, hπ, hq⟩ hfresh
  · exact hd hπ hπ' hq hq'

end Write

end Radix
