import Xv6.Vm.Bits
import Xv6.Lib.Transfer
import Xv6.Lib.Wp

/-! # The tree of page-table pages

A page table is a tree of depth two: its nodes are the page-table pages, and the entries of the pages at
depth two are the leaf slots. `walk` without allocation follows a path in the tree; with allocation it
adds the nodes that are missing, and no lookup notices. -/

namespace Xv6

open Function

namespace Vm

/-- The page-table page an entry of a higher level points to. -/
def child (e : UInt64) : Option UInt64 := if valid e then some (PTE2PA e) else none

theorem child_zero : child 0 = none := rfl

theorem child_valid {e : UInt64} (h : valid e = true) : child e = some (PTE2PA e) := if_pos h

theorem child_invalid {e : UInt64} (h : valid e = false) : child e = none := if_neg (by simp [h])

/-- The indices of a virtual address from a level down to level 1. -/
def pathFrom (va : UInt64) : ℕ → List (Fin 512)
  | 0 => []
  | level + 1 => PX (level + 1) va :: pathFrom va level

theorem length_pathFrom (va : UInt64) (level : ℕ) : (pathFrom va level).length = level := by
  induction level with
  | zero => rfl
  | succ level ih => rw [pathFrom, List.length_cons, ih]

end Vm

open Vm

namespace Phys

/-- The page-table page at the end of a path. -/
abbrev node (s : Phys) (root : UInt64) (π : List (Fin 512)) : Option UInt64 :=
  Radix.node child s.word root π

/-- The page-table pages of a page table. -/
def tables (s : Phys) (root : UInt64) : Set UInt64 := Radix.nodes child s.word root 2

/-- A page that `kfree` accepts. -/
structure IsPage (s : Phys) (p : UInt64) : Prop where
  aligned : Aligned p
  le : s.kend ≤ p
  lt : p.toNat < PHYSTOP

/-- The free list has pages only, each of them once. -/
structure Kmem (s : Phys) : Prop where
  nodup : s.freelist.Nodup
  isPage : ∀ p ∈ s.freelist, s.IsPage p

/-- A tree of distinct page-table pages, none of them free. -/
structure PageTable (s : Phys) (root : UInt64) : Prop where
  kmem : s.Kmem
  distinct : Radix.Distinct child s.word root 2
  isPage : ∀ p ∈ s.tables root, s.IsPage p
  disjoint : ∀ p ∈ s.tables root, p ∉ s.freelist

/-- The entries of the higher levels point to page-table pages: they grant nothing. Those of the upper half of
the root, which are for addresses past `MAXVA`, are not used. -/
structure Inner (s : Phys) (root : UInt64) : Prop where
  grants : ∀ π p i, π.length < 2 → s.node root π = some p → valid (s.word p i) = true →
    s.word p i &&& (PTE_R ||| PTE_W ||| PTE_X) = 0
  unused : ∀ i : Fin 512, 256 ≤ i.val → valid (s.word root i) = false

/-- A change of the memory by the owner of the pages `A`, who becomes the owner of the pages `B`. -/
structure Moves (s t : Phys) (A B : Set UInt64) : Prop
    extends Transfer s.word t.word s.freelist t.freelist A B where
  kend : t.kend = s.kend

variable {s t u : Phys} {root p pt va : UInt64} {A B C : Set UInt64} {π ρ : List (Fin 512)}
  {i : Fin 512} {level : ℕ}

theorem IsPage.lt_two_pow (h : s.IsPage p) : p.toNat < 2 ^ 56 :=
  h.lt.trans (by decide)

theorem IsPage.of_kend (h : s.IsPage p) (hk : t.kend = s.kend) : t.IsPage p :=
  ⟨h.aligned, hk ▸ h.le, h.lt⟩

/-- The entry that points to a page. -/
theorem IsPage.child (h : s.IsPage p) : child (PA2PTE p ||| PTE_V) = some p := by
  rw [child_valid (valid_or_PTE_V _), PTE2PA_PA2PTE_or h.aligned h.lt_two_pow (by decide)]

theorem Moves.refl (hk : s.Kmem) (hA : ∀ q ∈ A, q ∉ s.freelist) : Moves s s A A :=
  ⟨.refl hk.nodup hA, rfl⟩

theorem Moves.trans (h : Moves s t A B) (h' : Moves t u B C) : Moves s u A C :=
  ⟨h.toTransfer.trans h'.toTransfer, h'.kend.trans h.kend⟩

/-- What is owned or free stays a page. -/
theorem Moves.isPage (h : Moves s t A B) (hA : ∀ q ∈ A, s.IsPage q) (hk : s.Kmem) :
    t.Kmem ∧ ∀ q ∈ B, t.IsPage q := by
  have hq : ∀ q, q ∈ B ∨ q ∈ t.freelist → t.IsPage q := by
    intro q hq
    refine IsPage.of_kend (s := s) ?_ h.kend
    exact ((h.conserve q).mp hq).elim (hA q) (hk.isPage q)
  exact ⟨⟨h.nodup, fun q hf => hq q (.inr hf)⟩, fun q hB => hq q (.inl hB)⟩

/-- A tree stays one when its nodes are owned all along. -/
theorem PageTable.of_moves (h : s.PageTable root) (hm : Moves s t (s.tables root) (t.tables root))
    (hd : Radix.Distinct Vm.child t.word root 2) : t.PageTable root := by
  obtain ⟨hk, hp⟩ := hm.isPage h.isPage h.kmem
  exact ⟨hk, hd, hp, hm.disjoint⟩

end Phys

open Phys

namespace Vm

variable {s t u : Phys} {root p pt va : UInt64} {π ρ : List (Fin 512)} {i : Fin 512} {level : ℕ}

/-! ### Looking up -/

theorem walkFrom_false (s : Phys) (pt va : UInt64) (level : ℕ) :
    walkFrom va false level pt s =
      .ok ((s.node pt (pathFrom va level)).map fun p => ⟨p, PX 0 va⟩, s) := by
  induction level generalizing pt with
  | zero => rfl
  | succ level ih =>
    rw [walkFrom, pathFrom, Phys.node, Radix.node]
    cases hv : valid (s.word pt (PX (level + 1) va)) with
    | true =>
      rw [child_valid hv, Option.bind_some, ← ih]
      simp only [bind, StateT.bind, load, get, getThe, MonadStateOf.get, StateT.get, pure, StateT.pure,
        Except.pure, Except.bind]
      rw [if_pos hv]
    | false =>
      rw [child_invalid hv, Option.bind_none, Option.map_none]
      simp only [bind, StateT.bind, load, get, getThe, MonadStateOf.get, StateT.get, pure, StateT.pure,
        Except.pure, Except.bind]
      rw [if_neg (by simp [hv])]
      rfl

/-- `walk` without allocation follows the path of the address. -/
theorem walk_false (s : Phys) (root : UInt64) (h : va.toNat < MAXVA) :
    walk root va false s = .ok ((s.node root (pathFrom va 2)).map fun p => ⟨p, PX 0 va⟩, s) := by
  rw [walk, if_neg (by omega), walkFrom_false]

theorem wp_walk_false {E : VmPanic → Prop} {Q : Option PteAddr → Phys → Prop} (h : va.toNat < MAXVA) :
    Wp (walk root va false) E Q s ↔ Q ((s.node root (pathFrom va 2)).map fun p => ⟨p, PX 0 va⟩) s := by
  rw [Wp, walk_false s root h]

theorem lookup_of_le (s : Phys) (root : UInt64) (h : MAXVA ≤ va.toNat) : lookup s root va = none := by
  rw [lookup, walk, if_pos h]
  rfl

theorem lookup_eq (s : Phys) (root : UInt64) (h : va.toNat < MAXVA) :
    lookup s root va = (s.node root (pathFrom va 2)).bind fun p =>
      if valid (s.word p (PX 0 va)) then some (s.word p (PX 0 va)) else none := by
  rw [lookup, walk_false s root h]
  cases s.node root (pathFrom va 2) <;> rfl

/-- A lookup depends on the page at the end of the path, and on the slot. -/
theorem lookup_congr (hnode : t.node root (pathFrom va 2) = s.node root (pathFrom va 2))
    (hword : ∀ p, s.node root (pathFrom va 2) = some p → t.word p (PX 0 va) = s.word p (PX 0 va)) :
    lookup t root va = lookup s root va := by
  rcases Nat.lt_or_ge va.toNat MAXVA with h | h
  · rw [lookup_eq t root h, lookup_eq s root h, hnode]
    exact Option.bind_congr fun p hp => by rw [hword p hp]
  · rw [lookup_of_le t root h, lookup_of_le s root h]

theorem lookup_none (h : s.node root (pathFrom va 2) = none) : lookup s root va = none := by
  rcases Nat.lt_or_ge va.toNat MAXVA with hlt | hle
  · rw [lookup_eq s root hlt, h, Option.bind_none]
  · exact lookup_of_le s root hle

theorem lookup_empty (h : s.node root (pathFrom va 2) = some p) (hp : s.word p (PX 0 va) = 0) :
    lookup s root va = none := by
  rcases Nat.lt_or_ge va.toNat MAXVA with hlt | hle
  · rw [lookup_eq s root hlt, h, Option.bind_some, hp]
    rfl
  · exact lookup_of_le s root hle

theorem lt_of_lookup {e : UInt64} (h : lookup s root va = some e) : va.toNat < MAXVA := by
  by_contra hge
  rw [lookup_of_le s root (Nat.le_of_not_lt hge)] at h
  cases h

section Frame

variable (h : ∀ p ∈ s.tables root, t.word p = s.word p)

include h

/-- What is outside the page table does not matter to it. -/
theorem lookup_frame (va : UInt64) : lookup t root va = lookup s root va := by
  have hlen := length_pathFrom va 2
  refine lookup_congr (Radix.node_frame h (by omega)) fun p hp => ?_
  rw [h p ⟨_, hlen.le, hp⟩]

theorem tables_frame : t.tables root = s.tables root := Radix.nodes_frame h

theorem inner_frame (hi : s.Inner root) : t.Inner root := by
  have hroot : t.word root = s.word root := h root Radix.root_mem_nodes
  refine ⟨fun π p j hπ hp hv => ?_, fun i hlt => ?_⟩
  · rw [Phys.node, Radix.node_frame (D := 2) h (by omega)] at hp
    rw [h p ⟨π, hπ.le, hp⟩] at hv ⊢
    exact hi.grants π p j hπ hp hv
  · rw [hroot]
    exact hi.unused i hlt

end Frame

/-! ### Adding page-table pages -/

/-- The tree has grown, and no lookup notices. -/
structure Grown (s t : Phys) (root : UInt64) : Prop where
  moves : Moves s t (s.tables root) (t.tables root)
  pageTable : t.PageTable root
  keeps : ∀ π p, π.length ≤ 2 → s.node root π = some p → t.node root π = some p
  lookup : ∀ va, lookup t root va = lookup s root va
  inner : s.Inner root → t.Inner root

theorem Grown.refl (h : s.PageTable root) : Grown s s root :=
  ⟨.refl h.kmem h.disjoint, h, fun _ _ _ hp => hp, fun _ => rfl, id⟩

theorem Grown.trans (h : Grown s t root) (h' : Grown t u root) : Grown s u root :=
  ⟨h.moves.trans h'.moves, h'.pageTable, fun π p hπ hp => h'.keeps π p hπ (h.keeps π p hπ hp),
    fun va => (h'.lookup va).trans (h.lookup va), fun hi => h'.inner (h.inner hi)⟩

theorem Grown.tables (h : Grown s t root) : s.tables root ⊆ t.tables root := by
  rintro p ⟨π, hπ, hp⟩
  exact ⟨π, hπ, h.keeps π p hπ hp⟩

/-- The memory after a page-table page `c` was allocated for entry `i` of `pt`. -/
def addTable (s : Phys) (pt : UInt64) (i : Fin 512) (c : UInt64) (l : List UInt64) : Phys :=
  { s with
    freelist := l
    word := Radix.write (update s.word c fun _ => 0) pt i (PA2PTE c ||| PTE_V) }

theorem word_addTable {q c : UInt64} {l : List UInt64} (h : q ≠ pt) :
    (addTable s pt i c l).word q = update s.word c (fun _ => 0) q :=
  Radix.write_of_ne_page h

section AddTable

variable {c : UInt64} {l : List UInt64} (h : s.PageTable root) (hfree : s.freelist = c :: l)
  (hpt : s.node root ρ = some pt) (hρ : ρ.length < 2) (hnone : child (s.word pt i) = none)

include h hfree

theorem fresh_of_free : c ∉ s.tables root := fun hc => h.disjoint c hc (hfree ▸ List.mem_cons_self)

/-- Clearing a free page does not change the tree. -/
theorem node_clear (hπ : π.length ≤ 3) :
    Radix.node child (update s.word c fun _ => 0) root π = s.node root π := by
  refine Radix.node_frame (D := 2) (fun p hp => update_of_ne ?_ _ _) hπ
  rintro rfl
  exact fresh_of_free h hfree hp

theorem tables_clear :
    Radix.nodes child (update s.word c fun _ => 0) root 2 = s.tables root := by
  refine Radix.nodes_frame fun p hp => update_of_ne ?_ _ _
  rintro rfl
  exact fresh_of_free h hfree hp

theorem distinct_clear : Radix.Distinct child (update s.word c fun _ => 0) root 2 := by
  refine h.distinct.frame fun p hp => update_of_ne ?_ _ _
  rintro rfl
  exact fresh_of_free h hfree hp

omit h hfree in
theorem child_clear (j : Fin 512) : child ((update s.word c fun _ => 0) c j) = none := by
  rw [update_self]
  exact child_zero

include hpt hρ

theorem ne_of_free : pt ≠ c := by
  rintro rfl
  exact fresh_of_free h hfree ⟨ρ, hρ.le, hpt⟩

include hnone

theorem node_addTable (hπ : π.length ≤ 3) :
    (addTable s pt i c l).node root π = if π = ρ ++ [i] then some c else s.node root π := by
  have hc : s.IsPage c := h.kmem.isPage c (hfree ▸ List.mem_cons_self)
  have hempty : child ((update s.word c fun _ => 0) pt i) = none := by
    rw [update_of_ne (ne_of_free h hfree hpt hρ)]
    exact hnone
  have hgrow := Radix.node_grow (c := c) (π := π) (distinct_clear h hfree)
    ((node_clear h hfree (by omega)).trans hpt) hρ hempty
    ((tables_clear h hfree).symm ▸ fresh_of_free h hfree) child_clear hc.child hπ
  rw [node_clear h hfree hπ] at hgrow
  exact hgrow

theorem inner_addTable (hlow : ρ = [] → i.val < 256) (hi : s.Inner root) : (addTable s pt i c l).Inner root := by
  have hc : s.IsPage c := h.kmem.isPage c (hfree ▸ List.mem_cons_self)
  have hne := ne_of_free h hfree hpt hρ
  have hword : ∀ p j, p ≠ c → ¬ (p = pt ∧ j = i) → (addTable s pt i c l).word p j = s.word p j := by
    intro p j hpc hslot
    have hsame : (update s.word c fun _ => 0) p j = s.word p j := by
      rw [update_of_ne hpc]
    exact (Radix.write_of_ne fun hpt hji => hslot ⟨hpt, hji⟩).trans hsame
  refine ⟨fun π p j hπ hp hv => ?_, fun j hj => ?_⟩
  · rw [node_addTable h hfree hpt hρ hnone (by omega)] at hp
    split at hp
    · -- the new page is empty
      cases hp
      rw [word_addTable hne.symm, update_self] at hv
      cases hv
    · have hpc : p ≠ c := by
        rintro rfl
        exact fresh_of_free h hfree ⟨π, by omega, hp⟩
      by_cases hslot : p = pt ∧ j = i
      · obtain ⟨rfl, rfl⟩ := hslot
        have hword : (addTable s p j c l).word p j = PA2PTE c ||| PTE_V := Radix.write_self
        rw [hword, perms_eq, PTE_FLAGS_PA2PTE_or hc.lt_two_pow (by decide)]
        rfl
      · rw [hword p j hpc hslot] at hv ⊢
        exact hi.grants π p j hπ hp hv
  · have hrootc : root ≠ c := by
      rintro rfl
      exact fresh_of_free h hfree Radix.root_mem_nodes
    rw [hword root j hrootc, hi.unused j hj]
    rintro ⟨rfl, rfl⟩
    -- the entry is in the root: it is the first one of the path
    have := hlow (h.distinct hρ.le (Nat.zero_le 2) hpt rfl)
    omega

theorem addTable_grown (hlow : ρ = [] → i.val < 256) : Grown s (addTable s pt i c l) root := by
  have hc : s.IsPage c := h.kmem.isPage c (hfree ▸ List.mem_cons_self)
  have hne := ne_of_free h hfree hpt hρ
  have hempty : child ((update s.word c fun _ => 0) pt i) = none := by
    rw [update_of_ne hne]
    exact hnone
  have htables : (addTable s pt i c l).tables root = insert c (s.tables root) := by
    rw [← tables_clear h hfree]
    exact Radix.nodes_grow (distinct_clear h hfree) ((node_clear h hfree (by omega)).trans hpt) hρ hempty
      ((tables_clear h hfree).symm ▸ fresh_of_free h hfree) child_clear hc.child
  have hdistinct : Radix.Distinct child (addTable s pt i c l).word root 2 :=
    (distinct_clear h hfree).grow ((node_clear h hfree (by omega)).trans hpt) hρ hempty
      ((tables_clear h hfree).symm ▸ fresh_of_free h hfree) child_clear hc.child
  have hmoves : Moves s (addTable s pt i c l) (s.tables root) ((addTable s pt i c l).tables root) := by
    refine ⟨?_, rfl⟩
    rw [htables]
    have htake : Transfer s.word (update s.word c fun _ => 0) s.freelist l (s.tables root)
        (insert c (s.tables root)) := by
      rw [hfree]
      exact .take (hfree ▸ h.kmem.nodup) (hfree ▸ h.disjoint) fun q hq => update_of_ne hq _ _
    refine htake.trans (.write htake.nodup htake.disjoint fun q hq => Radix.write_of_ne_page ?_)
    rintro rfl
    exact hq (.inr ⟨ρ, hρ.le, hpt⟩)
  refine ⟨hmoves, h.of_moves hmoves hdistinct, ?_, ?_, inner_addTable h hfree hpt hρ hnone hlow⟩
  · intro π p hπ hp
    rw [node_addTable h hfree hpt hρ hnone (by omega), if_neg, hp]
    rintro rfl
    rw [Phys.node, Radix.node_concat hpt, hnone] at hp
    cases hp
  · intro va
    by_cases hva : pathFrom va 2 = ρ ++ [i]
    · -- the address had no slot, and has an empty one now
      have hs : s.node root (pathFrom va 2) = none := by
        rw [hva, Phys.node, Radix.node_concat hpt, hnone]
      have ht : (addTable s pt i c l).node root (pathFrom va 2) = some c := by
        rw [node_addTable h hfree hpt hρ hnone (length_pathFrom va 2).le.step, if_pos hva]
      have hword : (addTable s pt i c l).word c (PX 0 va) = 0 := by
        rw [word_addTable hne.symm, update_self]
      exact (lookup_empty ht hword).trans (lookup_none hs).symm
    · refine lookup_congr ?_ fun p hp => ?_
      · rw [node_addTable h hfree hpt hρ hnone (length_pathFrom va 2).le.step, if_neg hva]
      · have hlen := length_pathFrom va 2
        have hpc : p ≠ c := by
          rintro rfl
          exact fresh_of_free h hfree ⟨_, hlen.le, hp⟩
        have hppt : p ≠ pt := by
          rintro rfl
          rw [← h.distinct hlen.le hρ.le hp hpt] at hρ
          omega
        rw [word_addTable hppt, update_of_ne hpc]

end AddTable

/-- What a walk with allocation returns: the slot, or nothing when memory is used up. -/
def Slot (t : Phys) (root va : UInt64) (π : List (Fin 512)) : Option PteAddr → Prop
  | none => t.freelist = []
  | some pte => t.node root π = some pte.page ∧ pte.index = PX 0 va

/-- The first index of an address below `MAXVA` is in the lower half. -/
theorem PX_two_lt (hva : va.toNat < MAXVA) : (PX 2 va).val < 256 := by
  rw [MAXVA_eq] at hva
  have hval : (PX 2 va).val = va.toNat / 2 ^ 30 % 512 := PX_val le_rfl va
  omega

theorem walkFrom_true (h : s.PageTable root) (hva : va.toNat < MAXVA) (hpt : s.node root ρ = some pt)
    (hlen : ρ.length + level = 2) :
    Wp (walkFrom va true level pt) (fun _ => False)
      (fun o t => Grown s t root ∧ Slot t root va (ρ ++ pathFrom va level) o) s := by
  induction level generalizing s ρ pt with
  | zero =>
    rw [walkFrom, wp_pure, pathFrom, List.append_nil]
    exact ⟨.refl h, hpt, rfl⟩
  | succ level ih =>
    have hpath : ρ ++ pathFrom va (level + 1) = (ρ ++ [PX (level + 1) va]) ++ pathFrom va level := by
      rw [pathFrom, List.append_assoc, List.singleton_append]
    have hlen' : (ρ ++ [PX (level + 1) va]).length + level = 2 := by
      rw [List.length_append, List.length_singleton]
      omega
    rw [walkFrom, hpath]
    simp only [load, wp_bind, wp_get, wp_pure, wp_ite, Bool.not_true, Bool.false_eq_true, false_implies,
      true_and, not_false_eq_true, forall_const]
    constructor
    · intro hv
      refine ih h ?_ hlen'
      rw [Phys.node, Radix.node_concat hpt, child_valid hv]
    · intro hv
      have hnone : child (s.word pt (PX (level + 1) va)) = none := child_invalid (by simpa using hv)
      unfold kalloc
      rw [wp_bind, wp_get]
      cases hfree : s.freelist with
      | nil => exact ⟨.refl h, hfree⟩
      | cons c l =>
        simp only [memset, store, wp_bind, wp_set, wp_modify, wp_pure, update_idem]
        have hρ : ρ.length < 2 := by omega
        have hlow : ρ = [] → (PX (level + 1) va).val < 256 := by
          rintro rfl
          obtain rfl : level = 1 := by simpa using hlen
          exact PX_two_lt hva
        have hgrown := addTable_grown h hfree hpt hρ hnone hlow
        have hnode : (addTable s pt (PX (level + 1) va) c l).node root (ρ ++ [PX (level + 1) va]) =
            some c := by
          rw [node_addTable h hfree hpt hρ hnone (by omega), if_pos rfl]
        exact (ih hgrown.pageTable hnode hlen').mono fun o t ⟨ht, ho⟩ => ⟨hgrown.trans ht, ho⟩

/-- `walk` with allocation adds the page-table pages that are missing. -/
theorem walk_true (h : s.PageTable root) (hva : va.toNat < MAXVA) :
    Wp (walk root va true) (fun _ => False)
      (fun o t => Grown s t root ∧ Slot t root va (pathFrom va 2) o) s := by
  rw [walk, if_neg (by omega)]
  exact walkFrom_true (ρ := []) h hva rfl rfl

end Vm

end Xv6
