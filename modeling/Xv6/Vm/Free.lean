import Xv6.Vm.Fork

/-! # Freeing an address space

`freewalk` gives back the page-table pages of a tree without leaves. With it `uvmfree` and
`proc_freepagetable` give back everything that an address space owns. -/

namespace Xv6

open Function

open Phys

namespace Vm

-- a specification is used by its rules: the loop over a page is not run to see what it is
attribute [local irreducible] Wp

variable {s t u : Phys} {root p c sz : UInt64} {D N k : ℕ} {X : UInt64 → Option UInt64} {A B : Set UInt64}

/-! ### Trees without leaves -/

/-- A tree of page-table pages from `p` on, with nothing in the slots of the lowest level. -/
structure Bare (s : Phys) (p : UInt64) (D : ℕ) : Prop where
  distinct : Radix.Distinct child s.word p D
  isPage : ∀ q ∈ Radix.nodes child s.word p D, s.IsPage q
  notFree : ∀ q ∈ Radix.nodes child s.word p D, q ∉ s.freelist
  grants : ∀ π q i, π.length < D → s.node p π = some q → valid (s.word q i) = true →
    s.word q i &&& (PTE_R ||| PTE_W ||| PTE_X) = 0
  empty : ∀ π q i, π.length = D → s.node p π = some q → valid (s.word q i) = false

theorem Bare.subtree {i : Fin 512} (h : Bare s p (D + 1)) (hc : child (s.word p i) = some c) : Bare s c D where
  distinct := h.distinct.subtree hc
  isPage := fun q hq => h.isPage q (Radix.mem_nodes_of_child hc hq)
  notFree := fun q hq => h.notFree q (Radix.mem_nodes_of_child hc hq)
  grants := fun π q j hπ hq => h.grants (i :: π) q j (Nat.succ_lt_succ hπ) ((Radix.node_cons hc).trans hq)
  empty := fun π q j hπ hq => h.empty (i :: π) q j (congrArg Nat.succ hπ) ((Radix.node_cons hc).trans hq)

/-- A tree whose pages are as they were, and not free, is as it was. -/
theorem Bare.frame (h : Bare s p D) (hword : ∀ q ∈ Radix.nodes child s.word p D, t.word q = s.word q)
    (hkend : t.kend = s.kend) (hfree : ∀ q ∈ Radix.nodes child s.word p D, q ∉ t.freelist) : Bare t p D := by
  have hnodes : Radix.nodes child t.word p D = Radix.nodes child s.word p D := Radix.nodes_frame hword
  have hnode : ∀ π q, π.length ≤ D → t.node p π = some q →
      s.node p π = some q ∧ t.word q = s.word q := by
    intro π q hπ hq
    rw [Phys.node, Radix.node_frame hword (by omega)] at hq
    exact ⟨hq, hword q ⟨π, hπ, hq⟩⟩
  constructor
  case distinct => exact h.distinct.frame hword
  case isPage =>
    rw [hnodes]
    exact fun q hq => (h.isPage q hq).of_kend hkend
  case notFree =>
    rw [hnodes]
    exact hfree
  case grants =>
    intro π q i hπ hq
    obtain ⟨hq, hqw⟩ := hnode π q hπ.le hq
    rw [hqw]
    exact h.grants π q i hπ hq
  case empty =>
    intro π q i hπ hq
    obtain ⟨hq, hqw⟩ := hnode π q hπ.le hq
    rw [hqw]
    exact h.empty π q i hπ hq

/-! ### `freewalk` -/

/-- The last page of a tree is given back. -/
theorem kfree_last (hk : s.Kmem) (hp : s.IsPage p) (hfree : p ∉ s.freelist) :
    Wp (kfree p) (fun _ => False) (fun _ t => Moves s t {p} ∅) s := by
  refine (kfree_spec hp).mono ?_
  rintro _ _ rfl
  have hgive : Moves s (giveBack s p) {p} (({p} : Set UInt64) \ {p}) :=
    ⟨.give hk.nodup (by rintro q rfl; exact hfree) rfl fun q hq => update_of_ne hq _ _, rfl⟩
  rwa [Set.sdiff_self] at hgive

/-- The subtrees of the entries from `k` on. -/
def subtrees (s : Phys) (p : UInt64) (D k : ℕ) : Set UInt64 :=
  {q | ∃ (j : Fin 512) (c : UInt64), k ≤ j.val ∧ child (s.word p j) = some c ∧ q ∈ Radix.nodes child s.word c D}

/-- The entries before `k` have been dealt with. -/
structure FreedTo (s u : Phys) (p : UInt64) (D k : ℕ) : Prop where
  moves : Moves s u (Radix.nodes child s.word p (D + 1)) (insert p (subtrees s p D k))
  word : ∀ q ∈ subtrees s p D k, u.word q = s.word q
  entry : ∀ j : Fin 512, k ≤ j.val → u.word p j = s.word p j

theorem subtrees_subset (hk : k ≤ N) : subtrees s p D N ⊆ subtrees s p D k := by
  rintro q ⟨j, c, hj, hc, hq⟩
  exact ⟨j, c, hk.trans hj, hc, hq⟩

theorem FreedTo.start (hk : s.Kmem) (h : Bare s p (D + 1)) : FreedTo s s p D 0 := by
  have hall : Radix.nodes child s.word p (D + 1) = insert p (subtrees s p D 0) := by
    ext q
    rw [Radix.mem_nodes_succ, Set.mem_insert_iff]
    refine or_congr Iff.rfl ⟨?_, ?_⟩
    · rintro ⟨i, c, hc, hq⟩
      exact ⟨i, c, Nat.zero_le _, hc, hq⟩
    · rintro ⟨i, c, -, hc, hq⟩
      exact ⟨i, c, hc, hq⟩
  refine ⟨?_, fun _ _ => rfl, fun _ _ => rfl⟩
  rw [← hall]
  exact .refl hk h.notFree

/-- An entry that points nowhere has no subtree. -/
theorem FreedTo.skip {i : Fin 512} (h : FreedTo s u p D i.val) (hnone : child (s.word p i) = none) :
    FreedTo s u p D (i.val + 1) := by
  have hsame : subtrees s p D (i.val + 1) = subtrees s p D i.val := by
    refine (subtrees_subset (Nat.le_succ _)).antisymm ?_
    rintro q ⟨j, c, hj, hc, hq⟩
    refine ⟨j, c, ?_, hc, hq⟩
    rcases hj.lt_or_eq with hlt | heq
    · exact hlt
    · obtain rfl := Fin.ext heq
      rw [hnone] at hc
      cases hc
  exact ⟨hsame ▸ h.moves, hsame ▸ h.word, fun j hj => h.entry j (by omega)⟩

/-- The subtree of an entry has been freed, and the entry is cleared. -/
theorem FreedTo.free {i : Fin 512} (hb : Bare s p (D + 1)) (h : FreedTo s u p D i.val)
    (hc : child (s.word p i) = some c) (hmoves : Moves u t (Radix.nodes child s.word c D) ∅) :
    FreedTo s { t with word := Radix.write t.word p i 0 } p D (i.val + 1) := by
  have hsub := subtrees_subset (s := s) (p := p) (D := D) (Nat.le_succ i.val)
  have hroot : p ∉ subtrees s p D (i.val + 1) := by
    rintro ⟨j, c', -, hc', hq⟩
    exact hb.distinct.root_notMem hc' hq
  -- what is left is owned next to the subtree that goes
  obtain ⟨hadd, hword, -⟩ := moves_add (F := insert p (subtrees s p D (i.val + 1))) hmoves
    (by
      rintro q (rfl | ⟨j, c', hj, hc', hq⟩)
      · exact hb.distinct.root_notMem hc
      · refine hb.distinct.disjoint hc' hc ?_ hq
        rintro rfl
        omega)
    (by
      rintro q (rfl | hq)
      · exact h.moves.disjoint q (.inl rfl)
      · exact h.moves.disjoint q (.inr (hsub hq)))
  have hall : Radix.nodes child s.word c D ∪ insert p (subtrees s p D (i.val + 1)) =
      insert p (subtrees s p D i.val) := by
    rw [Set.union_insert]
    congr 1
    ext q
    constructor
    · rintro (hq | hq)
      · exact ⟨i, c, le_rfl, hc, hq⟩
      · exact hsub hq
    · rintro ⟨j, c', hj, hc', hq⟩
      rcases hj.lt_or_eq with hlt | heq
      · exact .inr ⟨j, c', hlt, hc', hq⟩
      · obtain rfl := Fin.ext heq
        obtain rfl := Option.some.inj (hc'.symm.trans hc)
        exact .inl hq
  rw [hall, Set.empty_union] at hadd
  constructor
  case moves =>
    refine (h.moves.trans hadd).trans ⟨.write hadd.nodup hadd.disjoint fun q hq => ?_, rfl⟩
    exact Radix.write_of_ne_page fun heq => hq (.inl heq)
  case word =>
    intro q hq
    have hne : q ≠ p := by
      rintro rfl
      exact hroot hq
    show Radix.write t.word p i 0 q = s.word q
    rw [Radix.write_of_ne_page hne, hword q (.inr hq), h.word q (hsub hq)]
  case entry =>
    intro j hj
    have hne : j ≠ i := by
      rintro rfl
      omega
    show Radix.write t.word p i 0 p j = s.word p j
    rw [Radix.write_of_ne fun _ => hne, hword p (.inl rfl), h.entry j (by omega)]

theorem FreedTo.last (h : FreedTo s u p D 512) :
    Moves s u (Radix.nodes child s.word p (D + 1)) {p} := by
  have hnone : subtrees s p D 512 = ∅ := by
    refine Set.eq_empty_of_forall_notMem ?_
    rintro q ⟨j, -, hj, -⟩
    omega
  have hmoves := h.moves
  rwa [hnone, insert_empty_eq] at hmoves

/-- **`freewalk` gives back a tree without leaves.** -/
theorem freewalk_spec (hk : s.Kmem) (h : Bare s p D) :
    Wp (freewalk (D + 1) p) (fun _ => False) (fun _ t => Moves s t (Radix.nodes child s.word p D) ∅) s := by
  induction D generalizing s p with
  | zero =>
    have hroot : Radix.nodes child s.word p 0 = {p} := by
      ext q
      constructor
      · rintro ⟨π, hπ, hq⟩
        obtain rfl : π = [] := List.length_eq_zero_iff.mp (Nat.le_zero.mp hπ)
        exact (Option.some.inj hq).symm
      · rintro rfl
        exact Radix.root_mem_nodes
    rw [hroot, freewalk]
    refine (wp_forM_range (fun _ u => u = s) 512 rfl ?_).bind ?_
    · rintro i - u rfl
      have hv : valid (u.word p (Fin.ofNat 512 i)) = false := h.empty [] p _ rfl rfl
      simp only [load, wp_bind, wp_get, wp_pure, hv, Bool.false_eq_true, false_and, if_false]
    · rintro - u rfl
      have hp : p ∈ Radix.nodes child u.word p 0 := Radix.root_mem_nodes
      exact kfree_last hk (h.isPage p hp) (h.notFree p hp)
  | succ D ih =>
    have hp : p ∈ Radix.nodes child s.word p (D + 1) := Radix.root_mem_nodes
    rw [freewalk]
    refine (wp_forM_range (fun k u => FreedTo s u p D k) 512 (.start hk h) ?_).bind ?_
    · intro k hlt u hu
      obtain ⟨i, hi⟩ : ∃ i : Fin 512, i = Fin.ofNat 512 k := ⟨_, rfl⟩
      have hik : i.val = k := by
        rw [hi, Fin.val_ofNat]
        exact Nat.mod_eq_of_lt hlt
      subst hik
      have hentry := hu.entry i le_rfl
      have hu' := hu.moves.isPage h.isPage hk
      simp only [load, wp_bind, wp_get, wp_pure, wp_ite, ← hi, hentry]
      refine ⟨fun hv => ?_, fun hnot => ⟨fun hv => ?_, fun hv => ?_⟩⟩
      · have hc := child_valid hv.1
        have hsub : ∀ q ∈ Radix.nodes child s.word (PTE2PA (s.word p i)) D, q ∈ subtrees s p D i.val :=
          fun q hq => ⟨i, _, le_rfl, hc, hq⟩
        have hbare : Bare u (PTE2PA (s.word p i)) D := (h.subtree hc).frame (fun q hq => hu.word q (hsub q hq))
          hu.moves.kend fun q hq => hu.moves.disjoint q (.inr (hsub q hq))
        have hnodes := Radix.nodes_frame fun q hq => hu.word q (hsub q hq)
        refine (ih hu'.1 hbare).mono fun _ t ht => ?_
        rw [hnodes] at ht
        rw [store, wp_modify]
        exact hu.free h hc ht
      · exact absurd ⟨hv, h.grants [] p i (Nat.succ_pos D) rfl hv⟩ hnot
      · exact hu.skip (child_invalid (by simpa using hv))
    · rintro - u hu
      have hmoves := hu.last
      obtain ⟨hku, hpu⟩ := hmoves.isPage h.isPage hk
      exact (kfree_last hku (hpu p rfl) (hmoves.disjoint p rfl)).mono fun _ t ht => hmoves.trans ht

/-! ### Address spaces without memory -/

/-- An address space without memory is a page table. -/
theorem space_zero (hpt : s.PageTable root) (hinner : s.Inner root)
    (hlookup : ∀ b, Aligned b → lookup s root b = X b) : Space s root 0 X := by
  have hnone : ∀ q, q ∉ data s root (below 0) := by
    rintro q ⟨b, e, -, hb, -⟩
    exact not_below_zero b hb
  exact ⟨hpt, hinner, fun b _ hb => absurd hb (not_below_zero b), fun b hb _ => hlookup b hb,
    fun b _ _ _ _ _ hb => absurd hb (not_below_zero b), fun q hq => absurd hq (hnone q),
    fun q hq => absurd hq (hnone q), fun q hq => absurd hq (hnone q)⟩

/-- With nothing above either, the page table has no leaves. -/
theorem Space.bare (h : Space s root 0 fun _ => none) : Bare s root 2 where
  distinct := h.pageTable.distinct
  isPage := h.pageTable.isPage
  notFree := h.pageTable.disjoint
  grants := h.inner.grants
  empty := by
    intro π q i hπ hq
    obtain ⟨a, b, rfl⟩ : ∃ a b, π = [a, b] := List.length_eq_two.mp hπ
    have ha : a.val < 256 := by
      obtain ⟨c, hc, -⟩ := Option.bind_eq_some_iff.mp hq
      by_contra hge
      rw [child_invalid (h.inner.unused a (by omega))] at hc
      cases hc
    obtain ⟨va, halign, hlt, rfl, rfl, rfl⟩ := exists_PX a b i ha
    have hpath : pathFrom va 2 = [PX 2 va, PX 1 va] := rfl
    have hlookup := h.other va halign (not_below_zero va)
    rw [lookup_node (hpath ▸ hq) hlt] at hlookup
    by_contra hv
    rw [if_pos (by simpa using hv)] at hlookup
    cases hlookup

theorem uvmfree_spec (h : Space s root (numPages sz) fun _ => none) :
    Wp (uvmfree root sz) (fun _ => False) (fun _ t => Moves s t (owned s root (numPages sz)) ∅) s := by
  have hlt := h.lt
  have hwalk : ∀ u, Resized s u root (numPages sz) 0 (fun _ => none) →
      Wp (freewalk 3 root) (fun _ => False) (fun _ t => Moves s t (owned s root (numPages sz)) ∅) u := by
    intro u hu
    have hmoves := hu.moves
    rw [owned_zero] at hmoves
    exact (freewalk_spec hu.space.pageTable.kmem hu.space.bare).mono fun _ t ht => hmoves.trans ht
  unfold uvmfree
  simp only [wp_ite, wp_bind]
  refine ⟨fun _ => ?_, fun hzero => hwalk s ?_⟩
  · rw [PGROUNDUP_eq hlt]
    exact (h.clear above_none).mono fun _ u hu => hwalk u hu
  · have hsz : numPages sz = 0 := by
      have hle := UInt64.le_iff_toNat_le.mp (UInt64.not_lt.mp hzero)
      rw [UInt64.toNat_zero] at hle
      rw [numPages]
      omega
    rw [hsz] at h ⊢
    exact .refl h

/-! ### The two pages at the top -/

/-- A page is mapped above, or there is no memory for the page table. -/
theorem Space.mapAt {va pa perm : UInt64} (h : Space s root 0 X) (ha : Aligned va) (hlt : va.toNat < MAXVA)
    (hnone : X va = none) :
    Wp (mappages root va 4096 pa perm) (fun _ => False)
      (fun r t => Moves s t (owned s root 0) (owned t root 0) ∧
        ((r = 0 ∧ Space t root 0 (update X va (some (PA2PTE pa ||| perm ||| PTE_V)))) ∨
          r = -1 ∧ Space t root 0 X)) s := by
  have halign : va.toNat % 4096 = 0 := ha
  have hspec : Wp (mappages root va 4096 pa perm) (MapFails s root va 1)
      (fun r t => ∃ k, MappedTo s t root va pa perm k ∧ (r = 0 ∧ k = 1 ∨ r = -1 ∧ k < 1 ∧ t.freelist = [])) s :=
    mappages_spec h.pageTable ha (show Aligned 4096 by decide) (by decide)
  refine (hspec.mono_error fun x hx => ?_).mono ?_
  · cases x with
    | walk =>
      have hx : MAXVA < va.toNat + 1 * 4096 := hx
      rw [MAXVA_eq] at hx hlt
      omega
    | mappagesRemap =>
      obtain ⟨i, hi, hne⟩ := hx
      obtain rfl : i = 0 := by omega
      rw [pageAt_zero, h.other va ha (not_below_zero va)] at hne
      exact hne hnone
    | _ => exact hx
  · rintro r t ⟨k, hmapped, hr⟩
    rw [owned_zero, owned_zero]
    refine ⟨hmapped.edited.moves, ?_⟩
    have hspace : ∀ Y, (∀ b, Aligned b → lookup t root b = Y b) → Space t root 0 Y :=
      fun Y => space_zero hmapped.edited.pageTable (hmapped.edited.inner h.inner)
    rcases hr with ⟨hr, rfl⟩ | ⟨hr, hk, -⟩
    · refine .inl ⟨hr, hspace _ fun b hb => ?_⟩
      rcases eq_or_ne b va with rfl | hne
      · have hone := hmapped.lookup 0 Nat.one_pos
        rw [pageAt_zero, mapped, pageAt_zero] at hone
        rw [update_self, hone]
      · rw [update_of_ne hne, hmapped.edited.lookup b hb, h.other b hb (not_below_zero b)]
        rintro ⟨i, hi, rfl⟩
        obtain rfl : i = 0 := by omega
        exact hne (pageAt_zero va)
    · refine .inr ⟨hr, hspace _ fun b hb => ?_⟩
      rw [hmapped.edited.lookup b hb, h.other b hb (not_below_zero b)]
      rintro ⟨i, hi, -⟩
      omega

/-- A page above is unmapped. -/
theorem Space.unmapAt {va e : UInt64} (h : Space s root N X) (ha : Aligned va) (hlt : va.toNat < MAXVA)
    (hN : ¬ below N va) (he : X va = some e) (hflags : PTE_FLAGS e ≠ PTE_V) :
    Wp (uvmunmap root va 1 false) (fun _ => False)
      (fun _ t => Moves s t (owned s root N) (owned t root N) ∧ Space t root N (update X va none)) s := by
  have halign : va.toNat % 4096 = 0 := ha
  have hstop : (va + 1 * 4096).toNat = va.toNat + 4096 := toNat_add_page hlt
  have hrange : ∀ b, Aligned b → (range va (va + 1 * 4096) b ↔ b = va) := by
    intro b hb
    have hb : b.toNat % 4096 = 0 := hb
    rw [range, UInt64.le_iff_toNat_le, UInt64.lt_iff_toNat_lt, hstop, ← UInt64.toNat_inj]
    omega
  have hlookup : lookup s root va = some e := (h.other va ha hN).trans he
  have hspec : Wp (uvmunmap root va 1 false) (UnmapFails s root (range va (va + 1 * 4096)))
      (fun _ t => Unmapped s t root false (range va (va + 1 * 4096))) s :=
    uvmunmap_spec h.pageTable ha (by simp)
  refine (hspec.mono_error fun x hx => ?_).mono ?_
  · cases x with
    | walk =>
      obtain ⟨b, hb, hmax⟩ := hx
      have hb := UInt64.lt_iff_toNat_lt.mp hb.2
      rw [hstop] at hb
      rw [MAXVA_eq] at hmax hlt
      omega
    | uvmunmapWalk | uvmunmapNotMapped =>
      obtain ⟨b, hb, hRb, hnone⟩ := hx
      obtain rfl := (hrange b hb).mp hRb
      cases hnone.symm.trans hlookup
    | uvmunmapNotLeaf =>
      obtain ⟨b, e', hb, hRb, he', hf⟩ := hx
      obtain rfl := (hrange b hb).mp hRb
      obtain rfl := Option.some.inj (he'.symm.trans hlookup)
      exact hflags hf
    | _ => exact hx
  · intro _ t ht
    have hout : ∀ b, Aligned b → b ≠ va → lookup t root b = lookup s root b :=
      fun b hb hne => ht.outside b hb fun hR => hne ((hrange b hb).mp hR)
    have hbelow : ∀ b, Aligned b → below N b → lookup t root b = lookup s root b := by
      intro b hb hbN
      refine hout b hb ?_
      rintro rfl
      exact hN hbN
    have hdata : data t root (below N) = data s root (below N) := data_congr hbelow
    have hmoves := ht.moves
    rw [show freed s root false _ = ∅ from rfl, Set.union_empty] at hmoves
    obtain ⟨hadd, -, hnotTable⟩ := moves_add (F := data s root (below N)) hmoves h.backed.notTable h.backed.notFree
    have hown : Moves s t (owned s root N) (owned t root N) := by
      rw [owned, owned, hdata]
      exact hadd
    refine ⟨hown, ht.pageTable, ht.inner h.inner, fun b hb hbN => ?_, fun b hb hbN => ?_, ?_⟩
    · rw [hbelow b hb hbN]
      exact h.user b hb hbN
    · rcases eq_or_ne b va with rfl | hne
      · rw [update_self, ht.inside b hb ((hrange b hb).mpr rfl)]
      · rw [update_of_ne hne, hout b hb hne, h.other b hb hbN]
    · refine h.backed.transfer (fun b hb hbN => by rw [hbelow b hb hbN]) hown.kend hnotTable fun q hq => ?_
      rw [← hdata] at hq
      exact hown.disjoint q (.inr hq)

/-- What every process has above its memory. -/
def fixed (trampoline trapframe : UInt64) : UInt64 → Option UInt64 :=
  update (update (fun _ => none) TRAMPOLINE
    (some (PA2PTE trampoline ||| (PTE_R ||| PTE_X) ||| PTE_V))) TRAPFRAME
    (some (PA2PTE trapframe ||| (PTE_R ||| PTE_W) ||| PTE_V))

section Fixed

variable (trampoline trapframe : UInt64)

theorem above_fixed : Above (fixed trampoline trapframe) := by
  intro b hb
  have hb := UInt64.lt_iff_toNat_lt.mp hb
  have hne : ∀ a : UInt64, TRAPFRAME.toNat ≤ a.toNat → b ≠ a := by
    rintro a ha rfl
    omega
  rw [fixed, update_of_ne (hne _ le_rfl), update_of_ne (hne _ (by decide))]

theorem fixed_TRAMPOLINE : fixed trampoline trapframe TRAMPOLINE =
    some (PA2PTE trampoline ||| (PTE_R ||| PTE_X) ||| PTE_V) := by
  rw [fixed, update_of_ne (by decide), update_self]

theorem flags_top {perm : UInt64} (pa : UInt64) (hperm : (perm ||| PTE_V).toNat < 2 ^ 10)
    (hne : perm ||| PTE_V ≠ PTE_V) : PTE_FLAGS (PA2PTE pa ||| perm ||| PTE_V) ≠ PTE_V := by
  rw [UInt64.or_assoc, flags_PA2PTE_or pa hperm]
  exact hne

/-- `proc_freepagetable` gives back all that the address space of a process owns. -/
theorem procFreepagetable_spec (h : Space s root (numPages sz) (fixed trampoline trapframe)) :
    Wp (procFreepagetable root sz) (fun _ => False)
      (fun _ t => Moves s t (owned s root (numPages sz)) ∅) s := by
  have hlt := h.lt
  have htop : ∀ b : UInt64, TRAPFRAME.toNat ≤ b.toNat → ¬ below (numPages sz) b := by
    intro b hb hbN
    have hbN : b.toNat < numPages sz * 4096 := hbN
    rw [show TRAPFRAME.toNat = 0x3fffffe000 from rfl] at hb
    omega
  unfold procFreepagetable
  simp only [wp_bind]
  refine (h.unmapAt (by decide) (by decide) (htop _ (by decide)) (fixed_TRAMPOLINE _ _)
    (flags_top _ (by decide) (by decide))).mono ?_
  rintro _ t ⟨hmoves, hspace⟩
  rw [wp_bind]
  have hframe : update (fixed trampoline trapframe) TRAMPOLINE none TRAPFRAME =
      some (PA2PTE trapframe ||| (PTE_R ||| PTE_W) ||| PTE_V) := by
    rw [update_of_ne (by decide), fixed, update_self]
  refine (hspace.unmapAt (by decide) (by decide) (htop _ le_rfl) hframe
    (flags_top _ (by decide) (by decide))).mono ?_
  rintro _ u ⟨hmoves', hspace'⟩
  have hnone : update (update (fixed trampoline trapframe) TRAMPOLINE none) TRAPFRAME none =
      fun _ => none := by
    rw [fixed, update_comm (by decide), update_idem, update_comm (by decide),
      update_idem]
    simp
  rw [hnone] at hspace'
  exact (uvmfree_spec hspace').mono fun _ v hv => (hmoves.trans hmoves').trans hv

/-- `proc_pagetable` makes an address space without memory, or changes nothing. -/
theorem procPagetable_spec (hk : s.Kmem) :
    Wp (procPagetable trampoline trapframe) (fun _ => False)
      (fun o t => (o = none ∧ Moves s t ∅ ∅) ∨ ∃ root, o = some root ∧
        Space t root 0 (fixed trampoline trapframe) ∧ Moves s t ∅ (owned t root 0)) s := by
  unfold procPagetable
  refine (uvmcreate_space hk).bind ?_
  rintro o t (⟨rfl, -, rfl⟩ | ⟨root, rfl, hspace, hmoves⟩)
  · exact (wp_pure ..).mpr (.inl ⟨rfl, .refl hk nofun⟩)
  -- Whatever was made is given back on either failure.
  have hgive : ∀ u, Moves s u ∅ (owned u root 0) → Space u root 0 (fun _ => none) →
      Wp (do uvmfree root 0; return none) (fun _ => False)
        (fun o t => (o = none ∧ Moves s t ∅ ∅) ∨ ∃ root, o = some root ∧
          Space t root 0 (fixed trampoline trapframe) ∧ Moves s t ∅ (owned t root 0)) u := by
    intro u hu hspace
    rw [← numPages_zero] at hspace hu
    refine (uvmfree_spec hspace).bind fun _ v hv => ?_
    rw [wp_pure]
    exact .inl ⟨rfl, hu.trans hv⟩
  dsimp only
  refine (hspace.mapAt (by decide) (by decide) rfl).bind ?_
  rintro r u ⟨hmoves', hr⟩
  rw [wp_ite]
  rcases hr with ⟨rfl, hspace'⟩ | ⟨rfl, hspace'⟩
  swap
  · exact ⟨fun _ => hgive u (hmoves.trans hmoves') hspace', fun h => absurd (by decide) h⟩
  refine ⟨fun h => absurd h (by decide), fun _ => ?_⟩
  refine (hspace'.mapAt (by decide) (by decide) (update_of_ne (by decide) _ _)).bind ?_
  rintro r v ⟨hmoves'', hr⟩
  rw [wp_ite]
  rcases hr with ⟨rfl, hspace''⟩ | ⟨rfl, hspace''⟩
  · refine ⟨fun h => absurd h (by decide), fun _ => ?_⟩
    rw [wp_pure]
    exact .inr ⟨root, rfl, hspace'', (hmoves.trans hmoves').trans hmoves''⟩
  · refine ⟨fun _ => ?_, fun h => absurd (by decide) h⟩
    refine (hspace''.unmapAt (by decide) (by decide) (not_below_zero _) (update_self ..)
      (flags_top _ (by decide) (by decide))).bind ?_
    rintro _ w ⟨hmoves₃, hspace₃⟩
    rw [update_idem, update_eq_self] at hspace₃
    exact hgive w (((hmoves.trans hmoves').trans hmoves'').trans hmoves₃) hspace₃

end Fixed

end Vm

end Xv6
