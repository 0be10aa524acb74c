import Xv6.Vm.PageTable

/-! # A page table is a finite map

`mappages` and `uvmunmap` change what the pages of their range look up to and nothing else, whatever
page-table pages are added on the way and wherever they stop. -/

namespace Xv6

open Function

open Phys

namespace Vm

variable {s t u : Phys} {root p va a e : UInt64} {R R' : UInt64 → Prop}

/-- The slot of an aligned address is nobody else's. -/
theorem slot_injective (h : s.PageTable root) {va va' : UInt64} (ha : Aligned va) (ha' : Aligned va')
    (hlt : va.toNat < MAXVA) (hlt' : va'.toNat < MAXVA) (hp : s.node root (pathFrom va 2) = some p)
    (hp' : s.node root (pathFrom va' 2) = some p) (hi : PX 0 va = PX 0 va') : va = va' := by
  have hpath := h.distinct (length_pathFrom va 2).le (length_pathFrom va' 2).le hp hp'
  obtain ⟨h2, h1, -⟩ : PX 2 va = PX 2 va' ∧ PX 1 va = PX 1 va' ∧ True := by
    simpa [pathFrom] using hpath
  refine PX_injective ha ha' hlt hlt' fun level hl => ?_
  obtain rfl | rfl | rfl : level = 0 ∨ level = 1 ∨ level = 2 := by omega
  · exact hi
  · exact h1
  · exact h2

/-- A change of the page table that is noticed at the addresses of `R` only. -/
structure Edited (s t : Phys) (root : UInt64) (R : UInt64 → Prop) : Prop where
  moves : Moves s t (s.tables root) (t.tables root)
  pageTable : t.PageTable root
  lookup : ∀ b, Aligned b → ¬ R b → lookup t root b = lookup s root b
  inner : s.Inner root → t.Inner root
  tables : s.tables root ⊆ t.tables root

theorem Edited.trans (h : Edited s t root R) (h' : Edited t u root R) : Edited s u root R :=
  ⟨h.moves.trans h'.moves, h'.pageTable,
    fun b hb hR => (h'.lookup b hb hR).trans (h.lookup b hb hR), fun hi => h'.inner (h.inner hi),
    h.tables.trans h'.tables⟩

theorem Edited.mono (h : Edited s t root R) (hR : ∀ b, R b → R' b) : Edited s t root R' :=
  ⟨h.moves, h.pageTable, fun b hb hR' => h.lookup b hb fun hb => hR' (hR b hb), h.inner, h.tables⟩

theorem Grown.edited (h : Grown s t root) : Edited s t root R :=
  ⟨h.moves, h.pageTable, fun b _ _ => h.lookup b, h.inner, h.tables⟩

/-! ### Writing a slot -/

/-- The memory after a slot was written. -/
def setSlot (s : Phys) (p va e : UInt64) : Phys :=
  { s with word := Radix.write s.word p (PX 0 va) e }

section SetSlot

variable (h : s.PageTable root) (hp : s.node root (pathFrom va 2) = some p)

include h hp

theorem node_setSlot {π : List (Fin 512)} (hπ : π.length ≤ 2) :
    (setSlot s p va e).node root π = s.node root π :=
  Radix.node_write_lowest h.distinct hp (length_pathFrom va 2) hπ

theorem tables_setSlot : (setSlot s p va e).tables root = s.tables root :=
  Radix.nodes_write_lowest h.distinct hp (length_pathFrom va 2)

theorem lookup_setSlot_self (hlt : va.toNat < MAXVA) :
    lookup (setSlot s p va e) root va = if valid e then some e else none := by
  have hword : (setSlot s p va e).word p (PX 0 va) = e := Radix.write_self
  rw [lookup_eq _ root hlt, node_setSlot h hp (length_pathFrom va 2).le, hp, Option.bind_some, hword]

/-- The slots are below the higher levels. -/
theorem inner_setSlot (hi : s.Inner root) : (setSlot s p va e).Inner root := by
  have hlen := length_pathFrom va 2
  have hword : ∀ π q, π.length < 2 → s.node root π = some q → (setSlot s p va e).word q = s.word q := by
    intro π q hπ hq
    refine Radix.write_of_ne_page ?_
    rintro rfl
    rw [h.distinct hπ.le hlen.le hq hp] at hπ
    omega
  refine ⟨fun π q j hπ hq hv => ?_, fun j hj => ?_⟩
  · rw [node_setSlot h hp hπ.le] at hq
    rw [hword π q hπ hq] at hv ⊢
    exact hi.grants π q j hπ hq hv
  · rw [hword [] root (by decide) rfl]
    exact hi.unused j hj

theorem setSlot_edited (ha : Aligned va) (hlt : va.toNat < MAXVA) :
    Edited s (setSlot s p va e) root (fun b => b = va) := by
  have hlen := length_pathFrom va 2
  have hmoves : Moves s (setSlot s p va e) (s.tables root) ((setSlot s p va e).tables root) := by
    refine ⟨?_, rfl⟩
    rw [tables_setSlot h hp]
    refine .write h.kmem.nodup h.disjoint fun q hq => Radix.write_of_ne_page ?_
    rintro rfl
    exact hq ⟨_, hlen.le, hp⟩
  refine ⟨hmoves, h.of_moves hmoves (h.distinct.write_lowest hp hlen), ?_, inner_setSlot h hp,
    (tables_setSlot h hp).ge⟩
  intro b hb hne
  rcases Nat.lt_or_ge b.toNat MAXVA with hbt | hbt
  · refine lookup_congr (node_setSlot h hp (length_pathFrom b 2).le) fun q hq => ?_
    refine Radix.write_of_ne fun hqp hi => hne ?_
    subst hqp
    exact slot_injective h hb ha hbt hlt hq hp hi
  · rw [lookup_of_le _ root hbt, lookup_of_le _ root hbt]

end SetSlot

/-- What is in a slot. -/
theorem lookup_node (hp : s.node root (pathFrom va 2) = some p) (hlt : va.toNat < MAXVA) :
    lookup s root va = if valid (s.word p (PX 0 va)) then some (s.word p (PX 0 va)) else none := by
  rw [lookup_eq s root hlt, hp, Option.bind_some]

/-! ### Mapping -/

/-- Page `i` of a range of `N`, for the entries that `mappages` writes. -/
def mapped (pa perm : UInt64) (i : ℕ) : UInt64 := PA2PTE (pageAt pa i) ||| perm ||| PTE_V

/-- How `mappages` can fail: the range goes past `MAXVA`, or a page of it is in use. -/
def MapFails (s : Phys) (root a : UInt64) (N : ℕ) : VmPanic → Prop
  | .walk => MAXVA < a.toNat + N * 4096
  | .mappagesRemap => ∃ i < N, lookup s root (pageAt a i) ≠ none
  | _ => False

/-- The first `k` pages of the range have been mapped. -/
structure MappedTo (s t : Phys) (root a pa perm : UInt64) (k : ℕ) : Prop where
  edited : Edited s t root fun b => ∃ i < k, b = pageAt a i
  lookup : ∀ i < k, lookup t root (pageAt a i) = some (mapped pa perm i)
  lt : ∀ i < k, a.toNat + i * 4096 < MAXVA

theorem mapped_succ (pa perm : UInt64) (i : ℕ) : mapped pa perm (i + 1) = mapped (pa + 4096) perm i := by
  rw [mapped, mapped, pageAt_succ]

theorem MappedTo.zero {pa perm : UInt64} (h : Edited s t root fun _ => False) :
    MappedTo s t root a pa perm 0 :=
  ⟨h.mono fun _ => False.elim, nofun, nofun⟩

/-- One page is mapped, and then the pages after it. -/
theorem MappedTo.cons {pa perm : UInt64} {k : ℕ} (h : MappedTo s t root a pa perm 1) (ha : Aligned a)
    (h' : MappedTo t u root (a + 4096) (pa + 4096) perm k) : MappedTo s u root a pa perm (k + 1) := by
  have hlt : a.toNat < MAXVA := by simpa using h.lt 0 Nat.one_pos
  have hsucc := toNat_add_page hlt
  constructor
  case edited =>
    refine (h.edited.mono ?_).trans (h'.edited.mono ?_)
    · rintro b ⟨i, hi, rfl⟩
      exact ⟨i, by omega, rfl⟩
    · rintro b ⟨i, hi, rfl⟩
      exact ⟨i + 1, by omega, (pageAt_succ a i).symm⟩
  case lookup =>
    intro i hi
    cases i with
    | zero =>
      -- the pages after the first one are other pages
      rw [h'.edited.lookup _ (aligned_pageAt ha 0), h.lookup 0 Nat.one_pos]
      rintro ⟨j, hj, heq⟩
      rw [← pageAt_succ, pageAt_zero] at heq
      have hj := h'.lt j hj
      rw [MAXVA_eq] at hj
      exact pageAt_ne_self (Nat.succ_ne_zero j) (by omega) heq.symm
    | succ i =>
      rw [pageAt_succ, mapped_succ]
      exact h'.lookup i (by omega)
  case lt =>
    intro i hi
    cases i with
    | zero => simpa using hlt
    | succ i =>
      have := h'.lt i (by omega)
      omega

/-- One page is mapped. -/
theorem MappedTo.one {pa perm : UInt64} (h : Grown s t root) (ha : Aligned a) (hlt : a.toNat < MAXVA)
    (hp : t.node root (pathFrom a 2) = some p) :
    MappedTo s (setSlot t p a (mapped pa perm 0)) root a pa perm 1 := by
  have hset := setSlot_edited (e := mapped pa perm 0) h.pageTable hp ha hlt
  constructor
  case edited =>
    refine (h.edited.trans hset).mono ?_
    rintro b rfl
    exact ⟨0, Nat.one_pos, (pageAt_zero b).symm⟩
  all_goals
    intro i hi
    obtain rfl : i = 0 := by omega
  case lookup =>
    have hvalid : valid (mapped pa perm 0) = true := valid_or_PTE_V _
    rw [pageAt_zero, lookup_setSlot_self h.pageTable hp hlt, if_pos hvalid]
  case lt => simpa using hlt

theorem pages_lt {N i : ℕ} (hN : N * 4096 < 2 ^ 64) (h : i ≤ N) : i * 4096 < 2 ^ 64 :=
  (Nat.mul_le_mul_right 4096 h).trans_lt hN

theorem MapFails.of_rest {N : ℕ} {pa perm : UInt64} (h : MappedTo s t root a pa perm 1) (ha : Aligned a)
    (hN : N * 4096 < 2 ^ 64) (hpos : N ≠ 0) {e : VmPanic} (he : MapFails t root (a + 4096) (N - 1) e) :
    MapFails s root a N e := by
  have hsucc : (a + 4096).toNat = a.toNat + 4096 := toNat_add_page (by simpa using h.lt 0 Nat.one_pos)
  cases e with
  | walk =>
    have he : MAXVA < (a + 4096).toNat + (N - 1) * 4096 := he
    show MAXVA < a.toNat + N * 4096
    omega
  | mappagesRemap =>
    obtain ⟨i, hi, hne⟩ := he
    refine ⟨i + 1, by omega, ?_⟩
    rw [← pageAt_succ, h.edited.lookup _ (aligned_pageAt ha _)] at hne
    · exact hne
    · rintro ⟨j, hj, heq⟩
      obtain rfl : j = 0 := by omega
      rw [pageAt_zero] at heq
      exact pageAt_ne_self (Nat.succ_ne_zero i) (pages_lt hN (by omega)) heq
  | _ => exact he

theorem mappagesLoop_spec {last pa perm : UInt64} {n N : ℕ} (h : s.PageTable root) (ha : Aligned a)
    (hn : MAXVA ≤ a.toNat + n * 4096) (hN : N * 4096 < 2 ^ 64) (hpos : N ≠ 0)
    (hlast : last = pageAt a (N - 1)) :
    Wp (mappagesLoop root last perm n a pa) (MapFails s root a N)
      (fun r t => ∃ k, MappedTo s t root a pa perm k ∧
        (r = 0 ∧ k = N ∨ r = -1 ∧ k < N ∧ t.freelist = [])) s := by
  induction n generalizing s a pa N with
  | zero =>
    rw [mappagesLoop, wp_throw]
    show MAXVA < a.toNat + N * 4096
    omega
  | succ n ih =>
    rw [mappagesLoop, wp_bind]
    rcases Nat.lt_or_ge a.toNat MAXVA with hlt | hge
    case inr =>
      rw [walk, if_pos hge, wp_throw]
      show MAXVA < a.toNat + N * 4096
      omega
    refine ((walk_true h hlt).mono_error fun _ => False.elim).mono ?_
    rintro o t ⟨hgrown, ho⟩
    cases o with
    | none => exact ⟨0, .zero hgrown.edited, .inr ⟨rfl, by omega, ho⟩⟩
    | some pte =>
      obtain ⟨p, j⟩ := pte
      obtain ⟨hp, rfl⟩ : t.node root (pathFrom a 2) = some p ∧ j = PX 0 a := ho
      have hlookup := (lookup_node hp hlt).symm.trans (hgrown.lookup a)
      have hone : MappedTo s (setSlot t p a (mapped pa perm 0)) root a pa perm 1 :=
        .one hgrown ha hlt hp
      have hset : { t with word := Radix.write t.word p (PX 0 a) (PA2PTE pa ||| perm ||| PTE_V) } =
          setSlot t p a (mapped pa perm 0) := by
        rw [setSlot, mapped, pageAt_zero]
      simp only [load, store, wp_bind, wp_get, wp_pure, wp_ite, wp_throw, wp_modify, hset]
      refine ⟨fun hv => ?_, fun hv => ⟨fun heq => ?_, fun hne => ?_⟩⟩
      · refine ⟨0, by omega, ?_⟩
        rw [pageAt_zero, ← hlookup, if_pos hv]
        exact Option.some_ne_none _
      · -- the last page
        have hN1 : N = 1 := by
          by_contra hN1
          exact pageAt_ne_self (i := N - 1) (by omega) (pages_lt hN (by omega)) (hlast.symm.trans heq.symm)
        exact ⟨1, hone, .inl ⟨trivial, hN1.symm⟩⟩
      · have hN1 : N ≠ 1 := by
          rintro rfl
          exact hne (hlast.trans (pageAt_zero a)).symm
        have hsucc := toNat_add_page hlt
        have hlast' : last = pageAt (a + 4096) (N - 1 - 1) := by
          rw [hlast, ← pageAt_succ, Nat.sub_add_cancel (by omega)]
        refine ((ih hone.edited.pageTable (aligned_add_page ha) (by omega) (pages_lt hN (Nat.sub_le N 1))
          (by omega) hlast').mono_error fun e he => he.of_rest hone ha hN hpos).mono ?_
        rintro r u ⟨k, hk, hr⟩
        refine ⟨k + 1, hone.cons ha hk, ?_⟩
        rcases hr with ⟨hr, rfl⟩ | ⟨hr, hkN, hfree⟩
        · exact .inl ⟨hr, by omega⟩
        · exact .inr ⟨hr, by omega, hfree⟩

theorem rounds_le (a : UInt64) : MAXVA ≤ a.toNat + MAXVA / PGSIZE * 4096 := by
  rw [show MAXVA / PGSIZE * 4096 = MAXVA from rfl]
  exact Nat.le_add_left ..

/-- What `mappages` does, given a range of pages. -/
theorem mappages_spec {size pa perm : UInt64} (h : s.PageTable root) (hva : Aligned va)
    (hsize : Aligned size) (h0 : size ≠ 0) :
    Wp (mappages root va size pa perm) (MapFails s root va (size.toNat / PGSIZE))
      (fun r t => ∃ k, MappedTo s t root va pa perm k ∧
        (r = 0 ∧ k = size.toNat / PGSIZE ∨ r = -1 ∧ k < size.toNat / PGSIZE ∧ t.freelist = [])) s := by
  obtain ⟨N, hN⟩ : ∃ N, size.toNat = N * 4096 := ⟨_, (Nat.div_mul_cancel (Nat.dvd_of_mod_eq_zero hsize)).symm⟩
  have hdiv : size.toNat / PGSIZE = N := by
    rw [hN]
    exact Nat.mul_div_cancel _ (by decide)
  have hpos : N ≠ 0 := by
    rintro rfl
    exact h0 (UInt64.toNat_inj.mp (by simpa using hN))
  have hlast : va + size - 4096 = pageAt va (N - 1) := by
    obtain ⟨M, rfl⟩ := Nat.exists_eq_succ_of_ne_zero hpos
    have hs : size = UInt64.ofNat (M * PGSIZE) + 4096 := by
      rw [← UInt64.ofNat_toNat (x := size), hN, Nat.succ_mul, UInt64.ofNat_add]
      rfl
    rw [hs, ← add_assoc, add_sub_cancel_right]
    rfl
  rw [hdiv]
  unfold mappages
  simp only [wp_bind, wp_ite, wp_throw]
  refine ⟨fun hn => absurd hva hn, fun _ => ⟨fun hn => absurd hsize hn, fun _ =>
    ⟨fun hn => absurd hn h0, fun _ => ?_⟩⟩⟩
  exact mappagesLoop_spec h hva (rounds_le va) (hN ▸ size.toNat_lt) hpos hlast

/-! ### Unmapping -/

/-- The pages that the addresses of `R` are mapped to. -/
def data (s : Phys) (root : UInt64) (R : UInt64 → Prop) : Set UInt64 :=
  {p | ∃ b e, Aligned b ∧ R b ∧ lookup s root b = some e ∧ PTE2PA e = p}

/-- The addresses of `R` are mapped to pages of their own. -/
structure Backed (s : Phys) (root : UInt64) (R : UInt64 → Prop) : Prop where
  injective : ∀ b b' e e', Aligned b → Aligned b' → R b → R b' → lookup s root b = some e →
    lookup s root b' = some e' → PTE2PA e = PTE2PA e' → b = b'
  isPage : ∀ p ∈ data s root R, s.IsPage p
  notTable : ∀ p ∈ data s root R, p ∉ s.tables root
  notFree : ∀ p ∈ data s root R, p ∉ s.freelist

/-- What `uvmunmap` frees. -/
def freed (s : Phys) (root : UInt64) (doFree : Bool) (R : UInt64 → Prop) : Set UInt64 :=
  if doFree then data s root R else ∅

/-- How `uvmunmap` can fail: a page of the range is past `MAXVA`, not mapped, or not a leaf. -/
def UnmapFails (s : Phys) (root : UInt64) (R : UInt64 → Prop) : VmPanic → Prop
  | .walk => ∃ b, R b ∧ MAXVA ≤ b.toNat
  | .uvmunmapWalk | .uvmunmapNotMapped => ∃ b, Aligned b ∧ R b ∧ lookup s root b = none
  | .uvmunmapNotLeaf => ∃ b e, Aligned b ∧ R b ∧ lookup s root b = some e ∧ PTE_FLAGS e = PTE_V
  | _ => False

/-- The pages of `R` have been unmapped. -/
structure Unmapped (s t : Phys) (root : UInt64) (doFree : Bool) (R : UInt64 → Prop) : Prop where
  moves : Moves s t (s.tables root ∪ freed s root doFree R) (t.tables root)
  pageTable : t.PageTable root
  inside : ∀ b, Aligned b → R b → lookup t root b = none
  outside : ∀ b, Aligned b → ¬ R b → lookup t root b = lookup s root b
  inner : s.Inner root → t.Inner root
  tables : t.tables root = s.tables root

/-- Unmapping one page takes its data page away. -/
theorem data_erase (hb : Backed s root R) (ha : Aligned a) (hRa : R a) (hla : lookup s root a = some e)
    (hlookup : ∀ b, Aligned b → b ≠ a → lookup u root b = lookup s root b)
    (hR : ∀ b, Aligned b → (R' b ↔ R b ∧ b ≠ a)) : data u root R' = data s root R \ {PTE2PA e} := by
  ext q
  constructor
  · rintro ⟨b, e', hab, hRb, hlb, rfl⟩
    obtain ⟨hRb, hne⟩ := (hR b hab).mp hRb
    rw [hlookup b hab hne] at hlb
    exact ⟨⟨b, e', hab, hRb, hlb, rfl⟩, fun heq => hne (hb.injective b a e' e hab ha hRb hRa hlb hla heq)⟩
  · rintro ⟨⟨b, e', hab, hRb, hlb, rfl⟩, hq⟩
    have hne : b ≠ a := by
      rintro rfl
      obtain rfl := Option.some.inj (hlb.symm.trans hla)
      exact hq rfl
    exact ⟨b, e', hab, (hR b hab).mpr ⟨hRb, hne⟩, (hlookup b hab hne).trans hlb, rfl⟩

/-- The memory after `kfree`. -/
def giveBack (s : Phys) (pa : UInt64) : Phys :=
  { s with
    word := update s.word pa fun _ => 0x0101010101010101
    freelist := pa :: s.freelist }

theorem kfree_spec (hp : s.IsPage p) : Wp (kfree p) (fun _ => False) (fun _ t => t = giveBack s p) s := by
  unfold kfree
  simp only [wp_bind, wp_get, wp_ite, wp_throw, memset, wp_modify]
  refine ⟨?_, fun _ => rfl⟩
  rintro (hn | hn | hn)
  · exact hn hp.aligned
  · exact absurd hp.le (UInt64.not_le.mpr hn)
  · exact absurd hp.lt (not_lt.mpr hn)

section GiveBack

variable {q : UInt64} (h : s.PageTable root) (hq : q ∉ s.tables root)

include h hq

omit h in
theorem word_giveBack (p : UInt64) (hp : p ∈ s.tables root) : (giveBack s q).word p = s.word p := by
  refine update_of_ne ?_ _ _
  rintro rfl
  exact hq hp

omit h in
theorem node_giveBack {π : List (Fin 512)} (hπ : π.length ≤ 3) :
    (giveBack s q).node root π = s.node root π :=
  Radix.node_frame (word_giveBack hq) hπ

omit h in
theorem tables_giveBack : (giveBack s q).tables root = s.tables root := Radix.nodes_frame (word_giveBack hq)

omit h in
theorem lookup_giveBack (va : UInt64) : lookup (giveBack s q) root va = lookup s root va :=
  lookup_frame (word_giveBack hq) va

theorem pageTable_giveBack (hpage : s.IsPage q) (hfree : q ∉ s.freelist) : (giveBack s q).PageTable root := by
  constructor
  case kmem =>
    refine ⟨List.nodup_cons.mpr ⟨hfree, h.kmem.nodup⟩, fun p hp => IsPage.of_kend (s := s) ?_ rfl⟩
    rcases List.mem_cons.mp hp with rfl | hp
    · exact hpage
    · exact h.kmem.isPage p hp
  case distinct => exact h.distinct.frame (word_giveBack hq)
  case isPage =>
    intro p hp
    rw [tables_giveBack hq] at hp
    exact (h.isPage p hp).of_kend rfl
  case disjoint =>
    intro p hp hpf
    rw [tables_giveBack hq] at hp
    rcases List.mem_cons.mp hpf with rfl | hpf
    · exact hq hp
    · exact h.disjoint p hp hpf

end GiveBack

/-- One page of the range has been unmapped, the others are left. -/
structure UnmappedOne (s u : Phys) (root : UInt64) (doFree : Bool) (R R' : UInt64 → Prop) (a : UInt64) :
    Prop where
  moves : Moves s u (s.tables root ∪ freed s root doFree R) (u.tables root ∪ freed u root doFree R')
  pageTable : u.PageTable root
  here : lookup u root a = none
  others : ∀ b, Aligned b → b ≠ a → lookup u root b = lookup s root b
  backed : doFree = true → Backed u root R'
  inner : s.Inner root → u.Inner root
  tables : u.tables root = s.tables root

section UnmapOne

variable (h : s.PageTable root) (hp : s.node root (pathFrom a 2) = some p) (ha : Aligned a)
  (hlt : a.toNat < MAXVA)

include h hp ha hlt

theorem unmapOne_keep : UnmappedOne s (setSlot s p a 0) root false R R' a := by
  have hedited := setSlot_edited (e := 0) h hp ha hlt
  constructor
  case moves =>
    have hf : ∀ s R, freed s root false R = ∅ := fun _ _ => rfl
    rw [hf, hf, Set.union_empty, Set.union_empty]
    exact hedited.moves
  case pageTable => exact hedited.pageTable
  case here => exact lookup_setSlot_self h hp hlt
  case others => exact hedited.lookup
  case backed => exact nofun
  case inner => exact hedited.inner
  case tables => exact tables_setSlot h hp

theorem unmapOne_free (hb : Backed s root R) (hRa : R a) (hla : lookup s root a = some e)
    (hR : ∀ b, Aligned b → (R' b ↔ R b ∧ b ≠ a)) :
    UnmappedOne s (setSlot (giveBack s (PTE2PA e)) p a 0) root true R R' a := by
  obtain ⟨q, hqe⟩ : ∃ q, q = PTE2PA e := ⟨_, rfl⟩
  have hqD : q ∈ data s root R := ⟨a, e, ha, hRa, hla, hqe.symm⟩
  have hqT := hb.notTable q hqD
  rw [← hqe]
  have hg := pageTable_giveBack h hqT (hb.isPage q hqD) (hb.notFree q hqD)
  have hpg : (giveBack s q).node root (pathFrom a 2) = some p := (node_giveBack hqT (length_pathFrom a 2).le.step).trans hp
  have hedited := setSlot_edited (e := 0) hg hpg ha hlt
  have hothers : ∀ b, Aligned b → b ≠ a →
      lookup (setSlot (giveBack s q) p a 0) root b = lookup s root b := by
    intro b hab hne
    rw [hedited.lookup b hab hne, lookup_giveBack hqT]
  have hdata : data (setSlot (giveBack s q) p a 0) root R' = data s root R \ {q} := by
    rw [data_erase hb ha hRa hla hothers hR, hqe]
  have htables : (setSlot (giveBack s q) p a 0).tables root = s.tables root := by
    rw [tables_setSlot hg hpg, tables_giveBack hqT]
  have hfreed : ∀ s R, freed s root true R = data s root R := fun _ _ => rfl
  constructor
  case moves =>
    rw [hfreed, hfreed, hdata]
    -- the page goes to the free list, and then the slot is cleared next to the other data pages
    have hown : ∀ x ∈ s.tables root ∪ data s root R, x ∉ s.freelist :=
      fun x hx => hx.elim (h.disjoint x) (hb.notFree x)
    have hsub : (s.tables root ∪ data s root R) \ {q} = s.tables root ∪ data s root R \ {q} := by
      rw [Set.union_sdiff_distrib, Set.sdiff_singleton_eq_self hqT]
    have hgive : Moves s (giveBack s q) (s.tables root ∪ data s root R)
        (s.tables root ∪ data s root R \ {q}) := by
      rw [← hsub]
      exact ⟨.give h.kmem.nodup hown (.inr hqD) fun x hx => update_of_ne hx _ _, rfl⟩
    have hclear := hedited.moves
    rw [tables_giveBack hqT] at hclear
    obtain ⟨hadd, -, -⟩ := hclear.toTransfer.add (F := data s root R \ {q})
      (fun x hx => hb.notTable x hx.1) (fun x hx => hgive.disjoint x (.inr hx))
    exact hgive.trans ⟨hadd, hclear.kend⟩
  case pageTable => exact hedited.pageTable
  case here => exact lookup_setSlot_self hg hpg hlt
  case others => exact hothers
  case inner => exact fun hi => hedited.inner (inner_frame (word_giveBack hqT) hi)
  case tables => exact htables
  case backed =>
    intro _
    constructor
    case injective =>
      intro b b' e₁ e₂ hab hab' hRb hRb' hlb hlb' heq
      obtain ⟨hRb, hne⟩ := (hR b hab).mp hRb
      obtain ⟨hRb', hne'⟩ := (hR b' hab').mp hRb'
      rw [hothers b hab hne] at hlb
      rw [hothers b' hab' hne'] at hlb'
      exact hb.injective b b' e₁ e₂ hab hab' hRb hRb' hlb hlb' heq
    all_goals
      intro x hx
      rw [hdata] at hx
    case isPage => exact (hb.isPage x hx.1).of_kend rfl
    case notTable =>
      rw [htables]
      exact hb.notTable x hx.1
    case notFree =>
      intro hxf
      rcases List.mem_cons.mp hxf with rfl | hxf
      · exact hx.2 rfl
      · exact hb.notFree x hx.1 hxf

end UnmapOne

/-- The addresses from `a` to `stop`. -/
def range (a stop : UInt64) (b : UInt64) : Prop := a ≤ b ∧ b < stop

theorem range_next {stop : UInt64} (ha : Aligned a) (hlt : a.toNat < MAXVA) {b : UInt64} (hb : Aligned b) :
    range (a + 4096) stop b ↔ range a stop b ∧ b ≠ a := by
  have hsucc := toNat_add_page hlt
  have ha : a.toNat % 4096 = 0 := ha
  have hb : b.toNat % 4096 = 0 := hb
  rw [range, range, ne_eq, ← UInt64.toNat_inj, UInt64.le_iff_toNat_le, UInt64.le_iff_toNat_le, hsucc]
  constructor
  · rintro ⟨hle, hstop⟩
    exact ⟨⟨by omega, hstop⟩, by omega⟩
  · rintro ⟨⟨hle, hstop⟩, hne⟩
    exact ⟨by omega, hstop⟩

theorem range_of_next {stop b : UInt64} (hlt : a.toNat < MAXVA) (h : range (a + 4096) stop b) :
    range a stop b := by
  have hsucc := toNat_add_page hlt
  have hle := UInt64.le_iff_toNat_le.mp h.1
  exact ⟨UInt64.le_iff_toNat_le.mpr (by omega), h.2⟩

theorem not_range {stop : UInt64} (h : ¬ a < stop) (b : UInt64) : ¬ range a stop b :=
  fun hb => h (UInt64.lt_of_le_of_lt hb.1 hb.2)

theorem Unmapped.nil {doFree : Bool} (h : s.PageTable root) (hR : ∀ b, ¬ R b) :
    Unmapped s s root doFree R := by
  have hfreed : freed s root doFree R = ∅ := by
    cases doFree
    · rfl
    · refine Set.eq_empty_of_forall_notMem ?_
      rintro q ⟨b, e, -, hRb, -⟩
      exact hR b hRb
  constructor
  case moves =>
    rw [hfreed, Set.union_empty]
    exact .refl h.kmem h.disjoint
  case pageTable => exact h
  case inside => exact fun b _ hRb => absurd hRb (hR b)
  case outside => exact fun _ _ _ => rfl
  case inner => exact id
  case tables => rfl

theorem Unmapped.cons {doFree : Bool} (h : UnmappedOne s u root doFree R R' a)
    (h' : Unmapped u t root doFree R') (hRa : R a) (hR : ∀ b, Aligned b → (R' b ↔ R b ∧ b ≠ a)) :
    Unmapped s t root doFree R := by
  constructor
  case moves => exact h.moves.trans h'.moves
  case pageTable => exact h'.pageTable
  case inner => exact fun hi => h'.inner (h.inner hi)
  case tables => exact h'.tables.trans h.tables
  case inside =>
    intro b hb hRb
    rcases eq_or_ne b a with rfl | hne
    · rw [h'.outside b hb fun hRb' => ((hR b hb).mp hRb').2 rfl, h.here]
    · exact h'.inside b hb ((hR b hb).mpr ⟨hRb, hne⟩)
  case outside =>
    intro b hb hRb
    have hne : b ≠ a := by
      rintro rfl
      exact hRb hRa
    rw [h'.outside b hb fun hRb' => hRb ((hR b hb).mp hRb').1, h.others b hb hne]

theorem UnmapFails.of_rest {doFree : Bool} (h : UnmappedOne s u root doFree R R' a)
    (hR : ∀ b, R' b → R b) (hR' : ∀ b, Aligned b → R' b → b ≠ a) {x : VmPanic}
    (hx : UnmapFails u root R' x) : UnmapFails s root R x := by
  cases x with
  | walk =>
    obtain ⟨b, hRb, hle⟩ := hx
    exact ⟨b, hR b hRb, hle⟩
  | uvmunmapWalk | uvmunmapNotMapped =>
    obtain ⟨b, hb, hRb, hl⟩ := hx
    exact ⟨b, hb, hR b hRb, (h.others b hb (hR' b hb hRb)).symm.trans hl⟩
  | uvmunmapNotLeaf =>
    obtain ⟨b, e, hb, hRb, hl, hf⟩ := hx
    exact ⟨b, e, hb, hR b hRb, (h.others b hb (hR' b hb hRb)).symm.trans hl, hf⟩
  | _ => exact hx

theorem uvmunmapLoop_spec {stop : UInt64} {doFree : Bool} {n : ℕ} (h : s.PageTable root) (ha : Aligned a)
    (hn : MAXVA ≤ a.toNat + n * 4096) (hb : doFree = true → Backed s root (range a stop)) :
    Wp (uvmunmapLoop root stop doFree n a) (UnmapFails s root (range a stop))
      (fun _ t => Unmapped s t root doFree (range a stop)) s := by
  induction n generalizing s a with
  | zero =>
    rw [uvmunmapLoop, wp_ite]
    exact ⟨fun hstop => ⟨a, ⟨UInt64.le_refl a, hstop⟩, by omega⟩, fun hstop => .nil h (not_range hstop)⟩
  | succ n ih =>
    rw [uvmunmapLoop, wp_ite]
    refine ⟨fun hstop => ?_, fun hstop => .nil h (not_range hstop)⟩
    have hRa : range a stop a := ⟨UInt64.le_refl a, hstop⟩
    rcases Nat.lt_or_ge a.toNat MAXVA with hlt | hge
    case inr =>
      rw [wp_bind, walk, if_pos hge, wp_throw]
      exact ⟨a, hRa, hge⟩
    have hR : ∀ b, Aligned b → (range (a + 4096) stop b ↔ range a stop b ∧ b ≠ a) :=
      fun b => range_next ha hlt
    have hsucc := toNat_add_page hlt
    have hrest : ∀ u, UnmappedOne s u root doFree (range a stop) (range (a + 4096) stop) a →
        Wp (uvmunmapLoop root stop doFree n (a + 4096)) (UnmapFails s root (range a stop))
          (fun _ t => Unmapped s t root doFree (range a stop)) u := by
      intro u hu
      have hloop := ih hu.pageTable (aligned_add_page ha) (by omega) hu.backed
      refine (hloop.mono_error fun x hx => ?_).mono fun _ t ht => .cons hu ht hRa hR
      exact hx.of_rest hu (fun b => range_of_next hlt) fun b hb hRb => ((hR b hb).mp hRb).2
    rw [wp_bind, wp_walk_false hlt]
    cases hp : s.node root (pathFrom a 2) with
    | none => exact ⟨a, ha, hRa, lookup_none hp⟩
    | some p =>
      have hlookup := lookup_node hp hlt
      simp only [Option.map_some, load, store, wp_bind, wp_get, wp_pure, wp_ite, wp_throw, wp_modify,
        Bool.not_eq_true']
      refine ⟨fun hv => ?_, fun hv => ⟨fun hf => ?_, fun hf => ⟨?_, ?_⟩⟩⟩
      · rw [hv] at hlookup
        exact ⟨a, ha, hRa, hlookup⟩
      all_goals rw [if_pos (by simpa using hv)] at hlookup
      · exact ⟨a, _, ha, hRa, hlookup, hf⟩
      · rintro rfl
        have hpage := (hb rfl).isPage _ ⟨a, _, ha, hRa, hlookup, rfl⟩
        refine ((kfree_spec hpage).mono_error fun _ => False.elim).mono ?_
        rintro _ _ rfl
        exact hrest _ (unmapOne_free h hp ha hlt (hb rfl) hRa hlookup hR)
      · intro hfree
        obtain rfl : doFree = false := by simpa using hfree
        exact hrest _ (unmapOne_keep h hp ha hlt)

/-- What `uvmunmap` does. -/
theorem uvmunmap_spec {npages : UInt64} {doFree : Bool} (h : s.PageTable root) (hva : Aligned va)
    (hb : doFree = true → Backed s root (range va (va + npages * 4096))) :
    Wp (uvmunmap root va npages doFree) (UnmapFails s root (range va (va + npages * 4096)))
      (fun _ t => Unmapped s t root doFree (range va (va + npages * 4096))) s := by
  unfold uvmunmap
  simp only [wp_bind, wp_ite, wp_throw]
  exact ⟨fun hn => absurd hva hn, fun _ => uvmunmapLoop_spec h hva (rounds_le va) hb⟩

/-! ### The page table as a map -/

theorem walk_injective (h : s.PageTable root) {va va' : UInt64} {pte : PteAddr} (ha : Aligned va)
    (ha' : Aligned va') (hlt : va.toNat < MAXVA) (hlt' : va'.toNat < MAXVA)
    (hw : walk root va false s = .ok (some pte, s)) (hw' : walk root va' false s = .ok (some pte, s)) :
    va = va' := by
  have hslot : ∀ {a : UInt64}, a.toNat < MAXVA → walk root a false s = .ok (some pte, s) →
      s.node root (pathFrom a 2) = some pte.page ∧ PX 0 a = pte.index := by
    intro a hlt hw
    rw [walk_false s root hlt] at hw
    obtain ⟨p, hp, rfl⟩ := Option.map_eq_some_iff.mp (congrArg Prod.fst (Except.ok.inj hw))
    exact ⟨hp, rfl⟩
  obtain ⟨hp, hi⟩ := hslot hlt hw
  obtain ⟨hp', hi'⟩ := hslot hlt' hw'
  exact slot_injective h ha ha' hlt hlt' hp hp' (hi.trans hi'.symm)

/-- `mappages` does not get past its checks. -/
theorem mappages_checks {size pa perm : UInt64} {r : Int} (hr : mappages root va size pa perm s = .ok (r, t)) :
    Aligned va ∧ Aligned size ∧ size ≠ 0 := by
  have hspec : Wp (mappages root va size pa perm) (fun _ => True)
      (fun _ _ => Aligned va ∧ Aligned size ∧ size ≠ 0) s := by
    unfold mappages
    simp only [wp_bind, wp_ite, wp_throw, implies_true, true_and]
    intro hva hsize h0
    exact (Wp.trivial (x := mappagesLoop root _ perm _ va pa)).mono fun _ _ _ =>
      ⟨not_not.mp hva, not_not.mp hsize, h0⟩
  exact hspec.ok hr

/-- The lookups after `mappages`. -/
theorem mappages_lookup {size pa perm : UInt64} {r : Int} (h : s.PageTable root)
    (hr : mappages root va size pa perm s = .ok (r, t)) :
    t.PageTable root ∧
    (∀ b, Aligned b → (∀ i < size.toNat / PGSIZE, b ≠ pageAt va i) → lookup t root b = lookup s root b) ∧
    (r = 0 ∧ (∀ i < size.toNat / PGSIZE, lookup t root (pageAt va i) =
      some (PA2PTE (pageAt pa i) ||| perm ||| PTE_V)) ∨ r = -1 ∧ t.freelist = []) := by
  obtain ⟨hva, hsize, h0⟩ := mappages_checks hr
  obtain ⟨k, hk, hres⟩ := (mappages_spec h hva hsize h0).ok hr
  have hle : k ≤ size.toNat / PGSIZE := by
    rcases hres with ⟨-, rfl⟩ | ⟨-, hlt, -⟩
    · exact le_rfl
    · exact hlt.le
  refine ⟨hk.edited.pageTable, ?_, ?_⟩
  · intro b hb hout
    refine hk.edited.lookup b hb ?_
    rintro ⟨i, hi, rfl⟩
    exact hout i (hi.trans_le hle) rfl
  · rcases hres with ⟨hr0, rfl⟩ | ⟨hr1, -, hfree⟩
    · exact .inl ⟨hr0, hk.lookup⟩
    · exact .inr ⟨hr1, hfree⟩

/-- `mappages` returns if its pages are below `MAXVA` and not mapped. -/
theorem mappages_returns {size : UInt64} (pa perm : UInt64) (h : s.PageTable root) (hva : Aligned va)
    (hsize : Aligned size) (h0 : size ≠ 0) (hle : va.toNat + size.toNat ≤ MAXVA)
    (hnone : ∀ i < size.toNat / PGSIZE, lookup s root (pageAt va i) = none) :
    ∃ r t, mappages root va size pa perm s = .ok (r, t) := by
  have hok : ∀ e, ¬ MapFails s root va (size.toNat / PGSIZE) e := by
    intro e he
    cases e with
    | walk =>
      have he : MAXVA < va.toNat + size.toNat / 4096 * 4096 := he
      have := Nat.div_mul_le_self size.toNat 4096
      omega
    | mappagesRemap =>
      obtain ⟨i, hi, hne⟩ := he
      exact hne (hnone i hi)
    | _ => exact he
  obtain ⟨r, t, hrt, -⟩ := (mappages_spec h hva hsize h0).returns hok
  exact ⟨r, t, hrt⟩

theorem uvmunmap_aligned {npages : UInt64} {doFree : Bool}
    (hr : uvmunmap root va npages doFree s = .ok ((), t)) : Aligned va := by
  have hspec : Wp (uvmunmap root va npages doFree) (fun _ => True) (fun _ _ => Aligned va) s := by
    unfold uvmunmap
    simp only [wp_bind, wp_ite, wp_throw, implies_true, true_and]
    intro hva
    exact (Wp.trivial (x := uvmunmapLoop root _ doFree _ va)).mono fun _ _ _ => not_not.mp hva
  exact hspec.ok hr

/-- `uvmunmap` returns if its pages are below `MAXVA` and mapped. -/
theorem uvmunmap_returns {npages : UInt64} {doFree : Bool} (h : s.PageTable root) (hva : Aligned va)
    (hb : doFree = true → Backed s root (range va (va + npages * 4096)))
    (hle : (va + npages * 4096).toNat ≤ MAXVA)
    (hsome : ∀ b, Aligned b → range va (va + npages * 4096) b →
      ∃ e, lookup s root b = some e ∧ PTE_FLAGS e ≠ PTE_V) :
    ∃ t, uvmunmap root va npages doFree s = .ok ((), t) := by
  have hok : ∀ x, ¬ UnmapFails s root (range va (va + npages * 4096)) x := by
    intro x hx
    cases x with
    | walk =>
      obtain ⟨b, hRb, hbm⟩ := hx
      have := UInt64.lt_iff_toNat_lt.mp hRb.2
      omega
    | uvmunmapWalk | uvmunmapNotMapped =>
      obtain ⟨b, hab, hRb, hl⟩ := hx
      obtain ⟨e, he, -⟩ := hsome b hab hRb
      cases hl.symm.trans he
    | uvmunmapNotLeaf =>
      obtain ⟨b, e, hab, hRb, hl, hf⟩ := hx
      obtain ⟨e', he', hf'⟩ := hsome b hab hRb
      obtain rfl := Option.some.inj (hl.symm.trans he')
      exact hf' hf
    | _ => exact hx
  obtain ⟨_, t, hrt, -⟩ := (uvmunmap_spec h hva hb).returns hok
  exact ⟨t, hrt⟩

/-- A new page table is well formed and empty. -/
theorem uvmcreate_spec (hk : s.Kmem) :
    Wp uvmcreate (fun _ => False)
      (fun o t => ∀ root, o = some root → t.PageTable root ∧ ∀ va, lookup t root va = none) s := by
  unfold uvmcreate kalloc
  simp only [wp_bind, wp_get]
  cases hfree : s.freelist with
  | nil => exact nofun
  | cons c l =>
    simp only [memset, wp_bind, wp_set, wp_modify, wp_pure, update_idem]
    rintro c ⟨⟩
    obtain ⟨t, ht⟩ : ∃ t : Phys, t = { s with
      word := update s.word c fun _ => 0, freelist := l } := ⟨_, rfl⟩
    rw [← ht]
    have hc : s.IsPage c := hk.isPage c (hfree ▸ List.mem_cons_self)
    have hnodup : c ∉ l ∧ l.Nodup := List.nodup_cons.mp (hfree ▸ hk.nodup)
    have hword : ∀ j, t.word c j = 0 := by
      intro j
      rw [ht]
      dsimp only
      rw [update_self]
    have hempty : ∀ j, child (t.word c j) = none := by
      intro j
      rw [hword]
      exact child_zero
    have hkend : t.kend = s.kend := by rw [ht]
    have hl : t.freelist = l := by rw [ht]
    constructor
    · constructor
      case kmem =>
        refine ⟨hl ▸ hnodup.2, fun p hp => (hk.isPage p ?_).of_kend hkend⟩
        rw [hfree, ← hl]
        exact List.mem_cons_of_mem _ hp
      case distinct => exact .of_empty hempty
      case isPage =>
        intro p hp
        obtain rfl := Radix.nodes_of_empty hempty hp
        exact hc.of_kend hkend
      case disjoint =>
        intro p hp
        obtain rfl := Radix.nodes_of_empty hempty hp
        rw [hl]
        exact hnodup.1
    · intro va
      refine lookup_none ?_
      rw [pathFrom, Phys.node, Radix.node, hempty, Option.bind_none]

/-- A page table is a map from pages to entries. For every tree of distinct page-table pages: different
addresses have different slots; `mappages` and `uvmunmap` return when they can, leave a tree, map and
unmap the pages they were asked to, and leave the lookups of all others as they are, also when memory
runs out half way; and an entry gives back what was stored. The pages that `uvmunmap` frees, if asked
to, must not be page-table pages themselves. -/
theorem page_table_is_map (h : s.PageTable root) :
    (∀ va va' pte, Aligned va → Aligned va' → va.toNat < MAXVA → va'.toNat < MAXVA →
      walk root va false s = .ok (some pte, s) → walk root va' false s = .ok (some pte, s) → va = va') ∧
    (∀ va size pa perm r t, mappages root va size pa perm s = .ok (r, t) →
      t.PageTable root ∧
      (∀ b, Aligned b → (∀ i < size.toNat / PGSIZE, b ≠ pageAt va i) → lookup t root b = lookup s root b) ∧
      (r = 0 ∧ (∀ i < size.toNat / PGSIZE, lookup t root (pageAt va i) =
        some (PA2PTE (pageAt pa i) ||| perm ||| PTE_V)) ∨ r = -1 ∧ t.freelist = [])) ∧
    (∀ va size pa perm, Aligned va → Aligned size → size ≠ 0 → va.toNat + size.toNat ≤ MAXVA →
      (∀ i < size.toNat / PGSIZE, lookup s root (pageAt va i) = none) →
      ∃ r t, mappages root va size pa perm s = .ok (r, t)) ∧
    (∀ va npages doFree t, (doFree = true → Backed s root (range va (va + npages * 4096))) →
      uvmunmap root va npages doFree s = .ok ((), t) →
      t.PageTable root ∧
      (∀ b, Aligned b → range va (va + npages * 4096) b → lookup t root b = none) ∧
      ∀ b, Aligned b → ¬ range va (va + npages * 4096) b → lookup t root b = lookup s root b) ∧
    (∀ va npages doFree, Aligned va → (va + npages * 4096).toNat ≤ MAXVA →
      (doFree = true → Backed s root (range va (va + npages * 4096))) →
      (∀ b, Aligned b → range va (va + npages * 4096) b →
        ∃ e, lookup s root b = some e ∧ PTE_FLAGS e ≠ PTE_V) →
      ∃ t, uvmunmap root va npages doFree s = .ok ((), t)) ∧
    ∀ pa perm : UInt64, Aligned pa → pa.toNat < 2 ^ 56 → perm.toNat < 2 ^ 10 →
      PTE2PA (PA2PTE pa ||| perm ||| PTE_V) = pa ∧
      PTE_FLAGS (PA2PTE pa ||| perm ||| PTE_V) = perm ||| PTE_V := by
  refine ⟨fun va va' pte ha ha' hlt hlt' => walk_injective h ha ha' hlt hlt',
    fun va size pa perm r t => mappages_lookup h,
    fun va size pa perm hva hsize h0 hle => mappages_returns pa perm h hva hsize h0 hle, ?_,
    fun va npages doFree hva hle hb => uvmunmap_returns h hva hb hle, ?_⟩
  · intro va npages doFree t hb hr
    have ht := (uvmunmap_spec h (uvmunmap_aligned hr) hb).ok hr
    exact ⟨ht.pageTable, ht.inside, ht.outside⟩
  · intro pa perm ha hlt hperm
    have hflags : (perm ||| PTE_V).toNat < 2 ^ 10 := by
      rw [UInt64.toNat_or]
      exact Nat.or_lt_two_pow hperm (by decide)
    rw [UInt64.or_assoc]
    exact ⟨PTE2PA_PA2PTE_or ha hlt hflags, PTE_FLAGS_PA2PTE_or hlt hflags⟩

/-- A memory with four free pages. -/
def fourPages : Phys where
  word := fun _ _ => 0
  freelist := [0x80008000, 0x80009000, 0x8000a000, 0x8000b000]
  kend := 0x80008000

theorem fourPages_kmem : fourPages.Kmem := by
  constructor
  case nodup => decide
  case isPage =>
    intro p hp
    simp only [fourPages, List.mem_cons, List.not_mem_nil, or_false] at hp
    rcases hp with rfl | rfl | rfl | rfl <;> exact ⟨by decide, by decide, by decide⟩

/-- A page is mapped into a new page table, and unmapped. -/
theorem page_table_is_map_page : ∃ root t u v, uvmcreate fourPages = .ok (some root, t) ∧
    mappages root 0x5000 4096 0x87000000 (PTE_R ||| PTE_U) t = .ok (0, u) ∧
    lookup u root 0x5000 = some (PA2PTE 0x87000000 ||| (PTE_R ||| PTE_U) ||| PTE_V) ∧
    uvmunmap root 0x5000 1 false u = .ok ((), v) ∧ lookup v root 0x5000 = none := by
  have hrun : ((uvmcreate fourPages).toOption.any fun a => a.1.any fun root =>
      (mappages root 0x5000 4096 0x87000000 (PTE_R ||| PTE_U) a.2).toOption.any fun b =>
        b.1 == 0 && (uvmunmap root 0x5000 1 false b.2).isOk) = true := by decide +kernel
  cases ht : uvmcreate fourPages with
  | error e =>
    rw [ht] at hrun
    cases hrun
  | ok a =>
    obtain ⟨_ | root, t⟩ := a <;> rw [ht] at hrun
    · cases hrun
    replace hrun : ((mappages root 0x5000 4096 0x87000000 (PTE_R ||| PTE_U) t).toOption.any fun b =>
      b.1 == 0 && (uvmunmap root 0x5000 1 false b.2).isOk) = true := hrun
    cases hu : mappages root 0x5000 4096 0x87000000 (PTE_R ||| PTE_U) t with
    | error e =>
      rw [hu] at hrun
      cases hrun
    | ok b =>
      obtain ⟨r, u⟩ := b
      rw [hu] at hrun
      replace hrun : (r == 0 && (uvmunmap root 0x5000 1 false u).isOk) = true := hrun
      rw [Bool.and_eq_true, beq_iff_eq] at hrun
      obtain ⟨rfl, hok⟩ := hrun
      have hroot : t.PageTable root := ((uvmcreate_spec fourPages_kmem).ok ht root rfl).1
      obtain ⟨-, hmap, -⟩ := page_table_is_map hroot
      obtain ⟨hroot', -, hres⟩ := hmap _ _ _ _ _ _ hu
      obtain ⟨-, -, -, hunmap, -⟩ := page_table_is_map hroot'
      cases hv : uvmunmap root 0x5000 1 false u with
      | error e =>
        rw [hv] at hok
        cases hok
      | ok res =>
        obtain ⟨⟨⟩, v⟩ := res
        obtain ⟨-, hnone, -⟩ := hunmap _ _ false v (by simp) hv
        rcases hres with ⟨-, hsome⟩ | ⟨hr, -⟩
        · have hpage := hsome 0 (by decide)
          rw [pageAt_zero, pageAt_zero] at hpage
          exact ⟨root, t, u, v, rfl, hu, hpage, hv, hnone _ (by decide) ⟨by decide, by decide⟩⟩
        · cases hr

end Vm

end Xv6
