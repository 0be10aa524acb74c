import Xv6.Vm.Map
import Xv6.Vm.User

/-! # Address spaces

The user memory of a process is its first `N` pages, each in a physical page of its own; the other addresses
look up to what `X` says. The process owns the pages of its page table and of its memory. Adding the next page
and removing the last ones keep an address space, at nobody else's cost, and whatever does not touch the pages
it owns leaves it as it is. -/

namespace Xv6

open Function

open Phys

namespace Vm

variable {s t u : Phys} {root c e perm a b : UInt64} {N N' M K i : ℕ} {X : UInt64 → Option UInt64}
  {A B F : Set UInt64} {R R' : UInt64 → Prop} {l : List UInt64}

/-! ### Pages of addresses -/

/-- The address of page `i`. -/
def pageAddr (i : ℕ) : UInt64 := UInt64.ofNat (i * 4096)

theorem toNat_pageAddr (h : i * 4096 < 2 ^ 64) : (pageAddr i).toNat = i * 4096 := by
  rw [pageAddr, UInt64.toNat_ofNat', Nat.mod_eq_of_lt h]

theorem aligned_pageAddr (i : ℕ) : Aligned (pageAddr i) := by
  have h : (pageAddr i).toNat % 4096 = 0 := by
    rw [pageAddr, UInt64.toNat_ofNat']
    omega
  exact h

/-- The addresses of the first `N` pages. -/
def below (N : ℕ) (b : UInt64) : Prop := b.toNat < N * 4096

theorem below.mono (h : below N b) (hle : N ≤ M) : below M b :=
  lt_of_lt_of_le h (Nat.mul_le_mul_right _ hle)

theorem not_below_zero (b : UInt64) : ¬ below 0 b := by
  rw [below, Nat.zero_mul]
  exact Nat.not_lt_zero _

/-- There is one address in a page. -/
theorem eq_of_below (hb : Aligned b) (hM : M * 4096 ≤ 0x88000000) (hge : ¬ below M b) (hlt : below (M + 1) b) :
    b = pageAddr M := by
  have hb : b.toNat % 4096 = 0 := hb
  have hge : ¬ b.toNat < M * 4096 := hge
  have hlt : b.toNat < (M + 1) * 4096 := hlt
  apply UInt64.toNat_inj.mp
  rw [toNat_pageAddr (by omega)]
  omega

/-! ### Ownership -/

theorem moves_add (h : Moves s t A B) (hA : ∀ q ∈ F, q ∉ A) (hf : ∀ q ∈ F, q ∉ s.freelist) :
    Moves s t (A ∪ F) (B ∪ F) ∧ (∀ q ∈ F, t.word q = s.word q) ∧ ∀ q ∈ F, q ∉ B := by
  obtain ⟨hadd, hword, hB⟩ := h.toTransfer.add hA hf
  exact ⟨⟨hadd, h.kend⟩, hword, hB⟩

theorem mem_data {q : UInt64} :
    q ∈ data s root R ↔ ∃ b, Aligned b ∧ R b ∧ (lookup s root b).map PTE2PA = some q := by
  constructor
  · rintro ⟨b, e, hb, hR, hl, rfl⟩
    exact ⟨b, hb, hR, by rw [hl]; rfl⟩
  · rintro ⟨b, hb, hR, hq⟩
    obtain ⟨e, he, rfl⟩ := Option.map_eq_some_iff.mp hq
    exact ⟨b, e, hb, hR, he, rfl⟩

/-- Pages that stay where they are mapped, whatever the entries permit. -/
theorem data_congr_pa
    (h : ∀ b, Aligned b → R b → (lookup t root b).map PTE2PA = (lookup s root b).map PTE2PA) :
    data t root R = data s root R := by
  ext q
  rw [mem_data, mem_data]
  refine exists_congr fun b => and_congr_right fun hb => and_congr_right fun hR => ?_
  rw [h b hb hR]

theorem data_congr (h : ∀ b, Aligned b → R b → lookup t root b = lookup s root b) :
    data t root R = data s root R :=
  data_congr_pa fun b hb hR => by rw [h b hb hR]

/-- The pages stay where they are mapped, and stay the memory's own. -/
theorem Backed.transfer (h : Backed s root R)
    (hpa : ∀ b, Aligned b → R b → (lookup t root b).map PTE2PA = (lookup s root b).map PTE2PA)
    (hkend : t.kend = s.kend) (htable : ∀ q ∈ data s root R, q ∉ t.tables root)
    (hfree : ∀ q ∈ data s root R, q ∉ t.freelist) : Backed t root R := by
  have hdata := data_congr_pa hpa
  have hentry : ∀ b e, Aligned b → R b → lookup t root b = some e →
      ∃ e', lookup s root b = some e' ∧ PTE2PA e' = PTE2PA e := by
    intro b e hb hR he
    have heq := hpa b hb hR
    rw [he] at heq
    exact Option.map_eq_some_iff.mp heq.symm
  constructor
  case injective =>
    intro b b' e e' hb hb' hR hR' he he' heq
    obtain ⟨e₁, he₁, hpa₁⟩ := hentry b e hb hR he
    obtain ⟨e₂, he₂, hpa₂⟩ := hentry b' e' hb' hR' he'
    exact h.injective b b' e₁ e₂ hb hb' hR hR' he₁ he₂ (by rw [hpa₁, hpa₂, heq])
  all_goals
    intro q hq
    rw [hdata] at hq
  case isPage => exact (h.isPage q hq).of_kend hkend
  case notTable => exact htable q hq
  case notFree => exact hfree q hq

theorem data_mono (h : ∀ b, R b → R' b) : data s root R ⊆ data s root R' := by
  rintro q ⟨b, e, hb, hR, hl, rfl⟩
  exact ⟨b, e, hb, h b hR, hl, rfl⟩

theorem Backed.mono (h : Backed s root R) (hR : ∀ b, R' b → R b) : Backed s root R' where
  injective := fun b b' e e' hb hb' hRb hRb' => h.injective b b' e e' hb hb' (hR b hRb) (hR b' hRb')
  isPage := fun p hp => h.isPage p (data_mono hR hp)
  notTable := fun p hp => h.notTable p (data_mono hR hp)
  notFree := fun p hp => h.notFree p (data_mono hR hp)

/-- The pages of a page table and of the first `N` pages of memory. -/
def owned (s : Phys) (root : UInt64) (N : ℕ) : Set UInt64 := s.tables root ∪ data s root (below N)

theorem owned_zero (s : Phys) (root : UInt64) : owned s root 0 = s.tables root := by
  have hdata : data s root (below 0) = ∅ := by
    refine Set.eq_empty_of_forall_notMem ?_
    rintro q ⟨b, e, -, hb, -⟩
    exact not_below_zero b hb
  rw [owned, hdata, Set.union_empty]

/-- An entry that grants something. -/
def Leaf (e : UInt64) : Prop := e &&& (PTE_R ||| PTE_W ||| PTE_X) ≠ 0

instance (e : UInt64) : Decidable (Leaf e) := inferInstanceAs (Decidable (_ ≠ _))

theorem Leaf.flags_ne (h : Leaf e) : PTE_FLAGS e ≠ PTE_V := by
  intro heq
  rw [Leaf, perms_eq, heq] at h
  exact h rfl

/-- Memory of `N` pages, with `X` above it. -/
structure Space (s : Phys) (root : UInt64) (N : ℕ) (X : UInt64 → Option UInt64) : Prop where
  pageTable : s.PageTable root
  inner : s.Inner root
  user : ∀ b, Aligned b → below N b → ∃ e, lookup s root b = some e ∧ Leaf e
  other : ∀ b, Aligned b → ¬ below N b → lookup s root b = X b
  backed : Backed s root (below N)

/-- What is above the memory begins with the trapframe. -/
def Above (X : UInt64 → Option UInt64) : Prop := ∀ b : UInt64, b < TRAPFRAME → X b = none

theorem Space.notFree (h : Space s root N X) : ∀ q ∈ owned s root N, q ∉ s.freelist := by
  rintro q (hq | hq)
  exacts [h.pageTable.disjoint q hq, h.backed.notFree q hq]

theorem Space.isPage (h : Space s root N X) : ∀ q ∈ owned s root N, s.IsPage q := by
  rintro q (hq | hq)
  exacts [h.pageTable.isPage q hq, h.backed.isPage q hq]

/-- There are no more pages of memory than there are physical pages. -/
theorem Space.pages_le (h : Space s root N X) : N ≤ PHYSTOP / PGSIZE := by
  have hmax : N * 4096 ≤ MAXVA := by
    by_contra hgt
    have hva : (UInt64.ofNat MAXVA).toNat = MAXVA := rfl
    obtain ⟨e, he, -⟩ := h.user (UInt64.ofNat MAXVA) (by decide) (by rw [below, hva]; omega)
    rw [lookup_of_le s root hva.ge] at he
    cases he
  rw [MAXVA_eq] at hmax
  -- the physical page of page `i`, as a number
  let frame (i : ℕ) : ℕ := (((lookup s root (pageAddr i)).map PTE2PA).getD 0).toNat / 4096
  have hframe : ∀ i < N, ∃ e, lookup s root (pageAddr i) = some e ∧ frame i = (PTE2PA e).toNat / 4096 ∧
      s.IsPage (PTE2PA e) ∧ below N (pageAddr i) := by
    intro i hi
    have hbelow : below N (pageAddr i) := by
      rw [below, toNat_pageAddr (by omega)]
      omega
    obtain ⟨e, he, -⟩ := h.user _ (aligned_pageAddr i) hbelow
    refine ⟨e, he, ?_, h.backed.isPage _ ⟨_, e, aligned_pageAddr i, hbelow, he, rfl⟩, hbelow⟩
    show (((lookup s root (pageAddr i)).map PTE2PA).getD 0).toNat / 4096 = _
    rw [he]
    rfl
  have hcard : (Finset.range N).card ≤ (Finset.range (PHYSTOP / PGSIZE)).card := by
    refine Finset.card_le_card_of_injOn frame ?_ ?_
    · intro i hi
      obtain ⟨e, -, hf, hpage, -⟩ := hframe i (Finset.mem_range.mp hi)
      have hlt := hpage.lt
      rw [Finset.coe_range, Set.mem_Iio, hf]
      rw [show PHYSTOP = 0x88000000 from rfl] at hlt
      rw [show PHYSTOP / PGSIZE = 0x88000 from rfl]
      omega
    · intro i hi j hj hij
      obtain ⟨e, he, hf, hpage, hbi⟩ := hframe i (Finset.mem_range.mp hi)
      obtain ⟨e', he', hf', hpage', hbj⟩ := hframe j (Finset.mem_range.mp hj)
      have halign : (PTE2PA e).toNat % 4096 = 0 := hpage.aligned
      have halign' : (PTE2PA e').toNat % 4096 = 0 := hpage'.aligned
      have hpa : PTE2PA e = PTE2PA e' := by
        apply UInt64.toNat_inj.mp
        rw [hf, hf'] at hij
        omega
      have hb := h.backed.injective _ _ e e' (aligned_pageAddr i) (aligned_pageAddr j) hbi hbj he he' hpa
      have hb := congrArg UInt64.toNat hb
      have hi := Finset.mem_range.mp hi
      have hj := Finset.mem_range.mp hj
      rw [toNat_pageAddr (by omega), toNat_pageAddr (by omega)] at hb
      omega
  rwa [Finset.card_range, Finset.card_range] at hcard

/-- Nothing is lost in numbers of addresses. -/
theorem Space.lt (h : Space s root N X) : N * 4096 ≤ 0x88000000 := by
  have hle := h.pages_le
  rw [show PHYSTOP / PGSIZE = 0x88000 from rfl] at hle
  omega

/-! ### Frames -/

/-- The first `N` pages are mapped. -/
structure Maps (s : Phys) (root : UInt64) (N : ℕ) : Prop where
  pageTable : s.PageTable root
  user : ∀ b, Aligned b → below N b → ∃ e, lookup s root b = some e ∧ Leaf e
  notFree : ∀ q ∈ owned s root N, q ∉ s.freelist

theorem Space.maps (h : Space s root N X) : Maps s root N := ⟨h.pageTable, h.user, h.notFree⟩

/-- A page table and the pages it maps are as they were. -/
structure Kept (s t : Phys) (root : UInt64) (N : ℕ) : Prop where
  maps : Maps t root N
  lookup : ∀ b, lookup t root b = lookup s root b
  tables : t.tables root = s.tables root
  owned : owned t root N = owned s root N
  word : ∀ q ∈ Vm.owned s root N, t.word q = s.word q

theorem Kept.refl (h : Maps s root N) : Kept s s root N :=
  ⟨h, fun _ => rfl, rfl, rfl, fun _ _ => rfl⟩

theorem Kept.trans (h : Kept s t root N) (h' : Kept t u root N) : Kept s u root N where
  maps := h'.maps
  lookup := fun b => (h'.lookup b).trans (h.lookup b)
  tables := h'.tables.trans h.tables
  owned := h'.owned.trans h.owned
  word := fun q hq => (h'.word q (h.owned ▸ hq)).trans (h.word q hq)

/-- What others do with their own pages and with free ones does not matter. -/
theorem Maps.frame (h : Maps s root N) (hm : Moves s t A B) (hA : ∀ q ∈ A, s.IsPage q)
    (hdisj : ∀ q ∈ owned s root N, q ∉ A) : Kept s t root N := by
  have hword : ∀ q ∈ owned s root N, t.word q = s.word q :=
    fun q hq => hm.frame q (hdisj q hq) (h.notFree q hq)
  have htable : ∀ q ∈ s.tables root, t.word q = s.word q := fun q hq => hword q (.inl hq)
  have hlookup := lookup_frame htable
  have htables := tables_frame htable
  have howned : owned t root N = owned s root N := by
    rw [owned, htables, data_congr fun b _ _ => hlookup b, owned]
  have hfree : ∀ q ∈ owned s root N, q ∉ t.freelist := by
    intro q hq hqt
    exact ((hm.conserve q).mp (.inr hqt)).elim (hdisj q hq) (h.notFree q hq)
  refine ⟨⟨⟨(hm.isPage hA h.pageTable.kmem).1, h.pageTable.distinct.frame htable, ?_, ?_⟩, ?_, ?_⟩,
    hlookup, htables, howned, hword⟩
  · intro q hq
    exact (h.pageTable.isPage q (htables ▸ hq)).of_kend hm.kend
  · intro q hq
    exact hfree q (.inl (htables ▸ hq))
  · intro b hb hbN
    rw [hlookup]
    exact h.user b hb hbN
  · rw [howned]
    exact hfree

/-- An address space is as it was. -/
structure Same (s t : Phys) (root : UInt64) (N : ℕ) (X : UInt64 → Option UInt64) : Prop
    extends Kept s t root N where
  space : Space t root N X

theorem Space.frame (h : Space s root N X) (hm : Moves s t A B) (hA : ∀ q ∈ A, s.IsPage q)
    (hdisj : ∀ q ∈ owned s root N, q ∉ A) : Same s t root N X := by
  have hkept := h.maps.frame hm hA hdisj
  refine ⟨hkept, hkept.maps.pageTable, inner_frame (fun q hq => hkept.word q (.inl hq)) h.inner,
    hkept.maps.user, fun b hb hbN => ?_, ?_⟩
  · rw [hkept.lookup]
    exact h.other b hb hbN
  · refine h.backed.transfer (fun b _ _ => by rw [hkept.lookup]) hm.kend (fun q hq => ?_) fun q hq => ?_
    · rw [hkept.tables]
      exact h.backed.notTable q hq
    · exact hkept.maps.notFree q (hkept.owned ▸ .inr hq)

/-! ### Shrinking -/

/-- The memory has `N'` pages instead of `N`. The pages that were there and still are have not changed. -/
structure Resized (s t : Phys) (root : UInt64) (N N' : ℕ) (X : UInt64 → Option UInt64) : Prop where
  moves : Moves s t (owned s root N) (owned t root N')
  space : Space t root N' X
  lookup : ∀ b, Aligned b → below N b → below N' b → lookup t root b = lookup s root b
  word : ∀ b e, Aligned b → below N b → below N' b → Vm.lookup s root b = some e →
    t.word (PTE2PA e) = s.word (PTE2PA e)
  tables : s.tables root ⊆ t.tables root

theorem Resized.refl (h : Space s root N X) : Resized s s root N N X :=
  ⟨.refl h.pageTable.kmem h.notFree, h, fun _ _ _ _ => rfl, fun _ _ _ _ _ _ => rfl, subset_rfl⟩

theorem Resized.trans (h : Resized s t root N M X) (h' : Resized t u root M K X) (hM : N ≤ M ∨ K ≤ M) :
    Resized s u root N K X := by
  have hbelow : ∀ b, below N b → below K b → below M b := by
    intro b hN hK
    exact hM.elim hN.mono hK.mono
  constructor
  case moves => exact h.moves.trans h'.moves
  case space => exact h'.space
  case lookup =>
    intro b hb hN hK
    rw [h'.lookup b hb (hbelow b hN hK) hK, h.lookup b hb hN (hbelow b hN hK)]
  case word =>
    intro b e hb hN hK he
    have hM := hbelow b hN hK
    rw [h'.word b e hb hM hK ((h.lookup b hb hN hM).trans he), h.word b e hb hN hM he]
  case tables => exact h.tables.trans h'.tables

/-- The pages from `N'` to `N`. -/
theorem range_iff (hN : N * 4096 ≤ 0x88000000) (hle : N' ≤ N) (b : UInt64) :
    range (pageAddr N') (pageAddr N' + UInt64.ofNat (N - N') * 4096) b ↔ ¬ below N' b ∧ below N b := by
  have hfrom : (pageAddr N').toNat = N' * 4096 := toNat_pageAddr (by omega)
  have hlen : (UInt64.ofNat (N - N') * 4096).toNat = (N - N') * 4096 := by
    rw [UInt64.toNat_mul, UInt64.toNat_ofNat', show (4096 : UInt64).toNat = 4096 from rfl]
    omega
  have hstop : (pageAddr N' + UInt64.ofNat (N - N') * 4096).toNat = N * 4096 := by
    rw [toNat_add_of_lt (by omega), hfrom, hlen]
    omega
  rw [range, UInt64.le_iff_toNat_le, UInt64.lt_iff_toNat_lt, hfrom, hstop, below, below, not_lt]

/-- Removing the last pages. -/
theorem Space.shrink (h : Space s root N X) (hX : Above X) (hle : N' ≤ N) :
    Wp (uvmunmap root (pageAddr N') (UInt64.ofNat (N - N')) true) (fun _ => False)
      (fun _ t => Resized s t root N N' X) s := by
  have hlt := h.lt
  have hrange := range_iff hlt hle
  obtain ⟨R, hR⟩ : ∃ R, R = range (pageAddr N') (pageAddr N' + UInt64.ofNat (N - N') * 4096) := ⟨_, rfl⟩
  have hRiff : ∀ b, R b ↔ ¬ below N' b ∧ below N b := fun b => hR ▸ hrange b
  have hback : Backed s root R := h.backed.mono fun b hb => ((hRiff b).mp hb).2
  have hspec : Wp (uvmunmap root (pageAddr N') (UInt64.ofNat (N - N')) true) (UnmapFails s root R)
      (fun _ t => Unmapped s t root true R) s :=
    hR ▸ uvmunmap_spec h.pageTable (aligned_pageAddr N') fun _ => hR ▸ hback
  refine (hspec.mono_error fun x hx => ?_).mono fun _ t ht => ?_
  · cases x with
    | walk =>
      obtain ⟨b, hb, hmax⟩ := hx
      have hb : b.toNat < N * 4096 := ((hRiff b).mp hb).2
      rw [MAXVA_eq] at hmax
      omega
    | uvmunmapWalk | uvmunmapNotMapped =>
      obtain ⟨b, hb, hRb, hnone⟩ := hx
      obtain ⟨e, he, -⟩ := h.user b hb ((hRiff b).mp hRb).2
      cases hnone.symm.trans he
    | uvmunmapNotLeaf =>
      obtain ⟨b, e, hb, hRb, he, hflags⟩ := hx
      obtain ⟨e', he', hleaf⟩ := h.user b hb ((hRiff b).mp hRb).2
      obtain rfl := Option.some.inj (he.symm.trans he')
      exact hleaf.flags_ne hflags
    | _ => exact hx
  · have hsub : ∀ b, below N' b → below N b := fun b hb => hb.mono hle
    have hout : ∀ b, Aligned b → below N' b → Vm.lookup t root b = Vm.lookup s root b :=
      fun b hb hN' => ht.outside b hb fun hRb => ((hRiff b).mp hRb).1 hN'
    have hdata : data t root (below N') = data s root (below N') := data_congr hout
    -- the pages that stay are owned next to those of the page table and those that go
    obtain ⟨hadd, hword, hnotTable⟩ := moves_add (F := data s root (below N')) ht.moves
      (by
        rintro q hq (hq' | hq')
        · exact h.backed.notTable q (data_mono hsub hq) hq'
        · obtain ⟨b, e, hb, hbN', hl, rfl⟩ := hq
          obtain ⟨b', e', hb', hRb', hl', heq⟩ := hq'
          obtain ⟨hnot, hbN⟩ := (hRiff b').mp hRb'
          obtain rfl := h.backed.injective b' b e' e hb' hb hbN (hsub b hbN') hl' hl heq
          exact hnot hbN')
      fun q hq => h.backed.notFree q (data_mono hsub hq)
    have hsplit : s.tables root ∪ freed s root true R ∪ data s root (below N') = owned s root N := by
      have hfreed : freed s root true R = data s root R := rfl
      rw [hfreed, Set.union_assoc, owned]
      congr 1
      ext q
      constructor
      · rintro (hq | hq)
        · exact data_mono (fun b hb => ((hRiff b).mp hb).2) hq
        · exact data_mono hsub hq
      · rintro ⟨b, e, hb, hbN, hl, rfl⟩
        by_cases hbN' : below N' b
        · exact .inr ⟨b, e, hb, hbN', hl, rfl⟩
        · exact .inl ⟨b, e, hb, (hRiff b).mpr ⟨hbN', hbN⟩, hl, rfl⟩
    have hmoves : Moves s t (owned s root N) (owned t root N') := by
      rw [hsplit, ← hdata] at hadd
      exact hadd
    refine ⟨hmoves, ?_, fun b hb _ hN' => hout b hb hN', ?_, ht.tables.ge⟩
    · constructor
      case pageTable => exact ht.pageTable
      case inner => exact ht.inner h.inner
      case user =>
        intro b hb hN'
        rw [hout b hb hN']
        exact h.user b hb (hsub b hN')
      case other =>
        intro b hb hN'
        by_cases hN : below N b
        · rw [ht.inside b hb ((hRiff b).mpr ⟨hN', hN⟩), hX b]
          rw [below] at hN
          rw [UInt64.lt_iff_toNat_lt, show TRAPFRAME.toNat = 0x3fffffe000 from rfl]
          omega
        · rw [ht.outside b hb fun hRb => hN ((hRiff b).mp hRb).2]
          exact h.other b hb hN
      case backed =>
        refine (h.backed.mono hsub).transfer (fun b hb hN' => by rw [hout b hb hN']) hmoves.kend hnotTable
          fun q hq => ?_
        rw [← hdata] at hq
        exact hmoves.disjoint q (.inr hq)
    · intro b e hb _ hN' he
      exact hword _ ⟨b, e, hb, hN', he, rfl⟩

/-! ### Growing -/

/-- The memory after a free page was taken and filled. -/
def taken (s : Phys) (c : UInt64) (l : List UInt64) (w : Fin 512 → UInt64) : Phys :=
  { s with word := update s.word c w, freelist := l }

/-- `kalloc` takes the first free page, if there is one. -/
theorem kalloc_spec : Wp kalloc (fun _ => False)
    (fun o t => (o = none ∧ s.freelist = [] ∧ t = s) ∨
      ∃ c l, o = some c ∧ s.freelist = c :: l ∧ t = taken s c l fun _ => 0x0505050505050505) s := by
  unfold kalloc
  rw [wp_bind, wp_get]
  cases hfree : s.freelist with
  | nil => exact .inl ⟨rfl, rfl, rfl⟩
  | cons c l =>
    simp only [memset, wp_bind, wp_set, wp_modify, wp_pure]
    exact .inr ⟨c, l, rfl, rfl, rfl⟩

theorem taken_moves (hk : s.Kmem) (hfree : s.freelist = c :: l) (w : Fin 512 → UInt64)
    (hA : ∀ q ∈ A, q ∉ s.freelist) : Moves s (taken s c l w) A (insert c A) := by
  refine ⟨?_, rfl⟩
  rw [hfree] at hA ⊢
  exact .take (hfree ▸ hk.nodup) hA fun q hq => update_of_ne hq _ _

/-- A page that was taken is held next to an address space. -/
structure Holding (s t : Phys) (root : UInt64) (N : ℕ) (X : UInt64 → Option UInt64) (c : UInt64) : Prop where
  moves : Moves s t (owned s root N) (insert c (owned t root N))
  space : Space t root N X
  notOwned : c ∉ owned t root N
  isPage : t.IsPage c
  lookup : ∀ b, Aligned b → below N b → lookup t root b = lookup s root b
  word : ∀ b e, Aligned b → below N b → Vm.lookup s root b = some e → t.word (PTE2PA e) = s.word (PTE2PA e)
  tables : s.tables root ⊆ t.tables root

/-- The page is given back. -/
theorem Holding.kfree (h : Holding s t root N X c) :
    Wp (kfree c) (fun _ => False) (fun _ u => Resized s u root N N X) t := by
  refine (kfree_spec h.isPage).mono ?_
  rintro _ _ rfl
  have hfree : ∀ q ∈ insert c (owned t root N), q ∉ t.freelist := h.moves.disjoint
  have hgive : Moves t (giveBack t c) {c} (({c} : Set UInt64) \ {c}) :=
    ⟨.give h.space.pageTable.kmem.nodup (by rintro q rfl; exact hfree q (.inl rfl)) rfl
      fun q hq => update_of_ne hq _ _, rfl⟩
  have hsame := h.space.frame hgive (by rintro q rfl; exact h.isPage) (by rintro q hq rfl; exact h.notOwned hq)
  obtain ⟨hadd, -, -⟩ := moves_add (F := owned t root N) hgive (by rintro q hq rfl; exact h.notOwned hq)
    h.space.notFree
  rw [Set.sdiff_self, Set.empty_union, Set.singleton_union] at hadd
  refine ⟨?_, hsame.space, fun b hb hN _ => (hsame.lookup b).trans (h.lookup b hb hN), ?_,
    h.tables.trans hsame.tables.ge⟩
  · rw [hsame.owned]
    exact h.moves.trans hadd
  · intro b e hb hN _ he
    have hl := (h.lookup b hb hN).trans he
    rw [hsame.word _ (.inr ⟨b, e, hb, hN, hl, rfl⟩), h.word b e hb hN he]

/-- The page table has been edited next to the memory and a page that was taken. -/
structure Beside (s t : Phys) (root : UInt64) (N : ℕ) (c : UInt64) (w : Fin 512 → UInt64) : Prop where
  moves : Moves s t (owned s root N) (insert c (t.tables root ∪ data s root (below N)))
  pageTable : t.PageTable root
  inner : t.Inner root
  notTable : ∀ q ∈ insert c (data s root (below N)), q ∉ t.tables root
  lookup : ∀ b, Aligned b → below N b → lookup t root b = lookup s root b
  word : ∀ q ∈ data s root (below N), t.word q = s.word q
  held : t.word c = w
  tables : s.tables root ⊆ t.tables root

section Beside

variable {w : Fin 512 → UInt64} (h : Space s root N X) (hb : Beside s t root N c w)

include h hb

/-- The memory itself has not changed. -/
theorem Beside.backed : Backed t root (below N) :=
  h.backed.transfer (fun b hab hN => by rw [hb.lookup b hab hN]) hb.moves.kend
    (fun q hq => hb.notTable q (.inr hq)) fun q hq => hb.moves.disjoint q (.inr (.inr hq))

/-- Nothing was mapped: the page is still held. -/
theorem Beside.holding (hc : s.IsPage c) (hcN : c ∉ data s root (below N))
    (hother : ∀ b, Aligned b → ¬ below N b → Vm.lookup t root b = Vm.lookup s root b) :
    Holding s t root N X c := by
  have howned : owned t root N = t.tables root ∪ data s root (below N) := by
    rw [owned, data_congr hb.lookup]
  constructor
  case moves =>
    rw [howned]
    exact hb.moves
  case space =>
    refine ⟨hb.pageTable, hb.inner, fun b hab hN => ?_, fun b hab hN => ?_, Beside.backed h hb⟩
    · rw [hb.lookup b hab hN]
      exact h.user b hab hN
    · rw [hother b hab hN]
      exact h.other b hab hN
  case notOwned =>
    rw [howned]
    rintro (hct | hct)
    exacts [hb.notTable c (.inl rfl) hct, hcN hct]
  case isPage => exact hc.of_kend hb.moves.kend
  case lookup => exact hb.lookup
  case word => exact fun b e hab hN he => hb.word _ ⟨b, e, hab, hN, he, rfl⟩
  case tables => exact hb.tables

/-- The page was mapped next to the others. -/
theorem Beside.resized (hc : s.IsPage c) (hcN : c ∉ data s root (below N))
    (hhere : Vm.lookup t root (pageAddr N) = some e) (hpa : PTE2PA e = c) (hleaf : Leaf e)
    (hother : ∀ b, Aligned b → ¬ below (N + 1) b → Vm.lookup t root b = Vm.lookup s root b) :
    Resized s t root N (N + 1) X := by
  have hlt := h.lt
  have haddr : (pageAddr N).toNat = N * 4096 := toNat_pageAddr (by omega)
  have hcases : ∀ b, Aligned b → below (N + 1) b → below N b ∨ b = pageAddr N := by
    intro b hab hN
    by_cases hbN : below N b
    · exact .inl hbN
    · exact .inr (eq_of_below hab hlt hbN hN)
  have hself : below (N + 1) (pageAddr N) := by
    rw [below, haddr]
    omega
  have hdata : data t root (below (N + 1)) = insert c (data s root (below N)) := by
    ext q
    constructor
    · rintro ⟨b, e', hab, hN, hl, rfl⟩
      rcases hcases b hab hN with hN | rfl
      · rw [hb.lookup b hab hN] at hl
        exact .inr ⟨b, e', hab, hN, hl, rfl⟩
      · obtain rfl := Option.some.inj (hl.symm.trans hhere)
        exact .inl hpa
    · rintro (rfl | ⟨b, e', hab, hN, hl, rfl⟩)
      · exact ⟨_, e, aligned_pageAddr N, hself, hhere, hpa⟩
      · exact ⟨b, e', hab, hN.mono (Nat.le_succ N), (hb.lookup b hab hN).trans hl, rfl⟩
  have howned : owned t root (N + 1) = insert c (t.tables root ∪ data s root (below N)) := by
    rw [owned, hdata, Set.union_insert]
  have hmoves : Moves s t (owned s root N) (owned t root (N + 1)) := howned ▸ hb.moves
  refine ⟨hmoves, ⟨hb.pageTable, hb.inner, ?_, ?_, ?_⟩, fun b hab hN _ => hb.lookup b hab hN,
    fun b e hab hN _ he => hb.word _ ⟨b, e, hab, hN, he, rfl⟩, hb.tables⟩
  · intro b hab hN
    rcases hcases b hab hN with hN | rfl
    · rw [hb.lookup b hab hN]
      exact h.user b hab hN
    · exact ⟨e, hhere, hleaf⟩
  · intro b hab hN
    rw [hother b hab hN]
    exact h.other b hab fun hbN => hN (hbN.mono (Nat.le_succ N))
  · constructor
    case injective =>
      intro b b' e₁ e₂ hab hab' hN hN' hl hl' heq
      -- the new page is none of the others
      have hnew : ∀ {b e'}, Aligned b → below N b → Vm.lookup t root b = some e' → PTE2PA e' ≠ c := by
        rintro b e' hab hN hl rfl
        exact hcN ⟨b, e', hab, hN, (hb.lookup b hab hN).symm.trans hl, rfl⟩
      rcases hcases b hab hN with hN | rfl <;> rcases hcases b' hab' hN' with hN' | rfl
      · exact (Beside.backed h hb).injective b b' e₁ e₂ hab hab' hN hN' hl hl' heq
      · obtain rfl := Option.some.inj (hl'.symm.trans hhere)
        exact absurd (heq.trans hpa) (hnew hab hN hl)
      · obtain rfl := Option.some.inj (hl.symm.trans hhere)
        exact absurd (heq.symm.trans hpa) (hnew hab' hN' hl')
      · rfl
    case isPage =>
      intro q hq
      rw [hdata] at hq
      rcases hq with rfl | hq
      · exact hc.of_kend hb.moves.kend
      · exact (h.backed.isPage q hq).of_kend hb.moves.kend
    case notTable =>
      intro q hq
      exact hb.notTable q (hdata ▸ hq)
    case notFree =>
      intro q hq
      exact hmoves.disjoint q (.inr hq)

end Beside

section MapNext

variable {w : Fin 512 → UInt64} (h : Space s root N X) (hfree : s.freelist = c :: l)

include h hfree

theorem Space.same_taken (w : Fin 512 → UInt64) : Same s (taken s c l w) root N X :=
  h.frame (taken_moves h.pageTable.kmem hfree w (A := ∅) nofun) nofun fun _ _ => Set.notMem_empty _

theorem Space.beside (hedit : Edited (taken s c l w) t root R)
    (hR : ∀ b, Aligned b → R b → ¬ below N b) : Beside s t root N c w := by
  have hsame := h.same_taken hfree w
  have hk := h.pageTable.kmem
  have hmem : c ∈ s.freelist := hfree ▸ List.mem_cons_self
  have hcowned : c ∉ owned s root N := fun hc => h.notFree c hc hmem
  have hcl : c ∉ l := (List.nodup_cons.mp (hfree ▸ hk.nodup)).1
  -- the page and the pages of the memory are owned next to the page table
  obtain ⟨hadd, hword, hnotTable⟩ := moves_add (F := insert c (data s root (below N))) hedit.moves
    (by
      rw [hsame.tables]
      rintro q (rfl | hq)
      · exact fun hq => hcowned (.inl hq)
      · exact h.backed.notTable q hq)
    (by
      rintro q (rfl | hq) hql
      · exact hcl hql
      · refine h.backed.notFree q hq ?_
        rw [hfree]
        exact List.mem_cons_of_mem _ hql)
  constructor
  case moves =>
    rw [Set.union_insert, Set.union_insert, hsame.tables] at hadd
    exact (taken_moves hk hfree w h.notFree).trans hadd
  case pageTable => exact hedit.pageTable
  case inner => exact hedit.inner hsame.space.inner
  case notTable => exact hnotTable
  case lookup =>
    intro b hab hN
    rw [hedit.lookup b hab fun hRb => hR b hab hRb hN, hsame.lookup]
  case word =>
    intro q hq
    rw [hword q (.inr hq), hsame.word q (.inr hq)]
  case held =>
    rw [hword c (.inl rfl)]
    exact update_self _ _ _
  case tables => exact hsame.tables.ge.trans hedit.tables

/-- The next page is mapped to a page that was taken, or there is no memory for the page table. -/
theorem Space.mapNext (hX : Above X) (hperm : perm.toNat < 2 ^ 10) (hleaf : Leaf perm) :
    Wp (mappages root (pageAddr N) 4096 c perm) (fun _ => False)
      (fun r t => (r = 0 ∧ Resized s t root N (N + 1) X ∧ (∃ e, lookup t root (pageAddr N) = some e ∧
          PTE2PA e = c ∧ PTE_FLAGS e = perm ||| PTE_V) ∧ t.word c = w) ∨
        r = -1 ∧ Holding s t root N X c) (taken s c l w) := by
  have hlt := h.lt
  have hsame := h.same_taken hfree w
  have hmem : c ∈ s.freelist := hfree ▸ List.mem_cons_self
  have hpage : s.IsPage c := h.pageTable.kmem.isPage c hmem
  have hcdata : c ∉ data s root (below N) := fun hc => h.backed.notFree c hc hmem
  have haddr : (pageAddr N).toNat = N * 4096 := toNat_pageAddr (by omega)
  have hN : ¬ below N (pageAddr N) := by
    rw [below, haddr]
    omega
  have hnone : lookup (taken s c l w) root (pageAddr N) = none := by
    rw [hsame.space.other _ (aligned_pageAddr N) hN, hX]
    rw [UInt64.lt_iff_toNat_lt, haddr, show TRAPFRAME.toNat = 0x3fffffe000 from rfl]
    omega
  have hspec : Wp (mappages root (pageAddr N) 4096 c perm) (MapFails (taken s c l w) root (pageAddr N) 1)
      (fun r t => ∃ k, MappedTo (taken s c l w) t root (pageAddr N) c perm k ∧
        (r = 0 ∧ k = 1 ∨ r = -1 ∧ k < 1 ∧ t.freelist = [])) (taken s c l w) :=
    mappages_spec hsame.space.pageTable (aligned_pageAddr N) (show Aligned 4096 by decide) (by decide)
  refine (hspec.mono_error fun x hx => ?_).mono ?_
  · cases x with
    | walk =>
      have hx : MAXVA < (pageAddr N).toNat + 1 * 4096 := hx
      rw [MAXVA_eq] at hx
      omega
    | mappagesRemap =>
      obtain ⟨i, hi, hne⟩ := hx
      obtain rfl : i = 0 := by omega
      rw [pageAt_zero] at hne
      exact hne hnone
    | _ => exact hx
  · rintro r t ⟨k, hmapped, ⟨hr, rfl⟩ | ⟨hr, hk, -⟩⟩
    · have hin : ∀ b, (∃ i < 1, b = pageAt (pageAddr N) i) → b = pageAddr N := by
        rintro b ⟨i, hi, rfl⟩
        obtain rfl : i = 0 := by omega
        exact pageAt_zero _
      have hbeside := h.beside hfree hmapped.edited fun b _ hb => hin b hb ▸ hN
      have hhere : lookup t root (pageAddr N) = some (PA2PTE c ||| perm ||| PTE_V) := by
        have hone := hmapped.lookup 0 Nat.one_pos
        rwa [pageAt_zero, mapped, pageAt_zero] at hone
      have hflags : (perm ||| PTE_V).toNat < 2 ^ 10 := by
        rw [UInt64.toNat_or]
        exact Nat.or_lt_two_pow hperm (by decide)
      have hpa : PTE2PA (PA2PTE c ||| perm ||| PTE_V) = c := by
        rw [UInt64.or_assoc]
        exact PTE2PA_PA2PTE_or hpage.aligned hpage.lt_two_pow hflags
      have heflags : PTE_FLAGS (PA2PTE c ||| perm ||| PTE_V) = perm ||| PTE_V := by
        rw [UInt64.or_assoc]
        exact PTE_FLAGS_PA2PTE_or hpage.lt_two_pow hflags
      have hgrants : Leaf (PA2PTE c ||| perm ||| PTE_V) := by
        rw [Leaf, perms_eq, heflags, perms_or_PTE_V]
        exact hleaf
      refine .inl ⟨hr, hbeside.resized h hpage hcdata hhere hpa hgrants fun b hab hb => ?_,
        ⟨_, hhere, hpa, heflags⟩, hbeside.held⟩
      rw [hmapped.edited.lookup b hab, hsame.lookup]
      intro hmem
      rw [hin b hmem, below, haddr] at hb
      omega
    · obtain rfl : k = 0 := by omega
      have hnot : ∀ b, ¬ ∃ i < 0, b = pageAt (pageAddr N) i := by simp
      have hbeside := h.beside hfree hmapped.edited fun b _ hb => absurd hb (hnot b)
      refine .inr ⟨hr, hbeside.holding h hpage hcdata fun b hab _ => ?_⟩
      rw [hmapped.edited.lookup b hab (hnot b), hsame.lookup]

end MapNext

/-! ### Creating -/

/-- A page table of one empty page. -/
theorem space_create (hk : s.Kmem) (hfree : s.freelist = c :: l) :
    Space (taken s c l fun _ => 0) c 0 (fun _ => none) ∧ (taken s c l fun _ => 0).tables c = {c} := by
  have hword : ∀ j, (taken s c l fun _ => 0).word c j = 0 := by
    intro j
    exact congrFun (update_self c (fun _ => (0 : UInt64)) s.word) j
  have hempty : ∀ j, child ((taken s c l fun _ => 0).word c j) = none := by
    intro j
    rw [hword]
    exact child_zero
  have htables : (taken s c l fun _ => 0).tables c = {c} := by
    ext q
    exact ⟨Radix.nodes_of_empty hempty, by rintro rfl; exact Radix.root_mem_nodes⟩
  have hmoves := taken_moves hk hfree (fun _ => 0) (A := ∅) (by simp)
  have hlookup : ∀ va, lookup (taken s c l fun _ => 0) c va = none := by
    intro va
    refine lookup_none ?_
    rw [pathFrom, Phys.node, Radix.node, hempty, Option.bind_none]
  refine ⟨⟨⟨(hmoves.isPage (by simp) hk).1, .of_empty hempty, ?_, ?_⟩, ?_, ?_, fun b _ _ => hlookup b, ?_⟩, htables⟩
  · rw [htables]
    rintro q rfl
    exact (hmoves.isPage (by simp) hk).2 q (.inl rfl)
  · rw [htables]
    rintro q rfl
    exact hmoves.disjoint q (.inl rfl)
  · refine ⟨fun π p j _ hp hv => ?_, fun i _ => ?_⟩
    · obtain rfl := (Radix.node_of_empty hempty hp).2
      rw [hword] at hv
      cases hv
    · rw [hword]
      rfl
  · exact fun b _ hb => absurd hb (not_below_zero b)
  · have hdata : data (taken s c l fun _ => 0) c (below 0) = ∅ := by
      refine Set.eq_empty_of_forall_notMem ?_
      rintro q ⟨b, e, -, -, hl, -⟩
      rw [hlookup] at hl
      cases hl
    refine ⟨fun b b' e e' _ _ _ _ hl => ?_, by simp [hdata], by simp [hdata],
      by simp [hdata]⟩
    rw [hlookup] at hl
    cases hl

/-- `uvmcreate` makes an empty address space, if there is a free page. -/
theorem uvmcreate_space (hk : s.Kmem) : Wp uvmcreate (fun _ => False)
    (fun o t => (o = none ∧ s.freelist = [] ∧ t = s) ∨
      ∃ root, o = some root ∧ Space t root 0 (fun _ => none) ∧ Moves s t ∅ (owned t root 0)) s := by
  unfold uvmcreate
  rw [wp_bind]
  refine kalloc_spec.mono ?_
  rintro o t (⟨rfl, hfree, rfl⟩ | ⟨c, l, rfl, hfree, rfl⟩)
  · exact .inl ⟨rfl, hfree, rfl⟩
  · simp only [memset, wp_bind, wp_modify, wp_pure]
    have hzero : ({ taken s c l (fun _ => 0x0505050505050505) with
        word := update (taken s c l fun _ => 0x0505050505050505).word c fun _ => 0 } : Phys) =
        taken s c l fun _ => 0 := by
      rw [taken, taken, update_idem]
    rw [hzero]
    obtain ⟨hspace, htables⟩ := space_create hk hfree
    refine .inr ⟨c, rfl, hspace, ?_⟩
    rw [owned_zero, htables, ← insert_empty_eq]
    exact taken_moves hk hfree (fun _ => 0) (by simp)

end Vm

end Xv6
