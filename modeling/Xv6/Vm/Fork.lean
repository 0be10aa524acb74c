import Xv6.Vm.Alloc

/-! # Copying an address space

`uvmcopy` gives a child the memory of its parent, page by page, in pages of its own. If memory runs out at any
page, for the copy or for the page table of the child, everything is given back. -/

namespace Xv6

open Phys

namespace Vm

variable {s t u : Phys} {old new sz : UInt64} {N k K n : ℕ} {Y : UInt64 → Option UInt64}

/-- The pages from `k` to `K` of the child are copies, in pages that were free. -/
def Copies (s t : Phys) (old new : UInt64) (k K : ℕ) : Prop :=
  ∀ b, Aligned b → ¬ below k b → below K b → ∀ e, lookup s old b = some e → ∃ e', lookup t new b = some e' ∧
    PTE_FLAGS e' = PTE_FLAGS e ∧ PTE2PA e' ∈ s.freelist ∧ t.word (PTE2PA e') = s.word (PTE2PA e)

/-- The pages of two address spaces are different pages. -/
def Apart (s : Phys) (old new : UInt64) (N k : ℕ) : Prop := ∀ q ∈ owned s old N, q ∉ owned s new k

section Step

variable (hp : Maps s old N) (hapart : Apart s old new N k)

include hp hapart

/-- What the child does does not touch the parent. -/
theorem Maps.kept (hc : Space s new k Y) (h : Resized s t new k K Y) : Kept s t old N :=
  hp.frame h.moves hc.isPage hapart

theorem Apart.resized (hkept : Kept s t old N) (h : Resized s t new k K Y) : Apart t old new N K := by
  intro q hq hqn
  rw [hkept.owned] at hq
  exact ((h.moves.conserve q).mp (.inl hqn)).elim (hapart q hq) (hp.notFree q hq)

end Step

theorem Copies.nil : Copies s t old new k k := fun _ _ hk hk' => absurd hk' hk

/-- What is free after the memory has grown was free before. -/
theorem Resized.free_of_free (h : Resized s t new k K Y) (hle : k ≤ K) {q : UInt64} (hq : q ∈ t.freelist) :
    q ∈ s.freelist := by
  rcases (h.moves.conserve q).mp (.inr hq) with (hqt | ⟨b, e, hb, hbk, hl, rfl⟩) | hqf
  · exact absurd hq (h.moves.disjoint q (.inl (h.tables hqt)))
  · have hl' := (h.lookup b hb hbk (hbk.mono hle)).trans hl
    exact absurd hq (h.moves.disjoint _ (.inr ⟨b, e, hb, hbk.mono hle, hl', rfl⟩))
  · exact hqf

/-- One page, and then those after it. -/
theorem Copies.cons {e e' : UInt64} (h : Copies t u old new (k + 1) K) (hkept : Kept s t old N)
    (hres : Resized s t new k (k + 1) Y) (hres' : Resized t u new (k + 1) K Y) (hKN : K ≤ N)
    (hk : k * 4096 ≤ 0x88000000) (he : lookup s old (pageAddr k) = some e)
    (he' : lookup t new (pageAddr k) = some e') (hflags : PTE_FLAGS e' = PTE_FLAGS e)
    (hfree : PTE2PA e' ∈ s.freelist) (hword : t.word (PTE2PA e') = s.word (PTE2PA e)) :
    Copies s u old new k K := by
  intro b hb hbk hbK e₀ he₀
  by_cases hbk' : below (k + 1) b
  · obtain rfl := eq_of_below hb hk hbk hbk'
    obtain rfl := Option.some.inj (he.symm.trans he₀)
    refine ⟨e', (hres'.lookup _ hb hbk' hbK).trans he', hflags, hfree, ?_⟩
    rw [hres'.word _ e' hb hbk' hbK he', hword]
  · obtain ⟨e₁, he₁, hflags₁, hfree₁, hword₁⟩ := h b hb hbk' hbK e₀ ((hkept.lookup b).trans he₀)
    refine ⟨e₁, he₁, hflags₁, hres.free_of_free (Nat.le_succ k) hfree₁, ?_⟩
    rw [hword₁, hkept.word _ (.inr ⟨b, e₀, hb, hbK.mono hKN, he₀, rfl⟩)]

/-- The child is given back its empty memory. -/
theorem Space.clear (hc : Space s new k Y) (hY : Above Y) :
    Wp (uvmunmap new 0 (pageAddr k / 4096) true) (fun _ => False) (fun _ t => Resized s t new k 0 Y) s := by
  have hlt := hc.lt
  have hdiv : pageAddr k / 4096 = UInt64.ofNat (k - 0) := by
    apply UInt64.toNat_inj.mp
    rw [UInt64.toNat_div, toNat_pageAddr (by omega), UInt64.toNat_ofNat',
      show (4096 : UInt64).toNat = 4096 from rfl]
    omega
  have hshrink := hc.shrink hY (Nat.zero_le k)
  rw [show pageAddr 0 = 0 from rfl] at hshrink
  rwa [hdiv]

theorem uvmcopyLoop_spec (hp : Maps s old N) (hc : Space s new k Y) (hY : Above Y)
    (hapart : Apart s old new N k) (hN : numPages sz = N) (hk : k ≤ N) (hn : MAXVA ≤ (k + n) * 4096) :
    Wp (uvmcopyLoop old new sz n (pageAddr k)) (fun _ => False)
      (fun r t => Kept s t old N ∧ ((r = 0 ∧ Resized s t new k N Y ∧ Copies s t old new k N) ∨
        r = -1 ∧ Resized s t new k 0 Y)) s := by
  induction n generalizing s k with
  | zero =>
    have hlt := hc.lt
    rw [MAXVA_eq] at hn
    omega
  | succ n ih =>
    have hlt := hc.lt
    rw [uvmcopyLoop, wp_ite, pageAddr_lt_iff hlt, hN]
    refine ⟨fun hmore => ?_, fun hdone => ?_⟩
    · have haddr : (pageAddr k).toNat = k * 4096 := toNat_pageAddr (by omega)
      have hbelow : below N (pageAddr k) := by
        rw [below, haddr]
        exact Nat.mul_lt_mul_of_pos_right hmore (by decide)
      have hmax : (pageAddr k).toNat < MAXVA := by
        rw [MAXVA_eq]
        omega
      obtain ⟨e, he, hleaf⟩ := hp.user _ (aligned_pageAddr k) hbelow
      have hpa : PTE2PA e ∈ owned s old N := .inr ⟨_, e, aligned_pageAddr k, hbelow, he, rfl⟩
      -- giving up, from any state in which the child still has its pages
      have hgiveup : ∀ v, Resized s v new k k Y → Wp (do uvmunmap new 0 (pageAddr k / 4096) true; return (-1 : Int))
          (fun _ => False) (fun r t => Kept s t old N ∧ ((r = 0 ∧ Resized s t new k N Y ∧
            Copies s t old new k N) ∨ r = -1 ∧ Resized s t new k 0 Y)) v := by
        intro v hv
        refine (hv.space.clear hY).bind fun _ t ht => ?_
        have hres := hv.trans ht (.inl le_rfl)
        exact ⟨hp.kept hapart hc hres, .inr ⟨rfl, hres⟩⟩
      rw [wp_bind, wp_walk_false hmax]
      obtain ⟨p, hnode, hslot⟩ := Option.bind_eq_some_iff.mp ((lookup_eq s old hmax).symm.trans he)
      obtain ⟨hvalid, hword⟩ := Option.ite_none_right_eq_some.mp hslot
      have hword := Option.some.inj hword
      rw [hnode]
      simp only [Option.map_some, load, wp_bind, wp_get, wp_pure, wp_ite, hword]
      rw [hword] at hvalid
      refine ⟨fun hnot => absurd hnot (by simp [hvalid]), fun _ => ?_⟩
      refine kalloc_spec.mono ?_
      rintro o t (⟨rfl, -, rfl⟩ | ⟨c, l, rfl, hfree, rfl⟩)
      · exact hgiveup _ (.refl hc)
      · have hmem : c ∈ s.freelist := hfree ▸ List.mem_cons_self
        have hne : c ≠ PTE2PA e := by
          rintro rfl
          exact hp.notFree _ hpa hmem
        have hcopy : (taken s c l fun _ => 0x0505050505050505).moved c (PTE2PA e) 4096 =
            taken s c l (s.word (PTE2PA e)) := by
          rw [moved_page (hc.pageTable.kmem.isPage c hmem).aligned (aligned_PTE2PA e) hne, taken, taken]
          dsimp only
          rw [Function.update_of_ne hne.symm, Function.update_idem]
        dsimp only
        rw [wp_bind, memmove, wp_modify, hcopy, wp_bind]
        have hperm : (PTE_FLAGS e).toNat < 2 ^ 10 := by
          rw [toNat_PTE_FLAGS]
          omega
        have hgrants : Leaf (PTE_FLAGS e) := by
          rw [Leaf, ← perms_eq]
          exact hleaf
        refine (hc.mapNext hfree hY hperm hgrants).mono ?_
        rintro r t (⟨rfl, hres, ⟨e', he', hpa', hflags⟩, hcopied⟩ | ⟨rfl, hhold⟩)
        · rw [if_neg (by simp)]
          have hkept := hp.kept hapart hc hres
          have hn' : MAXVA ≤ (k + 1 + n) * 4096 := by rwa [Nat.add_right_comm]
          have hnext : pageAddr k + 4096 = pageAddr (k + 1) := by
            rw [pageAddr, pageAddr, Nat.succ_mul, UInt64.ofNat_add]
            rfl
          rw [hnext]
          refine (ih hkept.maps hres.space (Apart.resized hp hapart hkept hres) hmore hn').mono ?_
          rintro r u ⟨hkept', ⟨rfl, hres', hcopies⟩ | ⟨rfl, hres'⟩⟩
          · refine ⟨hkept.trans hkept', .inl ⟨rfl, hres.trans hres' (.inl (Nat.le_succ k)), ?_⟩⟩
            refine hcopies.cons hkept hres hres' le_rfl hlt he he' ?_ (hpa' ▸ hmem) (hpa' ▸ hcopied)
            rw [hflags, flags_or_PTE_V hvalid]
          · exact ⟨hkept.trans hkept', .inr ⟨rfl, hres.trans hres' (.inl (Nat.le_succ k))⟩⟩
        · rw [if_pos (by decide), wp_bind]
          exact hhold.kfree.mono fun _ u hu => hgiveup u hu
    · obtain rfl : k = N := by omega
      rw [wp_pure]
      exact ⟨.refl hp, .inl ⟨rfl, .refl hc, .nil⟩⟩

/-! ### The whole copy -/

/-- What the child has is a copy of its own: the same flags and the same bytes, in pages that were free, and
what one of the two writes the other does not see. -/
structure IsolatedCopy (s t : Phys) (old new : UInt64) (N : ℕ) : Prop where
  copy : ∀ b e, Aligned b → below N b → lookup s old b = some e → ∃ e', lookup t new b = some e' ∧
    PTE_FLAGS e' = PTE_FLAGS e ∧ PTE2PA e' ∈ s.freelist ∧ t.word (PTE2PA e') = s.word (PTE2PA e)
  distinct : ∀ b b' e e', Aligned b → Aligned b' → below N b → below N b' → lookup t new b = some e →
    lookup t new b' = some e' → PTE2PA e = PTE2PA e' → b = b'
  unseen : ∀ q ∈ data t old (below N), ∀ q' ∈ data t new (below N), q ≠ q' ∧ ∀ i < 4096, ∀ j < 4096, ∀ x,
    (t.setByte (addr q i) x).byte (addr q' j) = t.byte (addr q' j) ∧
    (t.setByte (addr q' j) x).byte (addr q i) = t.byte (addr q i)

/-- **`uvmcopy` makes an isolated copy, or nothing.** It does not panic, and it does not change the memory of
the parent. If it returns `0`, the child has a copy of its own. Otherwise the child has no memory, and the
pages that were free are still free, each of them once, but for those of its page table. -/
theorem uvmcopy_isolates (hp : Maps s old (numPages sz)) (hc : Space s new 0 Y) (hY : Above Y)
    (hapart : Apart s old new (numPages sz) 0) :
    ∃ r t, uvmcopy old new sz s = .ok (r, t) ∧ Maps t old (numPages sz) ∧
      (∀ b, lookup t old b = lookup s old b) ∧ (∀ q ∈ owned s old (numPages sz), t.word q = s.word q) ∧
      ((r = 0 ∧ Space t new (numPages sz) Y ∧ IsolatedCopy s t old new (numPages sz)) ∨
        r = -1 ∧ Space t new 0 Y ∧ t.freelist.Nodup ∧
          ∀ q, q ∈ t.freelist ↔ q ∈ s.freelist ∧ q ∉ t.tables new) := by
  have hcount : MAXVA ≤ (0 + MAXVA / PGSIZE) * 4096 := by decide
  obtain ⟨r, t, hrun, hkept, hend⟩ := (uvmcopyLoop_spec hp hc hY hapart rfl (Nat.zero_le _) hcount).total
  refine ⟨r, t, hrun, hkept.maps, hkept.lookup, hkept.word, ?_⟩
  rcases hend with ⟨hr, hres, hcopies⟩ | ⟨hr, hres⟩
  · refine .inl ⟨hr, hres.space, fun b e hb hN he => hcopies b hb (not_below_zero b) hN e he,
      hres.space.backed.injective, fun q hq q' hq' => ?_⟩
    have hne : q ≠ q' := by
      rintro rfl
      exact Apart.resized hp hapart hkept hres q (.inr hq) (.inr hq')
    obtain ⟨-, e, -, -, -, rfl⟩ := id hq
    obtain ⟨-, e', -, -, -, rfl⟩ := id hq'
    have ha := aligned_PTE2PA e
    have ha' := aligned_PTE2PA e'
    exact ⟨hne, fun i hi j hj x => ⟨byte_setByte_page ha ha' hne hi hj, byte_setByte_page ha' ha hne.symm hj hi⟩⟩
  · have hmoves := hres.moves
    rw [owned_zero, owned_zero] at hmoves
    refine .inr ⟨hr, hres.space, hmoves.nodup, fun q => ⟨fun hq => ?_, fun ⟨hq, hqt⟩ => ?_⟩⟩
    · exact ⟨hres.free_of_free le_rfl hq, fun hqt => hmoves.disjoint q hqt hq⟩
    · exact ((hmoves.conserve q).mpr (.inr hq)).resolve_left hqt

/-- A memory with nine free pages. -/
def ninePages : Phys where
  word := fun _ _ => 0
  freelist := [0x80008000, 0x80009000, 0x8000a000, 0x8000b000, 0x8000c000, 0x8000d000, 0x8000e000, 0x8000f000,
    0x80010000]
  kend := 0x80008000

theorem ninePages_kmem : ninePages.Kmem := by
  refine ⟨by decide, ?_⟩
  have hpages : ∀ p ∈ ninePages.freelist, Aligned p ∧ ninePages.kend ≤ p ∧ p.toNat < PHYSTOP :=
    List.forall_iff_forall_mem.mp (by decide)
  exact fun p hp => ⟨(hpages p hp).1, (hpages p hp).2.1, (hpages p hp).2.2⟩

theorem run_parent : (match uvmcreate ninePages with
    | .ok (some old, t) =>
      match growproc ⟨old, 0⟩ 10 t with
      | .ok ((r, p), u) => r == 0 && p == ⟨old, 10⟩ && (match uvmcreate u with | .ok (o, _) => o.isSome | _ => false)
      | .error _ => false
    | _ => false) = true := by decide +kernel

/-- A process with a page of memory is copied to a new page table. -/
theorem uvmcopy_isolates_parent : ∃ old new t, Space t old (numPages 10) (fun _ => none) ∧
    ∃ r u, uvmcopy old new 10 t = .ok (r, u) ∧ (r = 0 ∨ r = -1) := by
  obtain ⟨o, t, hrun, hspec⟩ := (uvmcreate_space ninePages_kmem).total
  rcases hspec with ⟨-, hfree, -⟩ | ⟨old, rfl, hspace, -⟩
  · cases hfree
  · rw [← numPages_zero] at hspace
    obtain ⟨⟨r, p⟩, u, hgrow, hgrown⟩ := (growproc_spec (p := ⟨old, 0⟩) hspace above_none 10).total
    have hall := run_parent
    simp only [hrun, hgrow, Bool.and_eq_true, beq_iff_eq] at hall
    obtain ⟨⟨rfl, rfl⟩, hchild⟩ := hall
    have hparent : Space u old (numPages 10) fun _ => none := by
      rcases hgrown with ⟨-, -, ⟨-, -, hres, -⟩ | ⟨hr, -⟩⟩ | ⟨-, heq, -⟩
      · exact hres.space
      · cases hr
      · cases heq
    obtain ⟨o, v, hrun', hspec⟩ := (uvmcreate_space hparent.pageTable.kmem).total
    rw [hrun'] at hchild
    rcases hspec with ⟨rfl, -⟩ | ⟨new, rfl, hnew, hmoves⟩
    · cases hchild
    · have hsame := hparent.frame hmoves nofun fun _ _ => Set.notMem_empty _
      have hapart : Apart v old new (numPages 10) 0 := by
        intro q hq hqn
        rw [hsame.owned] at hq
        exact ((hmoves.conserve q).mp (.inl hqn)).elim (Set.notMem_empty q) (hparent.notFree q hq)
      obtain ⟨r, w, hcopy, -, -, -, hend⟩ := uvmcopy_isolates hsame.maps hnew above_none hapart
      refine ⟨old, new, v, hsame.space, r, w, hcopy, ?_⟩
      exact hend.imp And.left And.left

end Vm

end Xv6
