import Xv6.Fs.Bmap

/-! # Truncation

`itrunc` detaches every block of an inode and frees it. While it frees the entries of the indirect
block these are in flight: the inode no longer owns them, and they are not free yet. -/

namespace Xv6

open Function

/-- The inode without its first `k` addresses. -/
def Dinode.dropAddrs (d : Dinode) (k : ℕ) : Dinode :=
  { d with addrs := fun j => if j.1 < k then 0 else d.addrs j }

theorem Dinode.dropAddrs_succ (d : Dinode) (k : ℕ) :
    d.dropAddrs (k + 1) = (d.dropAddrs k).setAddr k 0 := by
  unfold dropAddrs setAddr
  congr 1
  funext j
  by_cases hj : j.1 = k
  · simp [hj]
  · have : j.1 < k + 1 ↔ j.1 < k := by omega
    simp [hj, this]

@[simp] theorem Dinode.dropAddrs_zero (d : Dinode) : d.dropAddrs 0 = d := by
  unfold dropAddrs
  simp

theorem Dinode.setAddr_eq_self {d : Dinode} {k b : ℕ} (h : d.addr k = b) (hk : k < NDIRECT + 1) :
    d.setAddr k b = d := by
  unfold setAddr
  congr 1
  funext j
  by_cases hj : j.1 = k
  · rw [if_pos hj, ← h, addr, dif_pos hk]
    congr 1
    exact Fin.ext hj.symm
  · rw [if_neg hj]

/-- An inode with no blocks. -/
def Dinode.emptied (d : Dinode) : Dinode := { d with size := 0, addrs := fun _ => 0 }

theorem Dinode.addr_eq_zero {d : Dinode} (h : d.addrs = fun _ => 0) (k : ℕ) : d.addr k = 0 := by
  unfold addr
  split
  · rw [h]
  · rfl

theorem Dinode.emptied_fits (d : Dinode) : d.emptied.Fits :=
  ⟨by simp [emptied], fun _ => by simp [emptied]⟩

namespace Fs

variable {s t : Fs} {D : ℕ → Dinode} {H : Fin NINODE → ℕ} {W X X' : Set ℕ} {E : Panic → Prop}
  {ip : Fin NINODE} {a b c i j k : ℕ} {d : Dinode}

/-- An inode without addresses holds no block. -/
theorem place_of_addrs_zero (h : (D i).addrs = fun _ => 0) (l : ℕ) : s.place D (i, l) = none := by
  refine place_eq_none_of_slot ?_
  by_cases hl : l < NDIRECT + 1
  · rw [slot_of_le hl, Dinode.addr_eq_zero h]
  · exact slot_of_ge_zero (by omega) (Dinode.addr_eq_zero h NDIRECT)

/-! ## Writing an inode back -/

/-- What `iupdate` does: the on-disk inode is replaced by the in-memory copy. -/
structure Updated (s : Fs) (D : ℕ → Dinode) (H : Fin NINODE → ℕ) (X : Set ℕ) (ip : Fin NINODE)
    (i : ℕ) (d : Dinode) (t : Fs) : Prop where
  coherent : t.Coherent D H {i} X
  locked : t.Locked H ip i d
  dinode_eq : t.dinode i = d
  touches : Touches ip i s D t D
  cache_eq : ∀ c, s.sb.dataStart ≤ c → t.cache c = s.cache c
  itable_eq : t.itable = s.itable
  console_eq : t.console = s.console

theorem iupdate_spec (h : s.Coherent D H {i} X) (hl : s.Locked H ip i d) (hd : d.Fits) :
    Wp (iupdate ip) E (fun _ t => s.Updated D H X ip i d t) s := by
  have hi : i < s.sb.ninodes := hl.inum ▸ h.inum_lt hl.held
  simp only [iupdate, inode, modifyBuf, logWrite, wp_bind, wp_get, wp_pure, wp_modify, hl.inum,
    hl.copy]
  have hcache : ∀ c, s.sb.dataStart ≤ c → (s.putDinode i d).cache c = s.cache c := fun c hc =>
    cache_putDinode h.wf d hi hc
  refine ⟨(h.putDinode (Set.mem_singleton i) hi hd).congr rfl rfl rfl,
    ⟨hl.held, hl.inum, hl.valid, hl.copy⟩, ?_, ?_, hcache, rfl, rfl⟩
  · have := dinode_putDinode s (i := i) hd i
    rwa [if_pos rfl] at this
  · exact ⟨rfl, rfl, fun _ _ => rfl, ⟨rfl, rfl, rfl, rfl⟩, fun _ _ => rfl,
      fun j l b _ hb => hcache b (h.inUse_of_place hb).1.1⟩

/-! ## Detaching blocks -/

/-- The nonzero entries of an indirect block from entry `k` on. -/
def wordsFrom (blk : Block) (k : ℕ) : Set ℕ :=
  {c | c ≠ 0 ∧ ∃ j, k ≤ j ∧ j < NINDIRECT ∧ wordAt blk j = c}

namespace Coherent

/-- Clearing a direct address puts its block in flight. -/
theorem detach_addr (h : s.Coherent D H W X) (hiW : i ∈ W) (hi : i < s.sb.ninodes)
    (ht : (D i).type ≠ 0) (hk : k < NDIRECT) (hb : (D i).addr k ≠ 0) :
    s.Coherent (update D i ((D i).setAddr k 0)) H W (insert ((D i).addr k) X) := by
  have hk1 : k < NDIRECT + 1 := by omega
  have hkp : k < NPLACE := lt_of_lt_of_le hk1 (Nat.le_add_right _ _)
  have hind : ((D i).setAddr k 0).addr NDIRECT = (D i).addr NDIRECT := by
    rw [Dinode.addr_setAddr _ _ _ hk1, if_neg (by omega)]
  refine h.put hiW _ (h.exact.detach_one (i := (i, k)) ?_ ?_ ?_)
  · exact place_eq_some.mpr ⟨hi, ht, hkp, slot_of_le hk1, hb⟩
  · refine place_eq_none_of_slot ?_
    rw [update_self, slot_of_le hk1, Dinode.addr_setAddr _ _ _ hk1, if_pos rfl]
  · rintro ⟨j, l⟩ hne
    rcases eq_or_ne j i with rfl | hji
    · have hlk : l ≠ k := fun h => hne (by rw [h])
      have hslot : s.slot ((D j).setAddr k 0) l = s.slot (D j) l := by
        by_cases hl : l < NDIRECT + 1
        · rw [slot_of_le hl, slot_of_le hl, Dinode.addr_setAddr _ _ _ hk1, if_neg hlk]
        · rw [slot, slot, if_neg hl, if_neg hl, hind]
      simp only [place, update_self, hslot, Dinode.setAddr_type]
    · simp only [place, update_of_ne hji]

/-- Fields other than the type and the addresses may change freely. -/
theorem setMeta {d' : Dinode} (h : s.Coherent D H W X) (hiW : i ∈ W) (htype : d'.type = (D i).type)
    (haddr : d'.addrs = (D i).addrs) : s.Coherent (update D i d') H W X := by
  refine h.replace hiW d' fun l => ?_
  refine place_congr (D := D) rfl (by rw [update_self, htype]) (fun k _ => ?_)
    (fun _ _ _ => rfl) l
  rw [update_self, Dinode.addr, Dinode.addr, haddr]

/-- Clearing the indirect address puts the indirect block and all its entries in flight. -/
theorem detach_indirect (h : s.Coherent D H W ∅) (hiW : i ∈ W) (hi : i < s.sb.ninodes)
    (ht : (D i).type ≠ 0) (ha : (D i).addr NDIRECT ≠ 0) :
    s.Coherent (update D i ((D i).setAddr NDIRECT 0)) H W
      (insert ((D i).addr NDIRECT) (wordsFrom (s.cache ((D i).addr NDIRECT)) 0)) := by
  have hk : NDIRECT < NDIRECT + 1 := by decide
  have h0 : ((D i).setAddr NDIRECT 0).addr NDIRECT = 0 := by
    rw [Dinode.addr_setAddr _ _ _ hk, if_pos rfl]
  have hdetach := @Exact.detach _ _ _ (s.place (update D i ((D i).setAddr NDIRECT 0))) _ _
    h.exact {p | p.1 = i ∧ NDIRECT ≤ p.2} ?_ ?_
  · refine h.put hiW _ ?_
    convert hdetach using 1
    ext c
    simp only [Set.empty_union, Set.mem_insert_iff, Set.mem_ofPred_eq, Prod.exists, wordsFrom]
    constructor
    · rintro (rfl | ⟨hc, j, -, hj, rfl⟩)
      · exact ⟨i, NDIRECT, ⟨rfl, le_rfl⟩, place_indirect hi ht ha⟩
      · refine ⟨i, NDIRECT + 1 + j, ⟨rfl, by omega⟩, place_eq_some.mpr ⟨hi, ht, ?_, ?_, hc⟩⟩
        · simp only [NPLACE]
          omega
        · rw [slot_of_ge (by omega) ha, Nat.add_sub_cancel_left]
    · rintro ⟨j, l, ⟨rfl, hl⟩, hp⟩
      obtain ⟨-, -, hlp, hslot, hc⟩ := place_eq_some.mp hp
      rcases Nat.eq_or_lt_of_le hl with rfl | hlt
      · rw [slot_of_le hk] at hslot
        exact Or.inl hslot.symm
      · rw [slot_of_ge (by omega) ha] at hslot
        refine Or.inr ⟨hc, l - (NDIRECT + 1), Nat.zero_le _, ?_, hslot⟩
        simp only [NPLACE] at hlp
        omega
  · rintro ⟨j, l⟩ ⟨rfl, hl⟩
    refine place_eq_none_of_slot ?_
    rw [update_self]
    rcases Nat.eq_or_lt_of_le hl with rfl | hlt
    · rw [slot_of_le hk, h0]
    · exact slot_of_ge_zero (by omega) h0
  · rintro ⟨j, l⟩ hnot
    rcases eq_or_ne j i with rfl | hji
    · have hl : l < NDIRECT := by
        by_contra hl
        exact hnot ⟨rfl, by omega⟩
      have hslot : s.slot ((D j).setAddr NDIRECT 0) l = s.slot (D j) l := by
        rw [slot_of_le (by omega), slot_of_le (by omega), Dinode.addr_setAddr _ _ _ hk,
          if_neg (by omega)]
      simp only [place, update_self, hslot, Dinode.setAddr_type]
    · simp only [place, update_of_ne hji]

theorem place_word (hi : i < s.sb.ninodes) (ht : (D i).type ≠ 0) (ha : (D i).addr NDIRECT ≠ 0)
    (hk : k < NINDIRECT) (hne : wordAt (s.cache ((D i).addr NDIRECT)) k ≠ 0) :
    s.place D (i, NDIRECT + 1 + k) = some (wordAt (s.cache ((D i).addr NDIRECT)) k) := by
  refine place_eq_some.mpr ⟨hi, ht, ?_, ?_, hne⟩
  · simp only [NPLACE]
    omega
  · rw [slot_of_ge (by omega) ha, Nat.add_sub_cancel_left]

/-- The entries of an indirect block are different blocks, and none of them is the block itself. -/
theorem words_distinct (h : s.Coherent D H W X) (hi : i < s.sb.ninodes) (ht : (D i).type ≠ 0)
    (ha : (D i).addr NDIRECT ≠ 0) (hk : k < NINDIRECT)
    (hne : wordAt (s.cache ((D i).addr NDIRECT)) k ≠ 0) :
    wordAt (s.cache ((D i).addr NDIRECT)) k ≠ (D i).addr NDIRECT ∧
    ∀ j < NINDIRECT, wordAt (s.cache ((D i).addr NDIRECT)) j =
      wordAt (s.cache ((D i).addr NDIRECT)) k → j = k := by
  have hp := place_word hi ht ha hk hne
  constructor
  · intro heq
    have := h.exact.inj hp (heq ▸ place_indirect hi ht ha)
    simp only [Prod.mk.injEq] at this
    omega
  · intro j hj heq
    have := h.exact.inj (place_word hi ht ha hj (heq ▸ hne)) (heq ▸ hp)
    simp only [Prod.mk.injEq] at this
    omega

end Coherent

/-! ## `itrunc` -/

theorem Locked.of_itable (h : s.Locked H ip i d) (heq : t.itable = s.itable) :
    t.Locked H ip i d :=
  ⟨h.held, by rw [heq]; exact h.inum, by rw [heq]; exact h.valid, by rw [heq]; exact h.copy⟩

/-- What truncating does on the way: inode `i` has become `d`, the blocks in `X` are still to be
freed. -/
structure Truncating (s : Fs) (D : ℕ → Dinode) (H : Fin NINODE → ℕ) (ip : Fin NINODE) (i : ℕ)
    (d : Dinode) (X : Set ℕ) (t : Fs) : Prop where
  coherent : t.Coherent (update D i d) H {i} X
  touches : Touches ip i s D t (update D i d)
  cache_eq : ∀ c, s.sb.dataStart ≤ c → t.cache c = s.cache c
  console_eq : t.console = s.console

/-- Freeing one of the blocks still to be freed. -/
theorem Truncating.bfree (h : s.Truncating D H ip i d X t) (hb : b ∈ X) :
    Wp (bfree b) E (fun _ u => s.Truncating D H ip i d (X \ {b}) u ∧ u.itable = t.itable) t := by
  have hused := h.coherent.exact.mem_of_inFlight hb
  refine (bfree_spec hused.2).mono fun _ u hu => ?_
  subst hu
  have hcache : ∀ c, s.sb.dataStart ≤ c → (t.freed b).cache c = s.cache c := by
    intro c hc
    rw [cache_freed h.coherent.wf hused.1.2 (by rw [h.touches.sb]; exact hc), h.cache_eq c hc]
  refine ⟨⟨h.coherent.freed hb, ⟨h.touches.sb, h.touches.disk, h.touches.table, h.touches.entry,
    h.touches.others, fun j l c hj hc => ?_⟩, hcache, h.console_eq⟩, rfl⟩
  have := h.coherent.inUse_of_place (by rw [h.touches.place_eq hj, hc])
  rw [h.touches.sb] at this
  exact hcache c this.1.1

/-- The in-memory copy may change on the way. -/
theorem Truncating.setInode {d0 d' : Dinode} (h : s.Truncating D H ip i d X t)
    (hl : t.Locked H ip i d0) (f : Inode → Inode) (hinum : (f (t.itable ip)).inum = (t.itable ip).inum)
    (href : (f (t.itable ip)).ref = (t.itable ip).ref)
    (hvalid : (f (t.itable ip)).valid = (t.itable ip).valid)
    (htype : (f (t.itable ip)).type = (t.itable ip).type)
    (hcopy : (f (t.itable ip)).toDinode = d') :
    s.Truncating D H ip i d X (t.setInode ip f) ∧ (t.setInode ip f).Locked H ip i d' := by
  obtain ⟨he1, he2, he3⟩ := h.touches.entry
  refine ⟨⟨h.coherent.setInode ip f (by simp [hl.inum]) hinum href, ⟨h.touches.sb, h.touches.disk,
    fun jp hjp => ?_, ?_, h.touches.others, h.touches.blocks⟩, h.cache_eq, h.console_eq⟩,
    hl.held, ?_, ?_, ?_⟩
  · rw [setInode_ne _ _ hjp]
    exact h.touches.table jp hjp
  · rw [setInode_same, hinum, href, hvalid, htype]
    exact ⟨he1, he2, he3⟩
  · rw [setInode_same, hinum, hl.inum]
  · rw [setInode_same, hvalid, hl.valid]
  · rw [setInode_same, hcopy]

/-- The loop over the direct addresses. -/
theorem itruncAddr_spec (h : s.Truncating D H ip i d ∅ t) (hl : t.Locked H ip i d)
    (ht : d.type ≠ 0) (hk : k < NDIRECT) :
    Wp (itruncAddr ip k) E (fun _ u => s.Truncating D H ip i (d.setAddr k 0) ∅ u ∧
      u.Locked H ip i (d.setAddr k 0)) t := by
  have hi : i < t.sb.ninodes := hl.inum ▸ h.coherent.inum_lt hl.held
  have hcopy : (t.itable ip).addr k = d.addr k := by
    show (t.itable ip).toDinode.addr k = _
    rw [hl.copy]
  have hDi : update D i d i = d := update_self _ _ _
  simp only [itruncAddr, inode, wp_bind, wp_get, wp_pure, hcopy]
  by_cases h0 : d.addr k = 0
  · rw [if_pos h0, wp_pure, Dinode.setAddr_eq_self h0 (by omega)]
    exact ⟨h, hl⟩
  · rw [if_neg h0, wp_bind]
    -- the block is in flight from here on: the inode gives it up before it is freed
    have hdetach := h.coherent.detach_addr (k := k) (Set.mem_singleton i) hi (by rw [hDi]; exact ht)
      hk (by rw [hDi]; exact h0)
    rw [hDi, update_idem] at hdetach
    have hstart : s.Truncating D H ip i (d.setAddr k 0) (insert (d.addr k) ∅) t := by
      refine ⟨hdetach, ⟨h.touches.sb, h.touches.disk, h.touches.table, h.touches.entry,
        fun j hj => ?_, h.touches.blocks⟩, h.cache_eq, h.console_eq⟩
      rw [update_of_ne hj]
    refine (hstart.bfree (Set.mem_insert _ _)).mono ?_
    rintro _ u ⟨hu, hitable⟩
    have hX : (insert (d.addr k) ∅ : Set ℕ) \ {d.addr k} = ∅ := by simp
    rw [hX] at hu
    simp only [modifyInode, wp_modify]
    refine hu.setInode (hl.of_itable hitable) _ rfl rfl rfl rfl ?_
    show (u.itable ip).toDinode.setAddr k 0 = d.setAddr k 0
    rw [hitable, hl.copy]

theorem itruncDirect_spec (h : s.Coherent D H {i} ∅) (hl : s.Locked H ip i (D i))
    (ht : (D i).type ≠ 0) :
    Wp ((List.range NDIRECT).forM (itruncAddr ip)) E
      (fun _ t => s.Truncating D H ip i ((D i).dropAddrs NDIRECT) ∅ t ∧
        t.Locked H ip i ((D i).dropAddrs NDIRECT)) s := by
  refine wp_forM_range (fun k t => s.Truncating D H ip i ((D i).dropAddrs k) ∅ t ∧
    t.Locked H ip i ((D i).dropAddrs k)) NDIRECT ?_ fun k hk t hI => ?_
  · rw [Dinode.dropAddrs_zero]
    refine ⟨⟨?_, ?_, fun _ _ => rfl, rfl⟩, hl⟩
    · rwa [update_eq_self]
    · rw [update_eq_self]
      exact Touches.refl _ _ _ _
  · rw [Dinode.dropAddrs_succ]
    exact itruncAddr_spec hI.1 hI.2 ht hk

/-- The loop over the entries of the indirect block `a`: those from entry `k` on and the block
itself are still to be freed. -/
theorem itruncWords_spec {blk : Block} (h : s.Truncating D H ip i d (insert a (wordsFrom blk 0)) t)
    (hdistinct : ∀ k < NINDIRECT, wordAt blk k ≠ 0 →
      wordAt blk k ≠ a ∧ ∀ j < NINDIRECT, wordAt blk j = wordAt blk k → j = k) :
    Wp ((List.range NINDIRECT).forM (itruncWord blk)) E
      (fun _ u => s.Truncating D H ip i d {a} u ∧ u.itable = t.itable) t := by
  have hloop := wp_forM_range (E := E) (s := t) (f := itruncWord blk)
    (fun k u => s.Truncating D H ip i d (insert a (wordsFrom blk k)) u ∧ u.itable = t.itable)
    NINDIRECT ⟨h, rfl⟩ fun k hk u hI => ?_
  · refine hloop.mono fun _ u hu => ?_
    have hend : insert a (wordsFrom blk NINDIRECT) = {a} := by
      have : wordsFrom blk NINDIRECT = ∅ := by
        ext c
        simp only [wordsFrom, Set.mem_ofPred_eq, Set.mem_empty_iff_false, iff_false]
        rintro ⟨-, j, h1, h2, -⟩
        omega
      rw [this]
      simp
    rwa [hend] at hu
  · obtain ⟨hI, hitable⟩ := hI
    unfold itruncWord
    by_cases h0 : wordAt blk k = 0
    · rw [if_pos h0, wp_pure]
      refine ⟨?_, hitable⟩
      have hsame : wordsFrom blk (k + 1) = wordsFrom blk k := by
        ext c
        simp only [wordsFrom, Set.mem_ofPred_eq]
        refine and_congr_right fun hc => ⟨fun ⟨j, h1, h2⟩ => ⟨j, by omega, h2⟩, fun ⟨j, h1, h2, h3⟩ => ?_⟩
        refine ⟨j, ?_, h2, h3⟩
        rcases Nat.eq_or_lt_of_le h1 with rfl | hlt
        · exact absurd (h3.symm.trans h0) hc
        · exact hlt
      rwa [hsame]
    · rw [if_neg h0]
      have hmem : wordAt blk k ∈ insert a (wordsFrom blk k) :=
        Set.mem_insert_of_mem _ ⟨h0, k, le_rfl, hk, rfl⟩
      refine (hI.bfree hmem).mono fun _ v hv => ⟨?_, hv.2.trans hitable⟩
      -- no other entry is that block, so one entry less is left
      have hrest : insert a (wordsFrom blk k) \ {wordAt blk k} = insert a (wordsFrom blk (k + 1)) := by
        obtain ⟨hne, huniq⟩ := hdistinct k hk h0
        ext c
        simp only [Set.mem_sdiff, Set.mem_insert_iff, Set.mem_singleton_iff, wordsFrom,
          Set.mem_ofPred_eq]
        constructor
        · rintro ⟨rfl | ⟨hc, j, h1, h2, h3⟩, hcw⟩
          · exact Or.inl rfl
          · refine Or.inr ⟨hc, j, ?_, h2, h3⟩
            rcases Nat.eq_or_lt_of_le h1 with rfl | hlt
            · exact absurd h3.symm hcw
            · exact hlt
        · rintro (rfl | ⟨hc, j, h1, h2, h3⟩)
          · exact ⟨Or.inl rfl, Ne.symm hne⟩
          · refine ⟨Or.inr ⟨hc, j, by omega, h2, h3⟩, fun hcw => ?_⟩
            have := huniq j h2 (h3.trans hcw)
            omega
      rw [← hrest]
      exact hv.1

/-- The block that frees the indirect block and its entries. -/
theorem itruncIndirect_spec (h : s.Truncating D H ip i d ∅ t) (hl : t.Locked H ip i d)
    (ht : d.type ≠ 0) :
    Wp (if d.addr NDIRECT = 0 then return () else do
        let a ← bread (d.addr NDIRECT)
        (List.range NINDIRECT).forM (itruncWord a)
        bfree (d.addr NDIRECT)
        modifyInode ip fun e => { e with toDinode := e.setAddr NDIRECT 0 } : FsM Unit) E
      (fun _ u => s.Truncating D H ip i (d.setAddr NDIRECT 0) ∅ u ∧
        u.Locked H ip i (d.setAddr NDIRECT 0)) t := by
  have hi : i < t.sb.ninodes := hl.inum ▸ h.coherent.inum_lt hl.held
  have hDi : update D i d i = d := update_self _ _ _
  by_cases h0 : d.addr NDIRECT = 0
  · rw [if_pos h0, wp_pure, Dinode.setAddr_eq_self h0 (by decide)]
    exact ⟨h, hl⟩
  · rw [if_neg h0]
    simp only [bread, wp_bind, wp_get, wp_pure]
    have hdetach := h.coherent.detach_indirect (Set.mem_singleton i) hi (by rw [hDi]; exact ht)
      (by rw [hDi]; exact h0)
    rw [hDi, update_idem] at hdetach
    have hdistinct : ∀ k < NINDIRECT, wordAt (t.cache (d.addr NDIRECT)) k ≠ 0 →
        wordAt (t.cache (d.addr NDIRECT)) k ≠ d.addr NDIRECT ∧ ∀ j < NINDIRECT,
          wordAt (t.cache (d.addr NDIRECT)) j = wordAt (t.cache (d.addr NDIRECT)) k → j = k := by
      intro k hk hne
      have := h.coherent.words_distinct (k := k) hi (by rw [hDi]; exact ht)
        (by rw [hDi]; exact h0) hk (by rw [hDi]; exact hne)
      rwa [hDi] at this
    have hstart : s.Truncating D H ip i (d.setAddr NDIRECT 0)
        (insert (d.addr NDIRECT) (wordsFrom (t.cache (d.addr NDIRECT)) 0)) t := by
      refine ⟨hdetach, ⟨h.touches.sb, h.touches.disk, h.touches.table, h.touches.entry,
        fun j hj => ?_, h.touches.blocks⟩, h.cache_eq, h.console_eq⟩
      rw [update_of_ne hj]
    refine (itruncWords_spec hstart hdistinct).mono ?_
    rintro _ u ⟨hu, hitable⟩
    refine (hu.bfree (Set.mem_singleton _)).bind ?_
    rintro _ v ⟨hv, hitable'⟩
    rw [Set.sdiff_self] at hv
    simp only [modifyInode, wp_modify]
    have hitable : v.itable = t.itable := hitable'.trans hitable
    refine hv.setInode (hl.of_itable hitable) _ rfl rfl rfl rfl ?_
    show (v.itable ip).toDinode.setAddr NDIRECT 0 = d.setAddr NDIRECT 0
    rw [hitable, hl.copy]

/-- What `itrunc` does: the inode has become empty, in memory and on disk, and nothing else has
changed. -/
structure Truncated (s : Fs) (D : ℕ → Dinode) (H : Fin NINODE → ℕ) (ip : Fin NINODE) (i : ℕ)
    (t : Fs) : Prop where
  coherent : t.Coherent (update D i (D i).emptied) H {i} ∅
  locked : t.Locked H ip i (D i).emptied
  dinode_eq : t.dinode i = (D i).emptied
  touches : Touches ip i s D t (update D i (D i).emptied)
  console_eq : t.console = s.console

theorem Dinode.emptied_eq (d : Dinode) :
    { (d.dropAddrs NDIRECT).setAddr NDIRECT 0 with size := 0 } = d.emptied := by
  refine Dinode.ext rfl rfl rfl rfl rfl ?_
  funext j
  have hj : j.1 < NDIRECT + 1 := j.2
  show (if j.1 = NDIRECT then 0 else if j.1 < NDIRECT then 0 else d.addrs j) = 0
  by_cases hjn : j.1 = NDIRECT
  · rw [if_pos hjn]
  · rw [if_neg hjn, if_pos (by omega)]

/-- **`itrunc`** frees the blocks of the inode, and those only. -/
theorem itrunc_spec (h : s.Coherent D H {i} ∅) (hl : s.Locked H ip i (D i))
    (ht : (D i).type ≠ 0) : Wp (itrunc ip) E (fun _ t => s.Truncated D H ip i t) s := by
  unfold itrunc
  refine (itruncDirect_spec h hl ht).bind ?_
  rintro _ t1 ⟨h1, hl1⟩
  have haddr : (t1.itable ip).addr NDIRECT = ((D i).dropAddrs NDIRECT).addr NDIRECT := by
    show (t1.itable ip).toDinode.addr NDIRECT = _
    rw [hl1.copy]
  simp only [inode, wp_bind, wp_get, wp_pure, haddr]
  refine (itruncIndirect_spec h1 hl1 ht).mono ?_
  rintro _ t2 ⟨h2, hl2⟩
  simp only [modifyInode, wp_bind, wp_modify]
  obtain ⟨h3, hl3⟩ := @Truncating.setInode _ _ _ _ _ _ _ _ _ (D i).emptied h2 hl2
    (fun e => { e with size := 0 }) rfl rfl rfl rfl (by
      rw [← Dinode.emptied_eq]
      show { (t2.itable ip).toDinode with size := 0 } = _
      rw [hl2.copy])
  set t3 := t2.setInode ip fun e => { e with size := 0 }
  -- from here on the inode is the empty one
  have hcoh : t3.Coherent (update D i (D i).emptied) H {i} ∅ := by
    have := @Coherent.setMeta _ _ _ _ _ i (D i).emptied h3.coherent (Set.mem_singleton i)
      (by rw [update_self]; rfl)
      (by rw [update_self, ← Dinode.emptied_eq])
    rwa [update_idem] at this
  have htouch : Touches ip i s D t3 (update D i (D i).emptied) :=
    ⟨h3.touches.sb, h3.touches.disk, h3.touches.table, h3.touches.entry,
      fun j hj => update_of_ne hj _ _, h3.touches.blocks⟩
  refine (iupdate_spec hcoh hl3 (Dinode.emptied_fits _)).mono fun _ t hu => ?_
  exact ⟨hu.coherent, hu.locked, hu.dinode_eq, htouch.trans hu.touches,
    hu.console_eq.trans h3.console_eq⟩

end Fs

end Xv6
