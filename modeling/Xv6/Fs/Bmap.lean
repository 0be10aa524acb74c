import Xv6.Fs.Alloc

/-! # Attaching and detaching blocks

`bmap` attaches a fresh block to a place of an inode, `itrunc` detaches and frees them all. Both
keep the invariant for an inode that is under change, and touch nothing else. -/

namespace Xv6

open Function

namespace Fs

variable {s t : Fs} {D : ℕ → Dinode} {H : Fin NINODE → ℕ} {W X X' : Set ℕ} {E : Panic → Prop}
  {ip : Fin NINODE} {b c i j k : ℕ} {d : Dinode}

/-! ## Changing the parts of a state -/

@[simp] theorem setInode_sb (s : Fs) (ip : Fin NINODE) (f : Inode → Inode) :
    (s.setInode ip f).sb = s.sb := rfl

@[simp] theorem setInode_cache (s : Fs) (ip : Fin NINODE) (f : Inode → Inode) :
    (s.setInode ip f).cache = s.cache := rfl

theorem wp_inode {E : Panic → Prop} {Q : Inode → Fs → Prop} :
    Wp (inode ip) E Q s ↔ Q (s.itable ip) s := Iff.rfl

@[simp] theorem setInode_same (s : Fs) (ip : Fin NINODE) (f : Inode → Inode) :
    (s.setInode ip f).itable ip = f (s.itable ip) := by
  simp [setInode]

theorem setInode_ne (s : Fs) {ip jp : Fin NINODE} (f : Inode → Inode) (h : jp ≠ ip) :
    (s.setInode ip f).itable jp = s.itable jp := by
  simp [setInode, h]

namespace Coherent

/-- The in-memory copy of an inode under change may be changed. -/
theorem setInode (h : s.Coherent D H W X) (ip : Fin NINODE) (f : Inode → Inode)
    (hW : (s.itable ip).inum ∈ W) (hinum : (f (s.itable ip)).inum = (s.itable ip).inum)
    (href : (f (s.itable ip)).ref = (s.itable ip).ref) : (s.setInode ip f).Coherent D H W X := by
  have hinum' : ∀ jp, ((s.setInode ip f).itable jp).inum = (s.itable jp).inum := by
    intro jp
    rcases eq_or_ne jp ip with rfl | hjp
    · rw [setInode_same, hinum]
    · rw [setInode_ne s f hjp]
  refine ⟨h.wf, h.exact, h.meta_bits, h.end_bits,
    fun i hi hiW ht => ⟨(h.sized i hi hiW ht).1, (h.sized i hi hiW ht).2⟩, h.synced, ?_⟩
  refine ⟨fun jp => ?_, fun jp hjp => ?_, fun jp kp hjp hkp heq => ?_, fun jp hjp hv hiW => ?_⟩
  · rcases eq_or_ne jp ip with rfl | hjp
    · rw [setInode_same, href]
      exact h.table.ref_eq jp
    · rw [setInode_ne s f hjp]
      exact h.table.ref_eq jp
  · rw [hinum' jp]
    exact h.table.inum_lt jp hjp
  · rw [hinum', hinum'] at heq
    exact h.table.inum_inj jp kp hjp hkp heq
  · have hne : jp ≠ ip := by
      rintro rfl
      rw [hinum' jp] at hiW
      exact hiW hW
    rw [setInode_ne s f hne] at hv hiW ⊢
    exact h.table.valid_eq jp hjp hv hiW

/-- The on-disk copy of an inode under change may be changed. -/
theorem putDinode (h : s.Coherent D H W X) (hiW : i ∈ W) (hi : i < s.sb.ninodes) {d : Dinode}
    (hd : d.Fits) : (s.putDinode i d).Coherent D H W X := by
  have hused : (s.putDinode i d).inUse = s.inUse :=
    inUse_congr rfl fun c _ => bit_putDinode h.wf d hi c
  refine h.of_cache rfl rfl (fun j hj hjW => ?_) (fun j hj ht ha => ?_) ?_ (fun c hc => ?_)
    (fun c hc hcn => ?_)
  · rw [dinode_putDinode s hd, if_neg (by rintro rfl; exact hjW hiW)]
  · exact cache_putDinode h.wf d hi (h.inUse_of_place (place_indirect hj ht ha)).1.1
  · rw [hused]
    exact h.exact
  · rw [bit_putDinode h.wf d hi]
    exact h.meta_bits c hc
  · rw [bit_putDinode h.wf d hi]
    exact h.end_bits c hc hcn

/-- A data block that is nobody's indirect block may be overwritten. -/
theorem setBuf (h : s.Coherent D H W X) (hc : s.sb.dataStart ≤ c) (f : Block → Block)
    (hind : ∀ j < s.sb.ninodes, (D j).type ≠ 0 → (D j).addr NDIRECT ≠ 0 →
      (D j).addr NDIRECT ≠ c) : (s.setBuf c f).Coherent D H W X := by
  have hcache : ∀ b, b ≠ c → (s.setBuf c f).cache b = s.cache b := fun b hb => setBuf_ne s f hb
  have hbit : ∀ b < s.sb.nbits, (s.setBuf c f).bit b = s.bit b := fun b hb =>
    bit_of_data h.wf rfl hc hcache hb
  have hsize := s.sb.size_le_nbits
  have hstart := h.wf.dataStart_le
  have hused : (s.setBuf c f).inUse = s.inUse := inUse_congr rfl fun b hb => hbit b (by omega)
  refine h.of_cache rfl rfl (fun j hj _ => dinode_of_data h.wf rfl hc hcache hj)
    (fun j hj ht ha => hcache _ (hind j hj ht ha)) ?_ (fun b hb => ?_) (fun b hb hbn => ?_)
  · rw [hused]
    exact h.exact
  · rw [hbit b (by omega)]
    exact h.meta_bits b hb
  · rw [hbit b hbn]
    exact h.end_bits b hb hbn

/-- The inode that is under change may be replaced, if ownership stays exact. -/
theorem put (h : s.Coherent D H W X) (hiW : i ∈ W) (d : Dinode)
    (hexact : Exact (s.place (update D i d)) s.inUse X') :
    s.Coherent (update D i d) H W X' := by
  have hD : ∀ j, j ∉ W → update D i d j = D j := fun j hj =>
    update_of_ne (by rintro rfl; exact hj hiW) _ _
  refine ⟨h.wf, hexact, h.meta_bits, h.end_bits, fun j hj hjW => ?_, fun j hj hjW => ?_,
    h.table.ref_eq, h.table.inum_lt, h.table.inum_inj, fun jp hjp hv hjW => ?_⟩
  · rw [hD j hjW]
    exact h.sized j hj hjW
  · rw [hD j hjW]
    exact h.synced j hj hjW
  · rw [hD _ hjW]
    exact h.table.valid_eq jp hjp hv hjW

/-- The inode under change may be replaced by one with the same blocks. -/
theorem replace (h : s.Coherent D H W X) (hiW : i ∈ W) (d : Dinode)
    (hplace : ∀ l, s.place (update D i d) (i, l) = s.place D (i, l)) :
    s.Coherent (update D i d) H W X := by
  refine h.put hiW d (h.exact.congr fun p => ?_)
  obtain ⟨j, l⟩ := p
  rcases eq_or_ne j i with rfl | hji
  · exact hplace l
  · simp only [place, update_of_ne hji]

/-- A block in flight may be stored in an empty address of an inode under change. -/
theorem attach_addr (h : s.Coherent D H W X) (hiW : i ∈ W) (hi : i < s.sb.ninodes)
    (ht : (D i).type ≠ 0) (hk : k < NDIRECT + 1) (h0 : (D i).addr k = 0) (hb : b ∈ X)
    (hzero : k = NDIRECT → s.cache b = Bytes.zero BSIZE) :
    s.Coherent (update D i ((D i).setAddr k b)) H W (X \ {b}) := by
  have hdata := (h.exact.mem_of_inFlight hb).1.1
  have hb0 : b ≠ 0 := by
    have := h.wf.dataStart_pos
    omega
  have hkp : k < NPLACE := lt_of_lt_of_le hk (Nat.le_add_right _ _)
  refine h.put hiW _ (h.exact.attach (i := (i, k)) hb ?_ ?_ ?_)
  · exact place_eq_none_of_slot (by rw [slot_of_le hk, h0])
  · refine place_eq_some.mpr ⟨hi, by simpa using ht, hkp, ?_, hb0⟩
    rw [update_self, slot_of_le hk, Dinode.addr_setAddr _ _ _ hk, if_pos rfl]
  · rintro ⟨j, l⟩ hne
    rcases eq_or_ne j i with rfl | hji
    · have hlk : l ≠ k := fun h => hne (by rw [h])
      -- the other slots of `j`: a new indirect block is all zeros
      have hslot : s.slot ((D j).setAddr k b) l = s.slot (D j) l := by
        by_cases hl : l < NDIRECT + 1
        · rw [slot_of_le hl, slot_of_le hl, Dinode.addr_setAddr _ _ _ hk, if_neg hlk]
        · by_cases hkn : k = NDIRECT
          · have hind : ((D j).setAddr k b).addr NDIRECT = b := by
              rw [Dinode.addr_setAddr _ _ _ hk, if_pos hkn.symm]
            rw [slot_of_ge (by omega) (by rw [hind]; exact hb0), hind, hzero hkn, wordAt_zero,
              slot_of_ge_zero (by omega) (by rw [← hkn, h0])]
          · have hind : ((D j).setAddr k b).addr NDIRECT = (D j).addr NDIRECT := by
              rw [Dinode.addr_setAddr _ _ _ hk, if_neg (Ne.symm hkn)]
            rw [slot, slot, if_neg hl, if_neg hl, hind]
      simp only [place, update_self, hslot, Dinode.setAddr_type]
    · simp only [place, update_of_ne hji]

/-- An indirect block belongs to one inode only. -/
theorem indirect_ne (h : s.Coherent D H W X) (hp : s.place D (i, k) = some b)
    (hk : k ≠ NDIRECT ∨ j ≠ i) (hj : j < s.sb.ninodes) (htj : (D j).type ≠ 0)
    (ha : (D j).addr NDIRECT ≠ 0) : (D j).addr NDIRECT ≠ b := by
  intro heq
  have := h.exact.inj (place_indirect hj htj ha) (heq ▸ hp)
  simp only [Prod.mk.injEq] at this
  rcases hk with hk | hk
  · exact hk this.2.symm
  · exact hk this.1

/-- A block in flight may be stored in an empty entry of an indirect block. -/
theorem attach_word (h : s.Coherent D H W X) (hiW : i ∈ W) (hi : i < s.sb.ninodes)
    (ht : (D i).type ≠ 0) (ha : (D i).addr NDIRECT ≠ 0) (hk : k < NINDIRECT)
    (h0 : wordAt (s.cache ((D i).addr NDIRECT)) k = 0) (hb : b ∈ X) :
    (s.setBuf ((D i).addr NDIRECT) (setWord · k b)).Coherent D H W (X \ {b}) := by
  set a := (D i).addr NDIRECT with hadef
  set t := s.setBuf a (setWord · k b) with htdef
  have hbdata := (h.exact.mem_of_inFlight hb).1
  have hpa : s.place D (i, NDIRECT) = some a := place_indirect hi ht ha
  have hadata := (h.inUse_of_place hpa).1
  have hcache : ∀ c, c ≠ a → t.cache c = s.cache c := fun c hc => setBuf_ne s _ hc
  have hother : ∀ j < s.sb.ninodes, j ≠ i → (D j).type ≠ 0 → (D j).addr NDIRECT ≠ 0 →
      t.cache ((D j).addr NDIRECT) = s.cache ((D j).addr NDIRECT) := fun j hj hji htj haj =>
    hcache _ (h.indirect_ne hpa (Or.inr hji) hj htj haj)
  have hb0 : b ≠ 0 := by
    have := h.wf.dataStart_pos
    have := hbdata.1
    omega
  have hb32 : b < 2 ^ 32 := by
    have := h.wf.size_lt
    have := hbdata.2
    omega
  have hword : ∀ l, wordAt (t.cache a) l = if l = k then b else wordAt (s.cache a) l := by
    intro l
    rw [htdef, setBuf_same, wordAt_setWord _ hk hb32]
  have hbit : ∀ c < s.sb.nbits, t.bit c = s.bit c := fun c hc =>
    bit_of_data h.wf rfl hadata.1 hcache hc
  have hsize := s.sb.size_le_nbits
  have hstart := h.wf.dataStart_le
  have hused : t.inUse = s.inUse := inUse_congr rfl fun c hc => hbit c (by omega)
  have hkp : NDIRECT + 1 + k < NPLACE := by
    simp only [NPLACE]
    omega
  have hslot : ∀ l, t.slot (D i) l = if l = NDIRECT + 1 + k then b else s.slot (D i) l := by
    intro l
    by_cases hl : l < NDIRECT + 1
    · rw [slot_of_le hl, slot_of_le hl, if_neg (by omega)]
    · rw [slot_of_ge (by omega) ha, slot_of_ge (by omega) ha, ← hadef, hword]
      by_cases hlk : l = NDIRECT + 1 + k
      · rw [if_pos (by omega), if_pos hlk]
      · rw [if_neg (by omega), if_neg hlk]
  refine ⟨h.wf, ?_, fun c hc => ?_, fun c hc hcn => ?_, fun j hj hjW htj => ?_, fun j hj hjW => ?_,
    h.table.ref_eq, h.table.inum_lt, h.table.inum_inj, h.table.valid_eq⟩
  · rw [hused]
    refine h.exact.attach (i := (i, NDIRECT + 1 + k)) hb ?_ ?_ ?_
    · refine place_eq_none_of_slot ?_
      rw [slot_of_ge (by omega) ha, ← hadef, Nat.add_sub_cancel_left, h0]
    · exact place_eq_some.mpr ⟨hi, ht, hkp, by rw [hslot, if_pos rfl], hb0⟩
    · rintro ⟨j, l⟩ hne
      rcases eq_or_ne j i with rfl | hji
      · have hl : l ≠ NDIRECT + 1 + k := fun h => hne (by rw [h])
        have : t.slot (D j) l = s.slot (D j) l := by rw [hslot, if_neg hl]
        simp only [place, this]
        rfl
      · exact place_congr (s := s) (t := t) (D := D) rfl rfl (fun _ _ => rfl)
          (fun hj => hother j hj hji) l
  · rw [hbit c (lt_of_lt_of_le hc (by show s.sb.dataStart ≤ _; omega))]
    exact h.meta_bits c hc
  · rw [hbit c hcn]
    exact h.end_bits c hc hcn
  · have hji : j ≠ i := by
      rintro rfl
      exact hjW hiW
    have hs := h.sized j hj hjW htj
    refine ⟨hs.size_le, fun bn hbn => ?_⟩
    rw [blockOf, slot_congr (fun _ _ => rfl) (hother j hj hji htj)]
    exact hs.no_hole bn hbn
  · rw [dinode_of_data (t := t) h.wf rfl hadata.1 hcache hj]
    exact h.synced j hj hjW

end Coherent

/-! ## `bmap` -/

/-- The message of a failed `balloc`. -/
abbrev outOfBlocks : String := "balloc: out of blocks\n"

/-- What the first step of `bmap` does to the inode `i` under change. -/
structure AddrMapped (s : Fs) (D : ℕ → Dinode) (H : Fin NINODE → ℕ) (ip : Fin NINODE) (i k : ℕ)
    (addr : ℕ) (t : Fs) (d : Dinode) : Prop where
  coherent : t.Coherent (update D i d) H {i} ∅
  locked : t.Locked H ip i d
  touches : Touches ip i s D t (update D i d)
  addrs_only : ∃ A, d = { D i with addrs := A }
  addr_eq : d.addr k = addr
  addr_ne : ∀ l < NDIRECT + 1, l ≠ k → d.addr l = (D i).addr l
  keeps : ∀ b, s.sb.IsData b → s.bit b = true → t.cache b = s.cache b
  fresh : (D i).addr k = 0 → addr ≠ 0 → t.cache addr = Bytes.zero BSIZE
  same : (D i).addr k ≠ 0 → t = s
  full : addr = 0 → t.console = s.console ++ [outOfBlocks]
  found : addr ≠ 0 → t.console = s.console

theorem bmapAddr_spec (h : s.Coherent D H {i} ∅) (hl : s.Locked H ip i (D i)) (ht : (D i).type ≠ 0)
    (hk : k < NDIRECT + 1) :
    Wp (bmapAddr ip k) E (fun addr t => ∃ d, AddrMapped s D H ip i k addr t d) s := by
  have hi : i < s.sb.ninodes := hl.inum ▸ h.inum_lt hl.held
  have hcopy : (s.itable ip).addr k = (D i).addr k := by
    show (s.itable ip).toDinode.addr k = _
    rw [hl.copy]
  have hself : update D i (D i) = D := update_eq_self i D
  simp only [bmapAddr, inode, wp_bind, wp_get, wp_pure, hcopy]
  by_cases h0 : (D i).addr k = 0
  · rw [if_pos h0, wp_bind]
    refine balloc_spec.mono fun addr t hb => ?_
    cases hb with
    | full _ =>
      -- nothing was allocated: only the message is new
      simp only [if_true, wp_pure]
      refine ⟨D i, ?_, ⟨hl.held, hl.inum, hl.valid, hl.copy⟩, ?_, ⟨_, rfl⟩, h0,
        fun _ _ _ => rfl, fun _ _ _ => rfl, fun _ hne => absurd rfl hne,
        fun hne => absurd h0 hne, fun _ => rfl, fun hne => absurd rfl hne⟩
      · rw [hself]
        exact h.congr rfl rfl rfl
      · rw [hself]
        exact ⟨rfl, rfl, fun _ _ => rfl, ⟨rfl, rfl, rfl, rfl⟩, fun _ _ => rfl, fun _ _ _ _ _ => rfl⟩
    | found _ _ hlt hfree _ =>
      obtain ⟨hb0, hkeeps⟩ := h.allocated_keeps hlt hfree
      have hcoh : (s.allocated addr).Coherent (update D i ((D i).setAddr k addr)) H {i} ∅ := by
        have := (h.allocated hlt hfree).attach_addr (k := k) (b := addr) (Set.mem_singleton i) hi ht
          hk h0 (Set.mem_insert addr ∅) (fun _ => cache_allocated_same s addr)
        simpa using this
      simp only [if_neg hb0, modifyInode, wp_bind, wp_modify, wp_pure]
      refine ⟨(D i).setAddr k addr, hcoh.setInode ip _ (by simp [hl.inum]) rfl rfl,
        ⟨hl.held, ?_, ?_, ?_⟩, ?_, ⟨_, rfl⟩, ?_, ?_, hkeeps, fun _ _ => cache_allocated_same s addr,
        fun hne => absurd h0 hne, fun h => absurd h hb0, fun _ => rfl⟩
      · simp [hl.inum]
      · simp [hl.valid]
      · simp [hl.copy]
      · refine ⟨rfl, rfl, fun jp hjp => setInode_ne _ _ hjp, by simp, fun j hj => ?_, ?_⟩
        · exact update_of_ne hj _ _
        · intro j l c _ hc
          have := h.inUse_of_place hc
          exact hkeeps c this.1 this.2
      · rw [Dinode.addr_setAddr _ _ _ hk, if_pos rfl]
      · intro l _ hlk
        rw [Dinode.addr_setAddr _ _ _ hk, if_neg hlk]
  · rw [if_neg h0, wp_pure]
    refine ⟨D i, ?_, hl, ?_, ⟨_, rfl⟩, rfl, fun _ _ _ => rfl, fun _ _ _ => rfl,
      fun h => absurd h h0, fun _ => rfl, fun h => absurd h h0, fun _ => rfl⟩
    · rw [hself]
      exact h
    · rw [hself]
      exact Touches.refl _ _ _ _

namespace AddrMapped

variable {addr : ℕ}

/-- The block numbers that were there stay where they were. -/
theorem slot_eq (h : s.AddrMapped D H ip i k addr t d) (hc : s.Coherent D H {i} ∅)
    (hl : s.Locked H ip i (D i)) (ht : (D i).type ≠ 0) {l : ℕ} (hne : s.slot (D i) l ≠ 0) :
    t.slot d l = s.slot (D i) l := by
  by_cases hk : (D i).addr k = 0
  · have haddr : ∀ l < NDIRECT + 1, (D i).addr l ≠ 0 → d.addr l = (D i).addr l := by
      intro l hl hne
      refine h.addr_ne l hl ?_
      rintro rfl
      exact hne hk
    by_cases hlt : l < NDIRECT + 1
    · rw [slot_of_le hlt] at hne
      rw [slot_of_le hlt, slot_of_le hlt, haddr l hlt hne]
    · have ha : (D i).addr NDIRECT ≠ 0 := by
        intro ha
        exact hne (slot_of_ge_zero (by omega) ha)
      have ha' := haddr NDIRECT (by decide) ha
      have hi : i < s.sb.ninodes := hl.inum ▸ hc.inum_lt hl.held
      have hused := hc.inUse_of_place (place_indirect hi ht ha)
      rw [slot_of_ge (by omega) (by rw [ha']; exact ha), slot_of_ge (by omega) ha, ha',
        h.keeps _ hused.1 hused.2]
  · obtain rfl := h.same hk
    rw [← h.locked.copy, hl.copy]

end AddrMapped

/-- What `bmap` does to the inode `i` under change: it keeps the blocks the inode has and their
contents, and finds or adds block `bn`. -/
structure Mapped (s : Fs) (D : ℕ → Dinode) (H : Fin NINODE → ℕ) (ip : Fin NINODE) (i bn : ℕ)
    (addr : ℕ) (t : Fs) (d : Dinode) : Prop where
  coherent : t.Coherent (update D i d) H {i} ∅
  locked : t.Locked H ip i d
  touches : Touches ip i s D t (update D i d)
  addrs_only : ∃ A, d = { D i with addrs := A }
  blockOf_eq : ∀ n < MAXFILE, s.blockOf (D i) n ≠ 0 → t.blockOf d n = s.blockOf (D i) n
  cache_eq : ∀ n < MAXFILE, s.blockOf (D i) n ≠ 0 →
    t.cache (s.blockOf (D i) n) = s.cache (s.blockOf (D i) n)
  at_bn : addr ≠ 0 → t.blockOf d bn = addr
  same : s.blockOf (D i) bn ≠ 0 → t = s ∧ addr = s.blockOf (D i) bn
  full : addr = 0 → t.console = s.console ++ [outOfBlocks]
  found : addr ≠ 0 → t.console = s.console

/-- The place of a file block is not the one of the indirect block. -/
theorem blockPlace_ne (n : ℕ) : (if n < NDIRECT then n else n + 1) ≠ NDIRECT := by
  split <;> omega

theorem place_blockOf (hi : i < s.sb.ninodes) (ht : (D i).type ≠ 0) {n : ℕ} (hn : n < MAXFILE)
    (hne : s.blockOf (D i) n ≠ 0) :
    s.place D (i, if n < NDIRECT then n else n + 1) = some (s.blockOf (D i) n) :=
  place_eq_some.mpr ⟨hi, ht, blockOf_lt hn, rfl, hne⟩

theorem AddrMapped.mapped {addr bn : ℕ} (h : s.AddrMapped D H ip i bn addr t d)
    (hc : s.Coherent D H {i} ∅) (hl : s.Locked H ip i (D i)) (ht : (D i).type ≠ 0)
    (hbn : bn < NDIRECT) : s.Mapped D H ip i bn addr t d := by
  have hi : i < s.sb.ninodes := hl.inum ▸ hc.inum_lt hl.held
  have hblock : ∀ (u : Fs) (d : Dinode), u.blockOf d bn = d.addr bn := by
    intro u d
    rw [blockOf, if_pos hbn, slot_of_le (by omega)]
  refine ⟨h.coherent, h.locked, h.touches, h.addrs_only,
    fun n _ hne => h.slot_eq hc hl ht hne, fun n hn hne => ?_, fun _ => ?_, fun hne => ?_,
    h.full, h.found⟩
  · have hused := hc.inUse_of_place (place_blockOf hi ht hn hne)
    exact h.keeps _ hused.1 hused.2
  · rw [hblock, h.addr_eq]
  · rw [hblock] at hne ⊢
    obtain rfl := h.same hne
    have hd : d = D i := h.locked.copy.symm.trans hl.copy
    exact ⟨rfl, by rw [← h.addr_eq, hd]⟩

theorem bmapWord_spec (h : s.Coherent D H {i} ∅) (hl : s.Locked H ip i (D i))
    (ht : (D i).type ≠ 0) (ha : (D i).addr NDIRECT ≠ 0) (hk : k < NINDIRECT) :
    Wp (bmapWord ((D i).addr NDIRECT) k) E
      (fun addr t => s.Mapped D H ip i (NDIRECT + k) addr t (D i)) s := by
  have hi : i < s.sb.ninodes := hl.inum ▸ h.inum_lt hl.held
  have hself : update D i (D i) = D := update_eq_self i D
  have hblock : ∀ u : Fs, u.blockOf (D i) (NDIRECT + k) =
      wordAt (u.cache ((D i).addr NDIRECT)) k := by
    intro u
    rw [blockOf, if_neg (by omega), slot_of_ge (by omega) ha]
    congr 1
    omega
  simp only [bmapWord, bread, wp_bind, wp_get, wp_pure]
  by_cases h0 : wordAt (s.cache ((D i).addr NDIRECT)) k = 0
  · rw [if_pos h0, wp_bind]
    have hnone : s.blockOf (D i) (NDIRECT + k) = 0 := by rw [hblock, h0]
    refine balloc_spec.mono fun addr t hb => ?_
    cases hb with
    | full _ =>
      simp only [if_true, wp_pure]
      refine ⟨?_, ⟨hl.held, hl.inum, hl.valid, hl.copy⟩, ?_, ⟨_, rfl⟩, fun _ _ _ => rfl,
        fun _ _ _ => rfl, fun hne => absurd rfl hne, fun hne => absurd hnone hne, fun _ => rfl,
        fun hne => absurd rfl hne⟩
      · rw [hself]
        exact h.congr rfl rfl rfl
      · rw [hself]
        exact ⟨rfl, rfl, fun _ _ => rfl, ⟨rfl, rfl, rfl, rfl⟩, fun _ _ => rfl, fun _ _ _ _ _ => rfl⟩
    | found _ _ hlt hfree _ =>
      obtain ⟨hb0, hkeeps⟩ := h.allocated_keeps hlt hfree
      have hpa := place_indirect hi ht ha
      have hkeepa := hkeeps _ (h.inUse_of_place hpa).1 (h.inUse_of_place hpa).2
      set t := (s.allocated addr).setBuf ((D i).addr NDIRECT) (setWord · k addr) with htdef
      have hcoh : t.Coherent D H {i} ∅ := by
        have := (h.allocated hlt hfree).attach_word (k := k) (b := addr) (Set.mem_singleton i) hi
          ht ha hk (by rw [hkeepa, h0]) (Set.mem_insert addr ∅)
        simpa using this
      -- blocks in use other than this indirect block are as before
      have hcache : ∀ j l c, s.place D (j, l) = some c → (l ≠ NDIRECT ∨ j ≠ i) →
          t.cache c = s.cache c := by
        intro j l c hc hne
        have hca : c ≠ (D i).addr NDIRECT := by
          rintro rfl
          have := h.exact.inj hc hpa
          simp only [Prod.mk.injEq] at this
          exact hne.elim (fun hn => hn this.2) (fun hn => hn this.1)
        rw [htdef, setBuf_ne _ _ hca, hkeeps c (h.inUse_of_place hc).1 (h.inUse_of_place hc).2]
      have haddr32 : addr < 2 ^ 32 := by
        have := h.wf.size_lt
        omega
      have hword : ∀ l, wordAt (t.cache ((D i).addr NDIRECT)) l =
          if l = k then addr else wordAt (s.cache ((D i).addr NDIRECT)) l := by
        intro l
        rw [htdef, setBuf_same, wordAt_setWord _ hk haddr32, hkeepa]
      simp only [if_neg hb0, modifyBuf, logWrite, wp_bind, wp_modify, wp_pure]
      refine ⟨?_, ⟨hl.held, hl.inum, hl.valid, hl.copy⟩, ?_, ⟨_, rfl⟩, fun n hn hne => ?_,
        fun n hn hne => ?_, fun _ => ?_, fun hne => absurd hnone hne, fun h => absurd h hb0,
        fun _ => rfl⟩
      · rw [hself]
        exact hcoh.congr rfl rfl rfl
      · rw [hself]
        exact ⟨rfl, rfl, fun _ _ => rfl, ⟨rfl, rfl, rfl, rfl⟩, fun _ _ => rfl,
          fun j l c hj hc => hcache j l c hc (Or.inr hj)⟩
      · show t.blockOf (D i) n = s.blockOf (D i) n
        by_cases hdir : n < NDIRECT
        · rw [blockOf, blockOf, if_pos hdir, slot_of_le (by omega), slot_of_le (by omega)]
        · obtain ⟨l, rfl⟩ := Nat.exists_eq_add_of_le (Nat.le_of_not_lt hdir)
          have hlk : l ≠ k := by
            rintro rfl
            exact hne hnone
          rw [blockOf, blockOf, if_neg hdir, slot_of_ge (by omega) ha, slot_of_ge (by omega) ha,
            hword, if_neg (by omega)]
      · exact hcache i _ _ (place_blockOf hi ht hn hne) (Or.inl (blockPlace_ne n))
      · show t.blockOf (D i) (NDIRECT + k) = addr
        rw [hblock, hword, if_pos rfl]
  · rw [if_neg h0, wp_pure]
    refine ⟨?_, hl, ?_, ⟨_, rfl⟩, fun _ _ _ => rfl, fun _ _ _ => rfl, fun _ => hblock s,
      fun _ => ⟨rfl, (hblock s).symm⟩, fun h => absurd h h0, fun _ => rfl⟩
    · rw [hself]
      exact h
    · rw [hself]
      exact Touches.refl _ _ _ _

/-- **`bmap`** finds block `bn` of the inode or adds one, and changes nothing else. -/
theorem bmap_spec (h : s.Coherent D H {i} ∅) (hl : s.Locked H ip i (D i)) (ht : (D i).type ≠ 0)
    {bn : ℕ} (hbn : bn < MAXFILE) :
    Wp (bmap ip bn) E (fun addr t => ∃ d, s.Mapped D H ip i bn addr t d) s := by
  have hi : i < s.sb.ninodes := hl.inum ▸ h.inum_lt hl.held
  unfold bmap
  by_cases hdir : bn < NDIRECT
  · rw [if_pos hdir]
    refine (bmapAddr_spec h hl ht (by omega)).mono fun addr t ⟨d, hm⟩ => ?_
    exact ⟨d, hm.mapped h hl ht hdir⟩
  · obtain ⟨k, rfl⟩ := Nat.exists_eq_add_of_le (Nat.le_of_not_lt hdir)
    have hk : k < NINDIRECT := by
      simp only [MAXFILE] at hbn
      omega
    rw [if_neg hdir, Nat.add_sub_cancel_left, if_pos hk]
    refine (bmapAddr_spec h hl ht (by decide)).bind fun a s1 ⟨d1, hm⟩ => ?_
    have hslot : ∀ n, s.blockOf (D i) n ≠ 0 → s1.blockOf d1 n = s.blockOf (D i) n :=
      fun n hne => hm.slot_eq h hl ht hne
    have hcache : ∀ n < MAXFILE, s.blockOf (D i) n ≠ 0 →
        s1.cache (s.blockOf (D i) n) = s.cache (s.blockOf (D i) n) := by
      intro n hn hne
      have hused := h.inUse_of_place (place_blockOf hi ht hn hne)
      exact hm.keeps _ hused.1 hused.2
    -- an indirect block that was there is the one found
    have hsame : s.blockOf (D i) (NDIRECT + k) ≠ 0 → s1 = s ∧ d1 = D i := by
      intro hne
      have ha : (D i).addr NDIRECT ≠ 0 := by
        intro h0
        refine hne ?_
        rw [blockOf, if_neg hdir, slot_of_ge_zero (by omega) h0]
      obtain rfl := hm.same ha
      exact ⟨rfl, hm.locked.copy.symm.trans hl.copy⟩
    rcases eq_or_ne a 0 with rfl | ha
    · simp only [if_true, wp_pure]
      refine ⟨d1, hm.coherent, hm.locked, hm.touches, hm.addrs_only, fun n _ => hslot n, hcache,
        fun hne => absurd rfl hne, fun hne => ?_, hm.full, hm.found⟩
      obtain ⟨-, rfl⟩ := hsame hne
      exact absurd (by rw [blockOf, if_neg hdir, slot_of_ge_zero (by omega) hm.addr_eq]) hne
    · rw [if_neg ha]
      have hD1 : update D i d1 i = d1 := update_self _ _ _
      have ha1 : (update D i d1 i).addr NDIRECT = a := by rw [hD1, hm.addr_eq]
      have ht1 : (update D i d1 i).type ≠ 0 := by
        obtain ⟨A, rfl⟩ := hm.addrs_only
        rw [hD1]
        exact ht
      have hspec := bmapWord_spec (E := E) hm.coherent (by rw [hD1]; exact hm.locked) ht1
        (by rw [ha1]; exact ha) hk
      rw [ha1, hD1] at hspec
      refine hspec.mono fun addr t hw => ?_
      have hupd : update (update D i d1) i d1 = update D i d1 :=
        update_idem _ _ _
      have hcoh := hw.coherent
      have htouch := hw.touches
      have hb := hw.blockOf_eq
      have hce := hw.cache_eq
      have hs := hw.same
      rw [hupd] at hcoh htouch
      rw [hD1] at hb hce hs
      refine ⟨d1, hcoh, hw.locked, hm.touches.trans htouch, hm.addrs_only, fun n hn hne => ?_,
        fun n hn hne => ?_, hw.at_bn, fun hne => ?_, fun h0 => ?_, fun hne => ?_⟩
      · rw [hb n hn (by rw [hslot n hne]; exact hne), hslot n hne]
      · have := hce n hn (by rw [hslot n hne]; exact hne)
        rw [hslot n hne] at this
        rw [this, hcache n hn hne]
      · obtain ⟨rfl, rfl⟩ := hsame hne
        exact hs hne
      · rw [hw.full h0, hm.found ha]
      · rw [hw.found hne, hm.found ha]

end Fs

end Xv6
