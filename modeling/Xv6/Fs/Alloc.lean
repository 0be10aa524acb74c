import Xv6.Fs.Coherent

/-! # Block allocation

What `balloc` and `bfree` do, exactly, and that both keep the invariant: an allocated block is in
flight until it is attached to a place, a detached one until it is freed. -/

namespace Xv6.Fs

/-- The state after `balloc` returned `b`. -/
def allocated (s : Fs) (b : ℕ) : Fs :=
  { (s.putBit b true).setBuf b fun _ => Bytes.zero BSIZE with
    logged := b :: s.sb.BBLOCK b :: s.logged }

/-- The state after `bfree(b)`. -/
def freed (s : Fs) (b : ℕ) : Fs := { s.putBit b false with logged := s.sb.BBLOCK b :: s.logged }

/-- The state after `printf(msg)`. -/
def printed (s : Fs) (msg : String) : Fs := { s with console := s.console ++ [msg] }

variable {s : Fs} {D : ℕ → Dinode} {H : Fin NINODE → ℕ} {W X : Set ℕ} {E : Panic → Prop}
  {ip : Fin NINODE} {b c i k : ℕ}

/-! ## What `balloc` and `bfree` compute -/

theorem freeBit_eq_some {bp : Block} {lim bi : ℕ} (h : freeBit bp lim = some bi) :
    bi < lim ∧ bitAt bp bi = false ∧ ∀ j < bi, bitAt bp j = true := by
  obtain ⟨hbit, as, bs, hsplit, has⟩ := List.find?_eq_some_iff_append.mp h
  have hlen : as.length = bi := by
    have hget : (List.range lim)[as.length]? = some bi := by simp [hsplit]
    simpa using (List.getElem?_eq_some_iff.mp hget).2
  have hlt : bi < lim := by
    have := congrArg List.length hsplit
    simp at this
    omega
  refine ⟨hlt, by simpa using hbit, fun j hj => ?_⟩
  have hget : (List.range lim)[j]? = some j := List.getElem?_range (by omega)
  rw [hsplit, List.getElem?_append_left (by omega)] at hget
  simpa using has j (List.mem_of_getElem? hget)

theorem freeBit_eq_none {bp : Block} {lim : ℕ} (h : freeBit bp lim = none) :
    ∀ j < lim, bitAt bp j = true := by
  intro j hj
  have := List.find?_eq_none.mp h j (List.mem_range.mpr hj)
  simpa using this

/-- The bits of one block of the free map. -/
theorem bit_add (s : Fs) {b j : ℕ} (hb : b % BPB = 0) (hj : j < BPB) :
    s.bit (b + j) = bitAt (s.cache (s.sb.BBLOCK b)) j := by
  have h1 : (b + j) % BPB = j := by
    simp only [BPB, BSIZE] at *
    omega
  have h2 : s.sb.BBLOCK (b + j) = s.sb.BBLOCK b := by
    simp only [Superblock.BBLOCK, BPB, BSIZE] at *
    omega
  rw [bit, h1, h2]

/-- What `balloc` leaves behind: the first free block taken, or a message that there is none. -/
inductive Balloc (s : Fs) (lo : ℕ) : ℕ → Fs → Prop
  | full (h : ∀ c, lo ≤ c → c < s.sb.size → s.bit c = true) :
      Balloc s lo 0 (s.printed "balloc: out of blocks\n")
  | found (b : ℕ) (hlo : lo ≤ b) (hlt : b < s.sb.size) (hfree : s.bit b = false)
      (hfirst : ∀ c, lo ≤ c → c < b → s.bit c = true) : Balloc s lo b (s.allocated b)

theorem ballocFrom_spec (rounds : ℕ) {b : ℕ} (hb : b % BPB = 0)
    (hr : s.sb.size ≤ b + rounds * BPB) : Wp (ballocFrom rounds b) E (Balloc s b) s := by
  induction rounds generalizing b with
  | zero =>
    refine Balloc.full fun c hc hlt => ?_
    omega
  | succ rounds ih =>
    simp only [ballocFrom, bread, wp_bind, wp_get, wp_pure]
    have hmin : ∀ j, j < min BPB (s.sb.size - b) ↔ j < BPB ∧ b + j < s.sb.size := by
      intro j
      omega
    cases hfind : freeBit (s.cache (s.sb.BBLOCK b)) (min BPB (s.sb.size - b)) with
    | some bi =>
      obtain ⟨hlt, hbit, hbefore⟩ := freeBit_eq_some hfind
      obtain ⟨hbi, hsize⟩ := (hmin bi).mp hlt
      have hblk : s.sb.BBLOCK (b + bi) = s.sb.BBLOCK b := by
        simp only [Superblock.BBLOCK, BPB, BSIZE] at *
        omega
      have hmod : (b + bi) % BPB = bi := by
        simp only [BPB, BSIZE] at *
        omega
      have hfound := @Balloc.found s b (b + bi) (by omega) hsize
        (by rw [bit_add s hb hbi, hbit]) (fun c hc hcb => by
          obtain ⟨j, rfl⟩ := Nat.exists_eq_add_of_le hc
          rw [bit_add s hb (by omega)]
          exact hbefore j (by omega))
      simp only [allocated, putBit, hblk, hmod] at hfound
      exact hfound
    | none =>
      have hfull := freeBit_eq_none hfind
      have hskip : ∀ c, b ≤ c → c < b + BPB → c < s.sb.size → s.bit c = true := by
        intro c hc hcb hlt
        obtain ⟨j, rfl⟩ := Nat.exists_eq_add_of_le hc
        rw [bit_add s hb (by omega)]
        exact hfull j ((hmin j).mpr ⟨by omega, hlt⟩)
      have hb' : (b + BPB) % BPB = 0 := by rw [Nat.add_mod_right, hb]
      refine (ih hb' (by rw [Nat.succ_mul] at hr; omega)).mono fun r t hrt => ?_
      cases hrt with
      | full h =>
        refine Balloc.full fun c hc hlt => ?_
        by_cases hcb : c < b + BPB
        · exact hskip c hc hcb hlt
        · exact h c (by omega) hlt
      | found c hlo hlt hfree hfirst =>
        refine Balloc.found _ (by omega) hlt hfree fun e he hec => ?_
        by_cases heb : e < b + BPB
        · exact hskip e he heb (by omega)
        · exact hfirst e (by omega) hec

/-- **`balloc`** takes the first free block of the disk. -/
theorem balloc_spec : Wp balloc E (Balloc s 0) s := by
  have hr : s.sb.size ≤ 0 + (s.sb.size + BPB - 1) / BPB * BPB := by
    simp only [BPB, BSIZE]
    omega
  simp only [balloc, wp_bind, wp_get]
  exact ballocFrom_spec _ (Nat.zero_mod _) hr

/-- **`bfree`** clears the bit of a block in use. -/
theorem bfree_spec (hbit : s.bit b = true) : Wp (bfree b) E (fun _ t => t = s.freed b) s := by
  have hbit' : bitAt (s.cache (s.sb.BBLOCK b)) (b % BPB) = true := hbit
  simp only [bfree, bread, wp_bind, wp_get, wp_pure, hbit', if_true]
  rfl

/-! ## The views after an allocation or a release -/

@[simp] theorem allocated_sb (s : Fs) (b : ℕ) : (s.allocated b).sb = s.sb := rfl

@[simp] theorem allocated_itable (s : Fs) (b : ℕ) : (s.allocated b).itable = s.itable := rfl

@[simp] theorem freed_sb (s : Fs) (b : ℕ) : (s.freed b).sb = s.sb := rfl

@[simp] theorem freed_itable (s : Fs) (b : ℕ) : (s.freed b).itable = s.itable := rfl

theorem allocated_cache (s : Fs) (b : ℕ) :
    (s.allocated b).cache = ((s.putBit b true).setBuf b fun _ => Bytes.zero BSIZE).cache := rfl

/-- An allocated block is all zeros. -/
@[simp] theorem cache_allocated_same (s : Fs) (b : ℕ) :
    (s.allocated b).cache b = Bytes.zero BSIZE := by
  rw [allocated_cache, setBuf_same]

theorem cache_allocated (hwf : s.sb.WellFormed) (hb : b < s.sb.size) (hc : s.sb.dataStart ≤ c)
    (hne : c ≠ b) : (s.allocated b).cache c = s.cache c := by
  have h := cache_putBit hwf true (lt_of_lt_of_le hb s.sb.size_le_nbits) hc
  rw [allocated_cache, setBuf_ne _ _ hne, h]

theorem bit_allocated (hwf : s.sb.WellFormed) (hb : s.sb.dataStart ≤ b) (hc : c < s.sb.nbits) :
    (s.allocated b).bit c = if c = b then true else s.bit c := by
  rw [← bit_putBit]
  exact bit_of_data (s := s.putBit b true) hwf rfl hb (fun c hc => by rw [allocated_cache, setBuf_ne _ _ hc]) hc

theorem dinode_allocated (hwf : s.sb.WellFormed) (hb : s.sb.dataStart ≤ b)
    (hi : i < s.sb.ninodes) : (s.allocated b).dinode i = s.dinode i := by
  rw [← dinode_putBit hwf true hi]
  exact dinode_of_data (s := s.putBit b true) hwf rfl hb (fun c hc => by rw [allocated_cache, setBuf_ne _ _ hc]) hi

theorem bit_freed (s : Fs) (b c : ℕ) : (s.freed b).bit c = if c = b then false else s.bit c :=
  bit_putBit s b c false

theorem dinode_freed (hwf : s.sb.WellFormed) (b : ℕ) (hi : i < s.sb.ninodes) :
    (s.freed b).dinode i = s.dinode i := dinode_putBit hwf false hi

theorem cache_freed (hwf : s.sb.WellFormed) (hb : b < s.sb.size) (hc : s.sb.dataStart ≤ c) :
    (s.freed b).cache c = s.cache c :=
  cache_putBit hwf false (lt_of_lt_of_le hb s.sb.size_le_nbits) hc

namespace Coherent

/-- The invariant carries over to a state with the same inodes on disk and the same indirect
blocks. -/
theorem of_cache {t : Fs} {X' : Set ℕ} (h : s.Coherent D H W X) (hsb : t.sb = s.sb)
    (htable : t.itable = s.itable)
    (hdinode : ∀ i < s.sb.ninodes, i ∉ W → t.dinode i = s.dinode i)
    (hind : ∀ j < s.sb.ninodes, (D j).type ≠ 0 → (D j).addr NDIRECT ≠ 0 →
      t.cache ((D j).addr NDIRECT) = s.cache ((D j).addr NDIRECT))
    (hexact : Exact (s.place D) t.inUse X')
    (hmeta : ∀ b < s.sb.dataStart, t.bit b = true)
    (hend : ∀ b, s.sb.size ≤ b → b < s.sb.nbits → t.bit b = false) : t.Coherent D H W X' where
  wf := hsb ▸ h.wf
  exact := hexact.congr fun p => place_congr hsb rfl (fun _ _ => rfl) (hind p.1) p.2
  meta_bits := hsb ▸ hmeta
  end_bits := hsb ▸ hend
  sized := by
    intro i hi hiW ht
    rw [hsb] at hi
    have hs := h.sized i hi hiW ht
    refine ⟨hs.size_le, fun bn hbn => ?_⟩
    rw [blockOf, slot_congr (fun _ _ => rfl) (hind i hi ht)]
    exact hs.no_hole bn hbn
  synced := by
    intro i hi hiW
    rw [hsb] at hi
    rw [hdinode i hi hiW, h.synced i hi hiW]
  table := by
    refine ⟨fun ip => ?_, fun ip hip => ?_, fun ip jp hip hjp heq => ?_, fun ip hip hv hiW => ?_⟩
    · rw [htable]
      exact h.table.ref_eq ip
    · rw [htable, hsb]
      exact h.table.inum_lt ip hip
    · rw [htable] at heq
      exact h.table.inum_inj ip jp hip hjp heq
    · rw [htable] at hv hiW ⊢
      exact h.table.valid_eq ip hip hv hiW

/-- The bits of blocks that are not data blocks tell a free block to be one. -/
theorem isData_of_free (h : s.Coherent D H W X) (hlt : b < s.sb.size) (hfree : s.bit b = false) :
    s.sb.IsData b := by
  refine ⟨?_, hlt⟩
  by_contra hb
  rw [h.meta_bits b (by omega)] at hfree
  cases hfree

/-- A block that `balloc` finds is not block 0, and the blocks in use are as before. -/
theorem allocated_keeps (h : s.Coherent D H W X) (hlt : b < s.sb.size) (hfree : s.bit b = false) :
    b ≠ 0 ∧ ∀ c, s.sb.IsData c → s.bit c = true → (s.allocated b).cache c = s.cache c := by
  have hpos := h.wf.dataStart_pos
  have hdata := (h.isData_of_free hlt hfree).1
  exact ⟨by omega, fun c hc hbit => cache_allocated h.wf hlt hc.1 (ne_of_values hbit hfree nofun)⟩

/-- **Allocation** keeps the invariant, with the block in flight. -/
theorem allocated (h : s.Coherent D H W X) (hlt : b < s.sb.size) (hfree : s.bit b = false) :
    (s.allocated b).Coherent D H W (insert b X) := by
  have hdata := h.isData_of_free hlt hfree
  have hnot : b ∉ s.inUse := fun hb => by
    rw [hb.2] at hfree
    cases hfree
  have hsize := s.sb.size_le_nbits
  refine h.of_cache rfl rfl (fun i hi _ => dinode_allocated h.wf hdata.1 hi) ?_ ?_ ?_ ?_
  · intro j hj ht ha
    have hused := h.inUse_of_place (place_indirect hj ht ha)
    refine cache_allocated h.wf hlt hused.1.1 ?_
    rintro heq
    rw [heq, hfree] at hused
    exact absurd hused.2 (by simp)
  · refine (h.exact.take hnot).congr_used fun c => ?_
    show s.sb.IsData c ∧ (s.allocated b).bit c = true ↔ c = b ∨ s.sb.IsData c ∧ s.bit c = true
    rcases eq_or_ne c b with rfl | hcb
    · simp [hdata, bit_allocated h.wf hdata.1 (lt_of_lt_of_le hlt hsize)]
    · by_cases hc : s.sb.IsData c
      · simp [hc, hcb, bit_allocated h.wf hdata.1 (lt_of_lt_of_le hc.2 hsize)]
      · simp [hc, hcb]
  · intro c hc
    have := h.wf.dataStart_le
    rw [bit_allocated h.wf hdata.1 (by omega), h.meta_bits c hc]
    simp
  · intro c hc hcn
    rw [bit_allocated h.wf hdata.1 hcn, if_neg (by omega), h.end_bits c hc hcn]

/-- **Freeing** a block in flight keeps the invariant. -/
theorem freed (h : s.Coherent D H W X) (hb : b ∈ X) : (s.freed b).Coherent D H W (X \ {b}) := by
  have hused := h.exact.mem_of_inFlight hb
  refine h.of_cache rfl rfl (fun i hi _ => dinode_freed h.wf b hi) ?_ ?_ ?_ ?_
  · intro j hj ht ha
    exact cache_freed h.wf hused.1.2 (h.inUse_of_place (place_indirect hj ht ha)).1.1
  · refine (h.exact.give hb).congr_used fun c => ?_
    show s.sb.IsData c ∧ (s.freed b).bit c = true ↔ (s.sb.IsData c ∧ s.bit c = true) ∧ c ≠ b
    rw [bit_freed]
    by_cases hcb : c = b <;> simp [hcb]
  · intro c hc
    have := hused.1.1
    rw [bit_freed, if_neg (by omega), h.meta_bits c hc]
  · intro c hc hcn
    have := hused.1.2
    rw [bit_freed, if_neg (by omega), h.end_bits c hc hcn]

end Coherent

end Xv6.Fs
