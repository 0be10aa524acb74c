import Xv6.Fs.Itrunc

/-! # What the file system code logs

Code that runs between `begin_op` and `end_op` changes a buffer and then passes it to `log_write`.
`Logs s t B` says that the code from `s` to `t` did so, and that the blocks it logged are in `B`. -/

namespace Xv6

open Function

/-- The blocks that `balloc` logs when it returns `b`. -/
def Superblock.allocBlocks (sb : Superblock) (b : ℕ) : Set ℕ :=
  {c | b ≠ 0 ∧ (c = b ∨ c = sb.BBLOCK b)}

namespace Fs

/-- Every buffer changed between `s` and `t` is logged, and only blocks in `B` were logged. -/
structure Logs (s t : Fs) (B : Set ℕ) : Prop where
  sb : t.sb = s.sb
  disk : t.disk = s.disk
  mem : ∀ b ∈ t.logged, b ∈ s.logged ∨ b ∈ B
  keeps : ∀ b ∈ s.logged, b ∈ t.logged
  changed : ∀ b, t.cache b ≠ s.cache b → b ∈ t.logged

variable {s t u : Fs} {D : ℕ → Dinode} {H : Fin NINODE → ℕ} {W X B B' : Set ℕ} {E : Panic → Prop}
  {ip : Fin NINODE} {a b c i k bn : ℕ}

namespace Logs

theorem of_eq (hsb : t.sb = s.sb) (hcache : t.cache = s.cache) (hdisk : t.disk = s.disk)
    (hlogged : t.logged = s.logged) : Logs s t B :=
  ⟨hsb, hdisk, fun _ hb => Or.inl (hlogged ▸ hb), fun _ hb => hlogged.symm ▸ hb,
    fun b hb => absurd (congrFun hcache b) hb⟩

theorem refl (s : Fs) : Logs s s B := of_eq rfl rfl rfl rfl

theorem mono (h : Logs s t B) (hB : B ⊆ B') : Logs s t B' :=
  ⟨h.sb, h.disk, fun b hb => (h.mem b hb).imp_right fun hb => hB hb, h.keeps, h.changed⟩

theorem trans (h : Logs s t B) (h' : Logs t u B') : Logs s u (B ∪ B') where
  sb := h'.sb.trans h.sb
  disk := h'.disk.trans h.disk
  mem := by
    intro b hb
    rcases h'.mem b hb with hb | hb
    · exact (h.mem b hb).imp_right Or.inl
    · exact Or.inr (Or.inr hb)
  keeps := fun b hb => h'.keeps b (h.keeps b hb)
  changed := by
    intro b hb
    by_cases heq : u.cache b = t.cache b
    · exact h'.keeps b (h.changed b (heq ▸ hb))
    · exact h'.changed b heq

/-- Two steps that log blocks of the same set. -/
theorem trans_self (h : Logs s t B) (h' : Logs t u B) : Logs s u B :=
  Set.union_self B ▸ h.trans h'

/-- A buffer is changed and logged. -/
theorem write (s : Fs) (b : ℕ) (f : Block → Block) :
    Logs s { s.setBuf b f with logged := b :: s.logged } {b} where
  sb := rfl
  disk := rfl
  mem := fun c hc => (List.mem_cons.mp hc).symm
  keeps := fun c hc => List.mem_cons_of_mem b hc
  changed := by
    intro c hc
    by_cases hcb : c = b
    · rw [hcb]
      exact List.mem_cons_self
    · exact absurd (setBuf_ne s f hcb) hc

end Logs

theorem iupdate_logs (s : Fs) (ip : Fin NINODE) :
    Wp (iupdate ip) E (fun _ t => Logs s t {s.sb.IBLOCK (s.itable ip).inum} ∧ t.itable = s.itable) s :=
  ⟨Logs.write s _ _, rfl⟩

/-! ## Allocation -/

theorem Logs.allocated (s : Fs) (hb : b ≠ 0) : Logs s (s.allocated b) (s.sb.allocBlocks b) := by
  have hbit : Logs s { s.putBit b true with logged := s.sb.BBLOCK b :: s.logged } {s.sb.BBLOCK b} :=
    Logs.write s _ _
  refine (hbit.trans (Logs.write _ b fun _ => Bytes.zero BSIZE)).mono ?_
  rintro c (rfl | rfl)
  · exact ⟨hb, Or.inr rfl⟩
  · exact ⟨hb, Or.inl rfl⟩

theorem balloc_logs (h : s.Coherent D H W X) :
    Wp balloc E (fun b t => Logs s t (s.sb.allocBlocks b) ∧ t.itable = s.itable ∧
      (b ≠ 0 → b ∈ t.logged)) s := by
  refine balloc_spec.mono fun b t hb => ?_
  cases hb with
  | full _ => exact ⟨Logs.of_eq rfl rfl rfl rfl, rfl, fun h => absurd rfl h⟩
  | found _ _ hlt hfree _ =>
    -- block 0 is never free
    have hpos := h.wf.dataStart_pos
    have hdata := (h.isData_of_free hlt hfree).1
    exact ⟨Logs.allocated s (by omega), rfl, fun _ => List.mem_cons_self⟩

/-! ## `bmap` -/

theorem bmapAddr_logs (h : s.Coherent D H W X) (ip : Fin NINODE) (k : ℕ) :
    Wp (bmapAddr ip k) E (fun addr t => Logs s t (s.sb.allocBlocks addr) ∧
      ((s.itable ip).addr k = 0 → addr ≠ 0 → addr ∈ t.logged)) s := by
  simp only [bmapAddr, inode, wp_bind, wp_get, wp_pure]
  rw [wp_ite]
  refine ⟨fun _ => ?_, fun hne => ⟨Logs.refl s, fun h0 => absurd h0 hne⟩⟩
  refine (balloc_logs h).bind ?_
  rintro addr t ⟨ht, _, hmem⟩
  rw [wp_ite]
  refine ⟨fun h0 => ?_, fun _ => ?_⟩
  · subst h0
    exact ⟨ht, fun _ hne => absurd rfl hne⟩
  · simp only [modifyInode, wp_bind, wp_modify, wp_pure]
    exact ⟨ht.trans_self (Logs.of_eq rfl rfl rfl rfl), fun _ => hmem⟩

theorem bmapWord_logs (h : s.Coherent D H W X) (a k : ℕ) :
    Wp (bmapWord a k) E (fun addr t => Logs s t (insert a (s.sb.allocBlocks addr)) ∧
      t.itable = s.itable ∧ (wordAt (s.cache a) k = 0 → addr ≠ 0 → addr ∈ t.logged)) s := by
  simp only [bmapWord, bread, wp_bind, wp_get, wp_pure]
  rw [wp_ite]
  refine ⟨fun _ => ?_, fun hne => ⟨Logs.refl s, rfl, fun h0 => absurd h0 hne⟩⟩
  refine (balloc_logs h).bind ?_
  rintro addr t ⟨ht, htable, hmem⟩
  rw [wp_ite]
  refine ⟨fun h0 => ?_, fun _ => ?_⟩
  · subst h0
    exact ⟨ht.mono (Set.subset_insert _ _), htable, fun _ hne => absurd rfl hne⟩
  · exact ⟨(ht.trans (Logs.write t a fun b => setWord b k addr)).mono Set.union_singleton.subset,
      htable, fun _ hne => List.mem_cons_of_mem _ (hmem hne)⟩

/-- The first step of `bmap` adds nothing but the address it is for. -/
theorem AddrMapped.slot_zero {d : Dinode} {addr l : ℕ} (h : s.AddrMapped D H ip i k addr t d)
    (hc : s.Coherent D H {i} ∅) (hl : s.Locked H ip i (D i)) (ht : (D i).type ≠ 0) (hlk : l ≠ k)
    (h0 : s.slot (D i) l = 0) : t.slot d l = 0 := by
  by_cases hk : (D i).addr k = 0
  · by_cases hlt : l < NDIRECT + 1
    · rw [slot_of_le hlt] at h0 ⊢
      rw [h.addr_ne l hlt hlk, h0]
    · rcases eq_or_ne k NDIRECT with rfl | hkn
      · -- a new indirect block is empty
        by_cases ha : addr = 0
        · exact slot_of_ge_zero (by omega) (h.addr_eq.trans ha)
        · rw [slot_of_ge (by omega) (by rw [h.addr_eq]; exact ha), h.addr_eq, h.fresh hk ha,
            wordAt_zero]
      · have hind := h.addr_ne NDIRECT (by decide) (Ne.symm hkn)
        by_cases ha : (D i).addr NDIRECT = 0
        · exact slot_of_ge_zero (by omega) (hind.trans ha)
        · have hi : i < s.sb.ninodes := hl.inum ▸ hc.inum_lt hl.held
          have hused := hc.inUse_of_place (place_indirect hi ht ha)
          rw [slot_of_ge (by omega) ha] at h0
          rw [slot_of_ge (by omega) (by rw [hind]; exact ha), hind, h.keeps _ hused.1 hused.2, h0]
  · obtain rfl := h.same hk
    rw [← h.locked.copy, hl.copy, h0]

/-- The second step of `bmap` sets one entry of the indirect block. -/
theorem bmapWord_words (h : s.Coherent D H {i} ∅) (hl : s.Locked H ip i (D i))
    (ht : (D i).type ≠ 0) (ha : (D i).addr NDIRECT = a) (ha0 : a ≠ 0) (hk : k < NINDIRECT) :
    Wp (bmapWord a k) E (fun addr t =>
      ∀ l, wordAt (t.cache a) l = if l = k then addr else wordAt (s.cache a) l) s := by
  simp only [bmapWord, bread, wp_bind, wp_get, wp_pure]
  rw [wp_ite]
  refine ⟨fun h0 => ?_, fun _ l => by split <;> simp_all⟩
  rw [wp_bind]
  refine balloc_spec.mono fun addr t hb => ?_
  cases hb with
  | full _ => exact fun l => by split <;> simp_all [printed]
  | found _ _ hlt hfree _ =>
    have hi : i < s.sb.ninodes := hl.inum ▸ h.inum_lt hl.held
    have hused := h.inUse_of_place (place_indirect hi ht (by rw [ha]; exact ha0))
    rw [ha] at hused
    have hkeep := (h.allocated_keeps hlt hfree).2 a hused.1 hused.2
    have haddr : addr < 2 ^ 32 := hlt.trans (h.wf.size_lt.trans (by decide))
    rw [wp_ite]
    refine ⟨fun hz l => ?_, fun _ l => ?_⟩
    · rw [hkeep]
      split <;> simp_all
    · show wordAt (((s.allocated addr).setBuf a (setWord · k addr)).cache a) l = _
      rw [setBuf_same, wordAt_setWord _ hk haddr, hkeep]

/-- The blocks that `bmap` logs for block `bn` of an inode whose indirect block is `ind` afterwards,
when it returns `addr`. -/
def mapBlocks (sb : Superblock) (bn ind addr : ℕ) : Set ℕ :=
  {b | NDIRECT ≤ bn ∧ b ∈ sb.allocBlocks ind ∨ b ∈ sb.allocBlocks addr}

/-- What `bmap` logs when it returns `addr` and leaves the inode as `d`: the blocks of an allocation
of the indirect block and of the block itself. An indirect block that is there stays, and a block
that is added to the file is logged. -/
structure MapLogs (s : Fs) (D : ℕ → Dinode) (i bn addr : ℕ) (t : Fs) (d : Dinode) : Prop where
  logs : Logs s t (mapBlocks s.sb bn (d.addr NDIRECT) addr)
  indirect : (D i).addr NDIRECT ≠ 0 → d.addr NDIRECT = (D i).addr NDIRECT
  added : ∀ m, s.blockOf (D i) m = 0 → t.blockOf d m ≠ 0 → t.blockOf d m ∈ t.logged

/-- **`bmap`**, with the blocks it logs. -/
theorem bmap_logs (h : s.Coherent D H {i} ∅) (hl : s.Locked H ip i (D i)) (ht : (D i).type ≠ 0)
    (hbn : bn < MAXFILE) :
    Wp (bmap ip bn) E (fun addr t => ∃ d, s.Mapped D H ip i bn addr t d ∧
      s.MapLogs D i bn addr t d) s := by
  suffices hcode : Wp (bmap ip bn) E (fun addr t => s.MapLogs D i bn addr t (t.itable ip).toDinode) s by
    refine ((bmap_spec h hl ht hbn).and hcode).mono ?_
    rintro addr t ⟨⟨d, hm⟩, hlogs⟩
    rw [hm.locked.copy] at hlogs
    exact ⟨d, hm, hlogs⟩
  unfold bmap
  by_cases hdir : bn < NDIRECT
  · rw [if_pos hdir]
    refine ((bmapAddr_spec h hl ht (by omega)).and (bmapAddr_logs (E := E) h ip bn)).mono ?_
    rintro addr t ⟨⟨d, hm⟩, hlogs, hmem⟩
    rw [hm.locked.copy]
    refine ⟨hlogs.mono fun b hb => Or.inr hb, fun _ => hm.addr_ne NDIRECT (by decide) (by omega),
      fun m h0 hne => ?_⟩
    obtain rfl : m = bn := by
      by_contra hmb
      exact hne (hm.slot_zero h hl ht (by split <;> omega) h0)
    rw [blockOf, if_pos hdir, slot_of_le (by omega)] at h0 hne ⊢
    rw [hm.addr_eq] at hne ⊢
    exact hmem (by rw [hl.copy, h0]) hne
  · obtain ⟨k, rfl⟩ := Nat.exists_eq_add_of_le (Nat.le_of_not_lt hdir)
    have hk : k < NINDIRECT := by
      simp only [MAXFILE] at hbn
      omega
    rw [if_neg hdir, Nat.add_sub_cancel_left, if_pos hk]
    refine ((bmapAddr_spec h hl ht (by decide)).and (bmapAddr_logs (E := E) h ip NDIRECT)).bind ?_
    rintro a s1 ⟨⟨d, hm⟩, hlogs, _⟩
    have hind : d.addr NDIRECT = a := hm.addr_eq
    have hsame : (D i).addr NDIRECT ≠ 0 → a = (D i).addr NDIRECT := by
      intro hne
      obtain rfl := hm.same hne
      rw [← hind, ← hm.locked.copy, hl.copy]
    have hzero : ∀ m, s.blockOf (D i) m = 0 → s1.blockOf d m = 0 := fun m h0 =>
      hm.slot_zero h hl ht (blockPlace_ne m) h0
    rw [wp_ite]
    refine ⟨fun ha => ?_, fun ha => ?_⟩
    · subst ha
      rw [wp_pure, hm.locked.copy]
      exact ⟨hlogs.mono fun b hb => Or.inr hb, fun hne => hind.trans (hsame hne),
        fun m h0 hne => absurd (hzero m h0) hne⟩
    · have hD1 : update D i d i = d := update_self _ _ _
      have ht1 : (update D i d i).type ≠ 0 := by
        obtain ⟨A, rfl⟩ := hm.addrs_only
        rw [hD1]
        exact ht
      have hword := bmapWord_words (E := E) hm.coherent (by rw [hD1]; exact hm.locked) ht1
        (by rw [hD1, hind]) ha hk
      refine (hword.and (bmapWord_logs (E := E) hm.coherent a k)).mono ?_
      rintro addr t ⟨hword, hw, htable, hmem⟩
      rw [htable, hm.locked.copy]
      refine ⟨(hlogs.trans hw).mono ?_, fun hne => hind.trans (hsame hne), fun m h0 hne => ?_⟩
      · rw [hlogs.sb, hind]
        rintro b (hb | rfl | hb)
        · exact Or.inl ⟨Nat.le_of_not_lt hdir, hb⟩
        · exact Or.inl ⟨Nat.le_of_not_lt hdir, ha, Or.inl rfl⟩
        · exact Or.inr hb
      · have h1 := hzero m h0
        by_cases hmd : m < NDIRECT
        · rw [blockOf, if_pos hmd, slot_of_le (by omega)] at h1 hne
          exact absurd h1 hne
        · rw [blockOf, if_neg hmd, slot_of_ge (by omega) (by rw [hind]; exact ha), hind] at h1 hne ⊢
          rw [hword] at hne ⊢
          split at hne
          · rename_i hmk
            rw [if_pos hmk]
            exact hmem (hmk ▸ h1) hne
          · exact absurd h1 hne

end Fs

end Xv6
