import Xv6.Fs.Logged
import Xv6.Fs.ReadWrite

/-! # Writing files

`writei` replaces a slice of a file, possibly a shorter one than asked for, and leaves every other file
alone. For each file block it writes it logs the block itself, the free map block if it was allocated,
and the indirect block with its free map block. When the source cannot be read the loop ends with part
of the block overwritten. -/

namespace Xv6

open Function

namespace Fs

/-- The blocks that writing the bytes `off .. lim` of a file may log, apart from the inode's: `d₀` is
the inode in `s`, before, and `d` the one in `t`, afterwards. -/
def foot (s : Fs) (d₀ : Dinode) (t : Fs) (d : Dinode) (off lim : ℕ) : Set ℕ :=
  {b | ∃ x, off ≤ x ∧ x < lim ∧ (b = t.blockOf d (x / BSIZE) ∨
    s.blockOf d₀ (x / BSIZE) = 0 ∧ b = s.sb.BBLOCK (t.blockOf d (x / BSIZE)) ∨
    NDIRECT ≤ x / BSIZE ∧ (b = d.addr NDIRECT ∨ b = s.sb.BBLOCK (d.addr NDIRECT)))}

variable {s t u : Fs} {D : ℕ → Dinode} {H : Fin NINODE → ℕ} {E : Panic → Prop}
  {ip : Fin NINODE} {a b i m n off lim tot bn addr : ℕ} {d d₀ d' : Dinode} {src : Src} {C : Prop}
  {w : List UInt8} {I : ℕ → Prop}

theorem foot_mono {lim' : ℕ} (h : lim ≤ lim') : foot s d₀ t d off lim ⊆ foot s d₀ t d off lim' := by
  rintro b ⟨x, hx, hlt, hb⟩
  exact ⟨x, hx, lt_of_lt_of_le hlt h, hb⟩

theorem foot_congr (hblock : ∀ m, u.blockOf d m = t.blockOf d m) :
    foot s d₀ u d off lim = foot s d₀ t d off lim := by
  unfold foot
  simp only [hblock]

/-- The indirect block of an inode that has a block behind it. -/
theorem indirect_ne_zero (hbn : NDIRECT ≤ bn) (h : t.blockOf d bn ≠ 0) : d.addr NDIRECT ≠ 0 := by
  intro h0
  refine h ?_
  rw [blockOf, if_neg (by omega), slot_of_ge_zero (by omega) h0]

/-- What `writei` has done after `tot` bytes: every block up to there is present, and if `C` holds the
bytes written are those of `w` and the others are as before. -/
structure Writing (s : Fs) (D : ℕ → Dinode) (H : Fin NINODE → ℕ) (ip : Fin NINODE) (i : ℕ)
    (C : Prop) (w : List UInt8) (off tot : ℕ) (t : Fs) (d : Dinode) : Prop where
  coherent : t.Coherent (update D i d) H {i} ∅
  locked : t.Locked H ip i d
  touches : Touches ip i s D t (update D i d)
  addrs_only : ∃ A, d = { D i with addrs := A }
  blockOf_eq : ∀ m < MAXFILE, s.blockOf (D i) m ≠ 0 → t.blockOf d m = s.blockOf (D i) m
  no_hole : ∀ m, m * BSIZE < off + tot → t.blockOf d m ≠ 0
  content : C → ∀ x, x < max (D i).size (off + tot) → t.byteAt d x =
    if off ≤ x ∧ x < off + tot then w.getD (x - off) 0 else s.byteAt (D i) x

namespace Writing

/-- Nothing is written yet. -/
theorem init (h : s.Coherent D H {i} ∅) (hl : s.Locked H ip i (D i)) (hs : s.Sized (D i))
    (hoff : off ≤ (D i).size) : s.Writing D H ip i C w off 0 s (D i) where
  coherent := by rwa [update_eq_self]
  locked := hl
  touches := by
    rw [update_eq_self]
    exact Touches.refl _ _ _ _
  addrs_only := ⟨_, rfl⟩
  blockOf_eq := fun _ _ _ => rfl
  no_hole := fun m hm => hs.no_hole m (by omega)
  content := by
    intro _ x _
    rw [if_neg (by omega)]

theorem type_eq (h : s.Writing D H ip i C w off tot t d) : d.type = (D i).type := by
  obtain ⟨A, rfl⟩ := h.addrs_only
  rfl

theorem size_eq (h : s.Writing D H ip i C w off tot t d) : d.size = (D i).size := by
  obtain ⟨A, rfl⟩ := h.addrs_only
  rfl

/-- Every block below the larger of the old size and the end of what is written is there. -/
theorem block (h : s.Writing D H ip i C w off tot t d) (hs : s.Sized (D i))
    (hmax : off + tot ≤ MAXFILE * BSIZE) {x : ℕ} (hx : x < max (D i).size (off + tot)) :
    x / BSIZE < MAXFILE ∧ t.blockOf d (x / BSIZE) ≠ 0 := by
  have hle := hs.size_le
  have hlt : x / BSIZE < MAXFILE := by
    simp only [BSIZE, MAXFILE, NDIRECT, NINDIRECT] at *
    omega
  refine ⟨hlt, ?_⟩
  by_cases hsize : x < (D i).size
  · have hne := (hs.block hsize).2
    rw [h.blockOf_eq _ hlt hne]
    exact hne
  · refine h.no_hole _ ?_
    simp only [BSIZE] at *
    omega

/-- `bmap` keeps what is written. -/
theorem mapped (h : s.Writing D H ip i C w off tot t d) (hs : s.Sized (D i))
    (hmax : off + tot ≤ MAXFILE * BSIZE)
    (hm : t.Mapped (update D i d) H ip i bn addr u d') :
    s.Writing D H ip i C w off tot u d' := by
  have hDi : update D i d i = d := update_self _ _ _
  have hcoh := hm.coherent
  have htouch := hm.touches
  have hblock := hm.blockOf_eq
  have hcache := hm.cache_eq
  rw [update_idem] at hcoh htouch
  rw [hDi] at hblock hcache
  refine ⟨hcoh, hm.locked, h.touches.trans htouch, ?_, fun m hmf hne => ?_, fun m hlt => ?_,
    fun hr x hx => ?_⟩
  · obtain ⟨A, hA⟩ := h.addrs_only
    obtain ⟨B, hB⟩ := hm.addrs_only
    rw [hDi, hA] at hB
    exact ⟨B, hB⟩
  · have heq := h.blockOf_eq m hmf hne
    rw [hblock m hmf (by rw [heq]; exact hne), heq]
  · have hne := h.no_hole m hlt
    have hmf : m < MAXFILE := by
      simp only [BSIZE, MAXFILE, NDIRECT, NINDIRECT] at *
      omega
    rw [hblock m hmf hne]
    exact hne
  · obtain ⟨hlt, hne⟩ := h.block hs hmax hx
    rw [← h.content hr x hx, byteAt, byteAt, hblock _ hlt hne, hcache _ hlt hne]

/-- A block of the file is overwritten. -/
theorem setBuf (h : s.Writing D H ip i C w off tot t d) (ht : (D i).type ≠ 0) (hbn : bn < MAXFILE)
    (hne : t.blockOf d bn ≠ 0) (f : Block → Block) :
    (∀ m, (t.setBuf (t.blockOf d bn) f).blockOf d m = t.blockOf d m) ∧
    (∀ x, x / BSIZE < MAXFILE → t.blockOf d (x / BSIZE) ≠ 0 →
      (t.setBuf (t.blockOf d bn) f).byteAt d x =
        if x / BSIZE = bn then (f (t.cache (t.blockOf d bn))).get (x % BSIZE) else t.byteAt d x) ∧
    s.Writing D H ip i False w off tot (t.setBuf (t.blockOf d bn) f) d := by
  have hi : i < t.sb.ninodes := h.locked.inum ▸ h.coherent.inum_lt h.locked.held
  have hDi : update D i d i = d := update_self _ _ _
  have htD : (update D i d i).type ≠ 0 := by rwa [hDi, h.type_eq]
  obtain ⟨addr, haddr⟩ : ∃ addr, addr = t.blockOf d bn := ⟨_, rfl⟩
  have hplace : ∀ {m : ℕ}, m < MAXFILE → t.blockOf d m ≠ 0 →
      t.place (update D i d) (i, if m < NDIRECT then m else m + 1) = some (t.blockOf d m) := by
    intro m hm hne
    have := place_blockOf (D := update D i d) hi htD hm (by rwa [hDi])
    rwa [hDi] at this
  have hp := hplace hbn hne
  rw [← haddr] at hne hp ⊢
  have hdata := (h.coherent.inUse_of_place hp).1
  -- the block is a data block of `i`, so it is nobody's indirect block
  have hind : ∀ j < t.sb.ninodes, (update D i d j).type ≠ 0 →
      (update D i d j).addr NDIRECT ≠ 0 → (update D i d j).addr NDIRECT ≠ addr :=
    fun j hj htj haj => h.coherent.indirect_ne hp (Or.inl (blockPlace_ne bn)) hj htj haj
  have hslot : ∀ m, (t.setBuf addr f).blockOf d m = t.blockOf d m := by
    intro m
    refine slot_congr (fun _ _ => rfl) (fun ha => setBuf_ne _ _ ?_) _
    have := hind i hi htD (by rwa [hDi])
    rwa [hDi] at this
  refine ⟨hslot, fun x hx hxne => ?_, h.coherent.setBuf hdata.1 f hind, h.locked.of_itable rfl, ?_,
    h.addrs_only, fun m hm hne => ?_, fun m hm => ?_, False.elim⟩
  · rw [byteAt, hslot]
    by_cases hxb : x / BSIZE = bn
    · rw [if_pos hxb, hxb, ← haddr, setBuf_same]
    · rw [if_neg hxb, byteAt, setBuf_ne]
      -- different file blocks are different disk blocks
      intro heq
      have hpx := hplace hx hxne
      rw [heq] at hpx
      have := h.coherent.exact.inj hp hpx
      simp only [Prod.mk.injEq, true_and] at this
      split at this <;> split at this <;> omega
  · refine ⟨h.touches.sb, h.touches.disk, h.touches.table, h.touches.entry, h.touches.others,
      fun j l c hj hc => ?_⟩
    have hcne : c ≠ addr := by
      rintro rfl
      have := h.coherent.exact.inj hp (by rw [h.touches.place_eq hj, hc])
      simp only [Prod.mk.injEq] at this
      exact hj this.1.symm
    rw [setBuf_ne _ _ hcne, h.touches.blocks j l c hj hc]
  · rw [hslot, h.blockOf_eq m hm hne]
  · rw [hslot]
    exact h.no_hole m hm

/-- The round that writes the next `m` bytes. -/
theorem wrote (h : s.Writing D H ip i C w off tot t d) (hs : s.Sized (D i)) (ht : (D i).type ≠ 0)
    (hmax : off + n ≤ MAXFILE * BSIZE) (hlt : tot < n) (hw : C → w.length = n)
    (hm : m = min (n - tot) (BSIZE - (off + tot) % BSIZE))
    (hne : t.blockOf d ((off + tot) / BSIZE) ≠ 0) {part : List UInt8}
    (hpart : C → part = (w.drop tot).take m) :
    s.Writing D H ip i C w off (tot + m) (t.setBuf (t.blockOf d ((off + tot) / BSIZE))
      (Bytes.blit · ((off + tot) % BSIZE) part)) d := by
  have hbn : (off + tot) / BSIZE < MAXFILE := by
    simp only [BSIZE, MAXFILE, NDIRECT, NINDIRECT] at *
    omega
  obtain ⟨hblock, hbyte, hset⟩ := h.setBuf ht hbn hne (Bytes.blit · ((off + tot) % BSIZE) part)
  have hmod : (off + tot) % BSIZE < BSIZE := Nat.mod_lt _ (by decide)
  refine ⟨hset.coherent, hset.locked, hset.touches, hset.addrs_only, hset.blockOf_eq,
    fun k hk => ?_, fun hC x hx => ?_⟩
  · rw [hblock]
    by_cases hold : k * BSIZE < off + tot
    · exact h.no_hole k hold
    · -- the only new block is the one just written
      have hk' : k = (off + tot) / BSIZE := by
        simp only [BSIZE] at *
        omega
      rwa [hk']
  · have hwlen := hw hC
    have hlen : part.length = m := by
      rw [hpart hC, List.length_take, List.length_drop]
      omega
    -- bytes outside the part written now are those of the round before
    have hold : ¬ (off + tot ≤ x ∧ x < off + tot + m) → t.byteAt d x =
        if off ≤ x ∧ x < off + (tot + m) then w.getD (x - off) 0 else s.byteAt (D i) x := by
      intro hnot
      rw [h.content hC x (by omega)]
      by_cases hin : off ≤ x ∧ x < off + tot
      · rw [if_pos hin, if_pos (by omega)]
      · rw [if_neg hin, if_neg (by omega)]
    by_cases hq : x / BSIZE = (off + tot) / BSIZE
    · rw [hbyte x (by rw [hq]; exact hbn) (by rw [hq]; exact hne), if_pos hq,
        Bytes.get_blit _ _ _ (Nat.mod_lt x (by decide)), hlen]
      have hiff : (off + tot) % BSIZE ≤ x % BSIZE ∧ x % BSIZE < (off + tot) % BSIZE + m ↔
          off + tot ≤ x ∧ x < off + tot + m := by
        simp only [BSIZE] at *
        omega
      by_cases hin : off + tot ≤ x ∧ x < off + tot + m
      · rw [if_pos (hiff.mpr hin), if_pos (by omega)]
        have hidx : x % BSIZE - (off + tot) % BSIZE = x - (off + tot) := by
          simp only [BSIZE] at *
          omega
        rw [hidx, List.getD_eq_getElem _ _ (by rw [hlen]; omega),
          List.getD_eq_getElem _ _ (by omega)]
        simp only [hpart hC, List.getElem_take, List.getElem_drop]
        congr 1
        omega
      · rw [if_neg (fun hc => hin (hiff.mp hc)), ← hold hin, byteAt, hq]
    · have hnot : ¬ (off + tot ≤ x ∧ x < off + tot + m) := by
        simp only [BSIZE] at *
        omega
      obtain ⟨hxlt, hxne⟩ := h.block hs (by omega) (show x < max (D i).size (off + tot) by omega)
      rw [hbyte x hxlt hxne, if_neg hq, hold hnot]

/-- What is logged does not matter. -/
theorem congr (h : s.Writing D H ip i C w off tot t d) (l : List ℕ) :
    s.Writing D H ip i C w off tot { t with logged := l } d :=
  ⟨h.coherent.congr rfl rfl rfl, h.locked.of_itable rfl,
    ⟨h.touches.sb, h.touches.disk, h.touches.table, h.touches.entry, h.touches.others,
      h.touches.blocks⟩, h.addrs_only, h.blockOf_eq, h.no_hole, h.content⟩

/-- The blocks written so far stay where they are when `bmap` adds one. -/
theorem foot_subset (h : s.Writing D H ip i C w off tot t d)
    (hmax : off + tot ≤ MAXFILE * BSIZE)
    (hm : t.Mapped (update D i d) H ip i bn addr u d')
    (hind : d.addr NDIRECT ≠ 0 → d'.addr NDIRECT = d.addr NDIRECT) :
    foot s (D i) t d off (off + tot) ⊆ foot s (D i) u d' off (off + tot) := by
  rintro b ⟨x, hx, hlt, hb⟩
  have hDi : update D i d i = d := update_self _ _ _
  have hblock := hm.blockOf_eq
  rw [hDi] at hblock
  have hbn : x / BSIZE < MAXFILE := by
    simp only [BSIZE, MAXFILE, NDIRECT, NINDIRECT] at *
    omega
  have hne : t.blockOf d (x / BSIZE) ≠ 0 := by
    refine h.no_hole _ ?_
    simp only [BSIZE] at *
    omega
  refine ⟨x, hx, hlt, ?_⟩
  rw [hblock _ hbn hne]
  refine hb.imp_right fun hb => hb.imp_right fun hb => ?_
  rw [hind (indirect_ne_zero hb.1 hne)]
  exact hb

/-- What `bmap` logs for the next byte belongs to the write. -/
theorem mapBlocks_subset (h : s.Writing D H ip i C w off tot t d)
    (hbn : (off + tot) / BSIZE < MAXFILE)
    (hm : t.Mapped (update D i d) H ip i ((off + tot) / BSIZE) addr u d')
    (hnew : t.blockOf d ((off + tot) / BSIZE) = 0) :
    mapBlocks t.sb ((off + tot) / BSIZE) (d'.addr NDIRECT) addr ⊆
      foot s (D i) u d' off (off + tot + 1) := by
  have hfresh : s.blockOf (D i) ((off + tot) / BSIZE) = 0 := by
    by_contra hne
    exact hne ((h.blockOf_eq _ hbn hne).symm.trans hnew)
  rw [h.touches.sb]
  rintro b (⟨hk, -, hb⟩ | ⟨hne, hb⟩)
  · exact ⟨off + tot, by omega, by omega, Or.inr (Or.inr ⟨hk, hb⟩)⟩
  · rw [← hm.at_bn hne] at hb
    exact ⟨off + tot, by omega, by omega, hb.imp_right fun hb => Or.inl ⟨hfresh, hb⟩⟩

/-- One call of `bmap` in a write: the blocks logged so far are those of the write. -/
theorem logs_mapped (h : s.Writing D H ip i C w off tot t d)
    (hlogs : Logs s t (foot s (D i) t d off (off + tot))) (hmax : off + tot < MAXFILE * BSIZE)
    (hm : t.Mapped (update D i d) H ip i ((off + tot) / BSIZE) addr u d')
    (hml : t.MapLogs (update D i d) i ((off + tot) / BSIZE) addr u d') :
    Logs s u (foot s (D i) u d' off (off + tot + 1)) ∧
      (t.blockOf d ((off + tot) / BSIZE) ≠ 0 → u = t ∧ d' = d) := by
  have hDi : update D i d i = d := update_self _ _ _
  have hbn : (off + tot) / BSIZE < MAXFILE := by
    simp only [BSIZE, MAXFILE, NDIRECT, NINDIRECT] at *
    omega
  have hind := hml.indirect
  have hsame := hm.same
  rw [hDi] at hind hsame
  by_cases hnew : t.blockOf d ((off + tot) / BSIZE) = 0
  · have hold := (h.foot_subset (by omega) hm hind).trans (foot_mono (Nat.le_succ _))
    have hadd := h.mapBlocks_subset hbn hm hnew
    exact ⟨(hlogs.trans hml.logs).mono (Set.union_subset hold hadd), fun hne => absurd hnew hne⟩
  · obtain ⟨rfl, -⟩ := hsame hnew
    have hd : d' = d := hm.locked.copy.symm.trans h.locked.copy
    subst hd
    exact ⟨hlogs.mono (foot_mono (Nat.le_succ _)), fun _ => ⟨rfl, rfl⟩⟩

end Writing

/-! ## The loop -/

/-- Why a write from a readable source stops short: there is no block for the next byte, which is
the first one of a block after the end of the file. -/
structure Short (s : Fs) (size off tot : ℕ) (t : Fs) : Prop where
  console_eq : t.console = s.console ++ [outOfBlocks]
  size_le : size ≤ off + tot
  aligned : tot = 0 ∨ BSIZE ∣ off + tot

/-- How the loop of `writei` ends, with `tot` bytes written and the inode as `d` in `v`: all is
written, there is no block for the next byte, or the source could not be read, in which case the
bytes read before the failure are in the buffer. -/
inductive Ended (s : Fs) (d₀ : Dinode) (src : Src) (off n tot : ℕ) (v : Fs) (d : Dinode) : Fs → Prop
  | done (h : tot = n) : Ended s d₀ src off n tot v d v
  | full (hlt : tot < n) (hnone : s.blockOf d₀ ((off + tot) / BSIZE) = 0)
      (hshort : s.Short d₀.size off tot v) : Ended s d₀ src off n tot v d v
  | unread (m : ℕ) (hlt : tot < n) (hal : tot = 0 ∨ BSIZE ∣ off + tot)
      (hm : m = min (n - tot) (BSIZE - (off + tot) % BSIZE)) (hfail : (src.copyin tot m).2 = false)
      (hne : v.blockOf d ((off + tot) / BSIZE) ≠ 0)
      (hnew : s.blockOf d₀ ((off + tot) / BSIZE) = 0 →
        v.blockOf d ((off + tot) / BSIZE) ∈ v.logged)
      (hold : s.blockOf d₀ ((off + tot) / BSIZE) ≠ 0 → Logs s v (foot s d₀ v d off (off + tot))) :
      Ended s d₀ src off n tot v d (v.setBuf (v.blockOf d ((off + tot) / BSIZE))
        (Bytes.blit · ((off + tot) % BSIZE) (src.copyin tot m).1))

/-- What is known of the bytes that a source can read: those of `w`, if `C` holds, with `I` of their
number. -/
structure Reads (src : Src) (n : ℕ) (C : Prop) (w : List UInt8) (I : ℕ → Prop) : Prop where
  init : I 0
  length : C → w.length = n
  step : ∀ tot m, I tot → tot + m ≤ n → (src.copyin tot m).2 = true →
    I (tot + m) ∧ (C → (src.copyin tot m).1 = (w.drop tot).take m)

/-- The memory of a process: what can be read is there, and no address wraps. -/
theorem reads_user (mem : UserSpace) {va : ℕ} (hva : va < 2 ^ 64) :
    Reads (.user mem.toUserMem va) n True (mem.load va n)
      fun tot => ∀ a, va ≤ a → a < va + tot → mem.mapped (a / PGSIZE) = true where
  init := by
    intro a h1 h2
    omega
  length := fun _ => by simp [UserMem.load]
  step := by
    intro tot m hmap hle hok
    have hmax : MAXVA < 2 ^ 64 := by decide
    have hlt : va + tot < 2 ^ 64 := by
      by_cases h0 : tot = 0
      · omega
      · exact (UserSpace.le_of_mapped (by omega) hmap).trans_lt hmax
    have hcopy : (mem.toUserMem.copyin m ((va + tot) % 2 ^ 64) m).2 = true := hok
    rw [Nat.mod_eq_of_lt hlt] at hcopy
    have hnext := UserMem.mapped_of_copyin le_rfl hcopy
    refine ⟨fun a h1 h2 => ?_, fun _ => ?_⟩
    · by_cases ha : a < va + tot
      · exact hmap a h1 ha
      · exact hnext a (by omega) (by omega)
    · show (mem.toUserMem.copyin m ((va + tot) % 2 ^ 64) m).1 = _
      rw [Nat.mod_eq_of_lt hlt, UserMem.copyin_eq_load le_rfl hnext, UserMem.take_drop_load _ _ hle]

/-- The state in front of a round. -/
structure Round (s : Fs) (D : ℕ → Dinode) (H : Fin NINODE → ℕ) (ip : Fin NINODE) (i : ℕ)
    (C : Prop) (w : List UInt8) (I : ℕ → Prop) (off n tot : ℕ) (t : Fs) (d : Dinode) : Prop where
  le : tot ≤ n
  inv : I tot
  writing : s.Writing D H ip i C w off tot t d
  logs : Logs s t (foot s (D i) t d off (off + tot))
  added : ∀ m < MAXFILE, s.blockOf (D i) m = 0 → t.blockOf d m ≠ 0 → t.blockOf d m ∈ t.logged
  console_eq : t.console = s.console
  aligned : tot < n → tot = 0 ∨ BSIZE ∣ off + tot

/-- The state after the loop: `v` is the state up to what a failed read has left. -/
structure Stopped (s : Fs) (D : ℕ → Dinode) (H : Fin NINODE → ℕ) (ip : Fin NINODE) (i : ℕ)
    (C : Prop) (w : List UInt8) (I : ℕ → Prop) (src : Src) (off n tot : ℕ) (v u : Fs) (d : Dinode) :
    Prop where
  le : tot ≤ n
  inv : I tot
  writing : s.Writing D H ip i C w off tot v d
  logs : Logs s v (foot s (D i) v d off (off + n))
  ended : Ended s (D i) src off n tot v d u

theorem Round.stopped (h : s.Round D H ip i C w I off n n t d) :
    s.Stopped D H ip i C w I src off n n t t d :=
  ⟨le_rfl, h.inv, h.writing, h.logs, .done rfl⟩

/-- **The loop of `writei`.** -/
theorem writeiLoop_spec (hs : s.Sized (D i)) (ht : (D i).type ≠ 0)
    (hmax : off + n ≤ MAXFILE * BSIZE) (hsrc : Reads src n C w I) {rounds : ℕ}
    (hr : n - tot ≤ rounds) (h : s.Round D H ip i C w I off n tot t d) :
    Wp (writeiLoop ip src n rounds (off + tot) tot) E (fun r u => ∃ tot' v d',
      r = (off + tot', tot') ∧ s.Stopped D H ip i C w I src off n tot' v u d') t := by
  induction rounds generalizing t d tot with
  | zero =>
    have hle := h.le
    obtain rfl : tot = n := by omega
    exact ⟨tot, t, d, rfl, h.stopped⟩
  | succ rounds ih =>
    have htot := h.le
    have hw := h.writing
    rw [writeiLoop]
    by_cases hlt : tot < n
    · rw [if_pos hlt, wp_bind]
      have hDi : update D i d i = d := update_self _ _ _
      have hbn : (off + tot) / BSIZE < MAXFILE := by
        simp only [BSIZE, MAXFILE, NDIRECT, NINDIRECT] at *
        omega
      refine (bmap_logs hw.coherent (by rw [hDi]; exact hw.locked)
        (by rw [hDi, hw.type_eq]; exact ht) hbn).mono fun addr u ⟨d', hm, hml⟩ => ?_
      obtain ⟨hlogs, hsame⟩ := hw.logs_mapped h.logs (by omega) hm hml
      have hadded : ∀ m < MAXFILE, s.blockOf (D i) m = 0 → u.blockOf d' m ≠ 0 →
          u.blockOf d' m ∈ u.logged := by
        intro m hm' h0 hne
        by_cases hz : t.blockOf d m = 0
        · exact hml.added m (by rw [hDi]; exact hz) hne
        · have heq := hm.blockOf_eq m hm' (by rw [hDi]; exact hz)
          rw [hDi] at heq
          rw [heq]
          exact hml.logs.keeps _ (h.added m hm' h0 hz)
      have hall := hlogs.mono (foot_mono (show off + tot + 1 ≤ off + n by omega))
      have hw' := hw.mapped hs (by omega) hm
      by_cases h0 : addr = 0
      · -- no block: there was none before either, so the byte is after the end of the file
        subst h0
        rw [if_pos rfl, wp_pure]
        have hnone : s.blockOf (D i) ((off + tot) / BSIZE) = 0 := by
          by_contra hne
          have heq := hw.blockOf_eq _ hbn hne
          have hsm := (hm.same (by rw [hDi, heq]; exact hne)).2
          rw [hDi, heq] at hsm
          exact hne hsm.symm
        have hsize : (D i).size ≤ off + tot := by
          by_contra hin
          exact (hs.block (show off + tot < (D i).size by omega)).2 hnone
        exact ⟨tot, u, d', rfl, htot, h.inv, hw', hall, .full hlt hnone
          ⟨(hm.full rfl).trans (by rw [h.console_eq]), hsize, h.aligned hlt⟩⟩
      · rw [if_neg h0]
        obtain ⟨m, hmdef⟩ : ∃ m, m = min (n - tot) (BSIZE - (off + tot) % BSIZE) := ⟨_, rfl⟩
        have hmod : (off + tot) % BSIZE < BSIZE := Nat.mod_lt _ (by decide)
        obtain rfl := hm.at_bn h0
        simp only [← hmdef, modifyBuf, logWrite, wp_bind, wp_modify]
        by_cases hok : (src.copyin tot m).2 = true
        · rw [if_pos hok]
          obtain ⟨hI, hpart⟩ := hsrc.step tot m h.inv (by omega) hok
          have hblk := (hw'.setBuf ht hbn h0
            (Bytes.blit · ((off + tot) % BSIZE) (src.copyin tot m).1)).1
          simp only [wp_bind, wp_modify]
          rw [Nat.add_assoc]
          refine ih (d := d') (by omega) ⟨by omega, hI,
            (hw'.wrote hs ht hmax hlt hsrc.length hmdef h0 hpart).congr _, ?_, ?_,
            (hm.found h0).trans h.console_eq, fun _ => Or.inr ?_⟩
          · -- the block written is one of the write
            have hstep := hlogs.trans (Logs.write u (u.blockOf d' ((off + tot) / BSIZE))
              (Bytes.blit · ((off + tot) % BSIZE) (src.copyin tot m).1))
            refine hstep.mono (Set.Subset.trans (Set.union_subset (foot_mono (by omega)) ?_)
              (foot_congr hblk).symm.subset)
            rintro b rfl
            exact ⟨off + tot, by omega, by omega, Or.inl rfl⟩
          · intro k hk hk0 hkne
            exact List.mem_cons_of_mem _ (by
              have := hadded k hk hk0
              rw [← hblk k] at this
              exact this hkne)
          · -- the source is not used up, so the block is
            simp only [BSIZE] at *
            omega
        · rw [if_neg hok]
          refine ⟨tot, u, d', rfl, htot, h.inv, hw', hall, .unread m hlt (h.aligned hlt) hmdef
            (by simpa using hok) h0 (fun hnew => hadded _ hbn hnew h0) fun hne => ?_⟩
          have heq := hw.blockOf_eq _ hbn hne
          obtain ⟨rfl, rfl⟩ := hsame (by rw [heq]; exact hne)
          exact h.logs
    · obtain rfl : tot = n := by omega
      rw [if_neg hlt]
      exact ⟨tot, t, d, rfl, h.stopped⟩

/-- What is written stays so when the source cannot be read further. -/
theorem Stopped.writing_end (h : s.Stopped D H ip i C w I src off n tot t u d) (ht : (D i).type ≠ 0)
    (hmax : off + n ≤ MAXFILE * BSIZE) : s.Writing D H ip i (C ∧ u = t) w off tot u d := by
  have hw := h.writing
  have heq : s.Writing D H ip i (C ∧ t = t) w off tot t d :=
    ⟨hw.coherent, hw.locked, hw.touches, hw.addrs_only, hw.blockOf_eq, hw.no_hole,
      fun hC => hw.content hC.1⟩
  cases h.ended with
  | done _ => exact heq
  | full _ _ _ => exact heq
  | unread m hlt _ _ _ hne _ _ =>
    have hbn : (off + tot) / BSIZE < MAXFILE := by
      simp only [BSIZE, MAXFILE, NDIRECT, NINDIRECT] at *
      omega
    have hset := (hw.setBuf ht hbn hne
      (Bytes.blit · ((off + tot) % BSIZE) (src.copyin tot m).1)).2.2
    refine ⟨hset.coherent, hset.locked, hset.touches, hset.addrs_only, hset.blockOf_eq,
      hset.no_hole, fun hC => ?_⟩
    rw [hC.2]
    exact hw.content hC.1

/-- A readable source leaves only one reason to stop early. -/
theorem Stopped.short (h : s.Stopped D H ip i C w I src off n tot t u d) (hr : src.Readable n) :
    u = t ∧ (tot < n → s.Short (D i).size off tot u) := by
  cases h.ended with
  | done h => exact ⟨rfl, fun hlt => absurd hlt (by omega)⟩
  | full _ _ hshort => exact ⟨rfl, fun _ => hshort⟩
  | unread m _ _ _ hfail _ _ _ =>
    rw [Src.copyin_eq hr (by omega)] at hfail
    cases hfail

/-! ## The end of `writei` -/

/-- The addresses of an allocated inode fit in their fields. -/
theorem Coherent.fits (h : s.Coherent D H W X) (hi : i < s.sb.ninodes) (ht : (D i).type ≠ 0)
    (hsize : (D i).size < 2 ^ 32) : (D i).Fits := by
  refine ⟨hsize, fun k => ?_⟩
  by_cases h0 : (D i).addrs k = 0
  · rw [h0]
    decide
  · have haddr : (D i).addr k.1 = (D i).addrs k := dif_pos k.2
    have hk : k.1 < NPLACE := lt_of_lt_of_le k.2 (Nat.le_add_right _ _)
    have hp : s.place D (i, k.1) = some ((D i).addrs k) :=
      place_eq_some.mpr ⟨hi, ht, hk, by rw [slot_of_le k.2, haddr], h0⟩
    have := (h.inUse_of_place hp).1.2
    have := h.wf.size_lt
    omega

/-- The end of `writei`: `t` and `d` are the state and the inode before it, `u` and `d'` after. -/
structure Finished (s : Fs) (D : ℕ → Dinode) (H : Fin NINODE → ℕ) (ip : Fin NINODE) (i : ℕ)
    (off tot : ℕ) (t u : Fs) (d d' : Dinode) : Prop where
  coherent : u.Coherent (update D i d') H ∅ ∅
  locked : u.Locked H ip i d'
  touches : Touches ip i s D u (update D i d')
  keeps : ∃ sz A, d' = { D i with size := sz, addrs := A }
  size_eq : d'.size = max (D i).size (off + tot)
  byteAt_eq : ∀ x < max (D i).size (off + tot), u.byteAt d' x = t.byteAt d x
  logs : Logs t u {t.sb.IBLOCK i}
  console_eq : u.console = t.console

/-- The size is brought up to date and the inode is written back. -/
theorem Writing.finish (h : s.Writing D H ip i C w off tot t d) (hs : s.Sized (D i))
    (ht : (D i).type ≠ 0) (hmax : off + tot ≤ MAXFILE * BSIZE) :
    Wp (do
        modifyInode ip fun e => if e.size < off + tot then { e with size := off + tot } else e
        iupdate ip
        return (tot : ℤ) : FsM ℤ) E
      (fun r u => r = tot ∧ ∃ d', s.Finished D H ip i off tot t u d d') t := by
  have hi : i < t.sb.ninodes := h.locked.inum ▸ h.coherent.inum_lt h.locked.held
  have hDi : update D i d i = d := update_self _ _ _
  obtain ⟨d', hd'⟩ : ∃ d', d' = { d with size := max (D i).size (off + tot) } := ⟨_, rfl⟩
  have hmax' : (D i).size ≤ 268 * 1024 ∧ off + tot ≤ 268 * 1024 := ⟨hs.size_le, hmax⟩
  have htype : d'.type = (D i).type := by rw [hd', ← h.type_eq]
  have haddr : ∀ k, d'.addr k = d.addr k := fun k => by rw [hd']; rfl
  simp only [modifyInode, wp_bind, wp_modify]
  set f : Inode → Inode := fun e => if e.size < off + tot then { e with size := off + tot } else e
  have hcopy : (f (t.itable ip)).toDinode = d' := by
    have hsz : (t.itable ip).size = (D i).size := by
      show (t.itable ip).toDinode.size = _
      rw [h.locked.copy, h.size_eq]
    by_cases hlt : (t.itable ip).size < off + tot
    · simp only [f, if_pos hlt, h.locked.copy, hd']
      congr 1
      omega
    · simp only [f, if_neg hlt, h.locked.copy, hd']
      have : max (D i).size (off + tot) = d.size := by
        rw [h.size_eq]
        omega
      rw [this]
  have hf : ∀ e : Inode, (f e).inum = e.inum ∧ (f e).ref = e.ref ∧ (f e).valid = e.valid ∧
      (f e).type = e.type := by
    intro e
    simp only [f]
    split <;> exact ⟨rfl, rfl, rfl, rfl⟩
  -- the inode in memory is now `d'`
  have hcoh : (t.setInode ip f).Coherent (update D i d') H {i} ∅ := by
    have h1 := h.coherent.setInode ip f (by simp [h.locked.inum]) (hf _).1 (hf _).2.1
    have h2 := @Coherent.setMeta _ _ _ _ _ i d' h1 (Set.mem_singleton i)
      (by rw [hDi, htype, h.type_eq]) (by rw [hDi, hd'])
    rwa [update_idem] at h2
  have hlock : (t.setInode ip f).Locked H ip i d' := by
    refine ⟨h.locked.held, ?_, ?_, ?_⟩
    · rw [setInode_same, (hf _).1, h.locked.inum]
    · rw [setInode_same, (hf _).2.2.1, h.locked.valid]
    · rw [setInode_same, hcopy]
  have hfits : d'.Fits := by
    have := hcoh.fits (i := i) hi (by rw [update_self, htype]; exact ht)
      (by rw [update_self, hd']; show max _ _ < _; omega)
    rwa [update_self] at this
  have hblock : ∀ x < max (D i).size (off + tot), x / BSIZE < MAXFILE ∧
      t.blockOf d (x / BSIZE) ≠ 0 := fun x hx => h.block hs (by omega) hx
  refine ((iupdate_spec hcoh hlock hfits).and (iupdate_logs (E := E) _ ip)).mono ?_
  rintro _ u ⟨hu, hlog, _⟩
  have hcache : ∀ x < max (D i).size (off + tot),
      u.cache (t.blockOf d (x / BSIZE)) = t.cache (t.blockOf d (x / BSIZE)) := by
    intro x hx
    have hp := place_blockOf (D := update D i d) hi (by rw [hDi, h.type_eq]; exact ht)
      (hblock x hx).1 (by rw [hDi]; exact (hblock x hx).2)
    have := (h.coherent.inUse_of_place hp).1.1
    rw [hDi] at this
    exact hu.cache_eq _ this
  have hslot : ∀ m, u.blockOf d' m = t.blockOf d m := by
    intro m
    refine slot_congr (fun k _ => haddr k) (fun ha => ?_) _
    have hp := place_indirect (D := update D i d) hi (by rw [hDi, h.type_eq]; exact ht)
      (by rw [hDi]; exact ha)
    have := (h.coherent.inUse_of_place hp).1.1
    rw [hDi] at this
    exact hu.cache_eq _ this
  have hsized : u.Sized d' := by
    refine ⟨?_, fun m hm => ?_⟩
    · rw [hd']
      show max _ _ ≤ 268 * 1024
      omega
    · rw [hd'] at hm
      have hm' : m * BSIZE < max (D i).size (off + tot) := hm
      have := (hblock (m * BSIZE) hm').2
      rw [Nat.mul_div_cancel _ (by decide)] at this
      rw [hslot]
      exact this
  have hinj := hu.coherent.table.inum_inj
  refine ⟨rfl, d', hu.coherent.clean (by rw [update_self, hu.dinode_eq])
    (by rw [update_self]; exact fun _ => hsized) ?_, hu.locked, ?_, ?_, by rw [hd'], fun x hx => ?_,
    ?_, hu.console_eq⟩
  · intro jp hjp _ hjinum
    obtain rfl : jp = ip := hinj jp ip hjp hu.locked.held (hjinum.trans hu.locked.inum.symm)
    rw [update_self, htype]
    exact ⟨hu.locked.copy, ht⟩
  · have hstep : Touches ip i t (update D i d) (t.setInode ip f)
        (update D i d') := by
      refine ⟨rfl, rfl, fun jp hjp => setInode_ne _ _ hjp, ?_, fun j hj => ?_, fun _ _ _ _ _ => rfl⟩
      · rw [setInode_same]
        exact hf _
      · rw [update_of_ne hj, update_of_ne hj]
    exact (h.touches.trans hstep).trans hu.touches
  · obtain ⟨A, hA⟩ := h.addrs_only
    exact ⟨_, A, by rw [hd', hA]⟩
  · rw [byteAt, byteAt, hslot, hcache x hx]
  · rw [setInode_same, (hf _).1, h.locked.inum] at hlog
    exact ⟨hlog.sb, hlog.disk, hlog.mem, hlog.keeps, hlog.changed⟩

/-- The contents of the file once `tot` bytes are written. -/
theorem Finished.file_eq (h : s.Finished D H ip i off tot t u d d')
    (hw : s.Writing D H ip i C w off tot t d) (hC : C) (hlen : (w.take tot).length = tot)
    (hoff : off ≤ (D i).size) : u.file d' = splice (s.file (D i)) off (w.take tot) := by
  have hwlen : tot ≤ w.length := by
    rw [List.length_take] at hlen
    omega
  apply List.ext_getElem
  · simp only [length_file, splice, List.length_append, List.length_take, List.length_drop, hlen,
      h.size_eq]
    omega
  · intro x h1 h2
    rw [length_file, h.size_eq] at h1
    have hleft : (u.file d')[x] = t.byteAt d x := by
      rw [← h.byteAt_eq x h1, ← getD_file (s := u) (d := d') (x := x) (by rw [h.size_eq]; omega),
        List.getD_eq_getElem]
    rw [hleft, hw.content hC x h1]
    simp only [splice]
    by_cases hx1 : x < off
    · rw [if_neg (by omega), List.getElem_append_left (by simp; omega),
        List.getElem_append_left (by simp; omega), List.getElem_take,
        ← getD_file (by omega), List.getD_eq_getElem]
    · by_cases hx2 : x < off + tot
      · rw [if_pos (by omega), List.getElem_append_left (by simp; omega),
          List.getElem_append_right (by simp; omega), List.getElem_take,
          List.getD_eq_getElem _ _ (by omega)]
        congr 1
        simp
        omega
      · rw [if_neg (by omega), List.getElem_append_right (by simp; omega),
          List.getElem_drop, ← getD_file (by omega), List.getD_eq_getElem _ _ (by simp; omega)]
        congr 1
        simp
        omega

/-- **`writei`**: the range is refused, or the loop stops after `tot` bytes and the inode is written
back. -/
theorem writei_ends (h : s.Coherent D H ∅ ∅) (hl : s.Locked H ip i (D i)) (ht : (D i).type ≠ 0)
    (off : ℕ) (hn : n < 2 ^ 32) (hsrc : Reads src n C w I) :
    Wp (writei ip src off n) E (fun r t =>
      (r = -1 ∧ t = s ∧ ¬ (off ≤ (D i).size ∧ off + n ≤ MAXFILE * BSIZE)) ∨
      ∃ (tot : ℕ) (v u : Fs) (d d' : Dinode), r = tot ∧ off ≤ (D i).size ∧ off + n ≤ MAXFILE * BSIZE ∧
        s.Stopped D H ip i C w I src off n tot v u d ∧ s.Finished D H ip i off tot u t d d') s := by
  have hi : i < s.sb.ninodes := hl.inum ▸ h.inum_lt hl.held
  have hs := h.sized i hi (Set.notMem_empty i) ht
  have hle : (D i).size ≤ 268 * 1024 := hs.size_le
  have hsize : (s.itable ip).size = (D i).size := by
    show (s.itable ip).toDinode.size = _
    rw [hl.copy]
  have h268 : MAXFILE * BSIZE = 268 * 1024 := rfl
  simp only [writei, inode, wp_bind, wp_get, wp_pure, hsize]
  rw [wp_ite]
  refine ⟨fun hbad => Or.inl ⟨rfl, rfl, by omega⟩, fun hbad => ?_⟩
  rw [wp_ite]
  refine ⟨fun hbig => Or.inl ⟨rfl, rfl, by omega⟩, fun hbig => ?_⟩
  rw [wp_bind]
  have hoff : off ≤ (D i).size := by omega
  have hmax : off + n ≤ MAXFILE * BSIZE := by omega
  refine (writeiLoop_spec (d := D i) hs ht hmax hsrc (Nat.le_refl (n - 0)) ⟨Nat.zero_le n,
    hsrc.init, Writing.init (h.dirty (Set.empty_subset {i})) hl hs hoff, Logs.refl s,
    fun m _ h0 hne => absurd h0 hne, rfl, fun _ => Or.inl rfl⟩).mono fun r u hr => ?_
  obtain ⟨tot, v, d, rfl, hstop⟩ := hr
  have htot := hstop.le
  refine ((hstop.writing_end ht hmax).finish hs ht (by omega)).mono fun r t hr => ?_
  obtain ⟨rfl, d', hfin⟩ := hr
  exact Or.inr ⟨tot, v, u, d, d', rfl, hoff, hmax, hstop, hfin⟩

/-- What `writei` does to inode `i`: `r` is its return value and `d` the inode afterwards. -/
structure Wrote (s : Fs) (D : ℕ → Dinode) (H : Fin NINODE → ℕ) (ip : Fin NINODE) (i : ℕ)
    (src : Src) (off n : ℕ) (r : ℤ) (t : Fs) (d : Dinode) : Prop where
  coherent : t.Coherent (update D i d) H ∅ ∅
  locked : t.Locked H ip i d
  touches : Touches ip i s D t (update D i d)
  keeps : ∃ sz A, d = { D i with size := sz, addrs := A }
  result : (r = -1 ∧ t = s ∧ ¬ (off ≤ (D i).size ∧ off + n ≤ MAXFILE * BSIZE)) ∨
    ∃ tot ≤ n, r = tot ∧ off ≤ (D i).size ∧ off + n ≤ MAXFILE * BSIZE ∧
      d.size = max (D i).size (off + tot) ∧
      (src.Readable n → tot < n → s.Short (D i).size off tot t) ∧
      (src.Readable n → t.file d = splice (s.file (D i)) off ((src.bytes n).take tot))

/-- **`writei`** replaces a slice of the file and touches nothing else. -/
theorem writei_spec (h : s.Coherent D H ∅ ∅) (hl : s.Locked H ip i (D i)) (ht : (D i).type ≠ 0)
    (src : Src) (off : ℕ) (hn : n < 2 ^ 32) :
    Wp (writei ip src off n) E (fun r t => ∃ d, s.Wrote D H ip i src off n r t d) s := by
  have hsrc : Reads src n (src.Readable n) (src.bytes n) fun _ => True :=
    ⟨trivial, Src.length_bytes, fun tot m _ hle _ =>
      ⟨trivial, fun hr => by rw [Src.copyin_eq hr hle]⟩⟩
  refine (writei_ends h hl ht off hn hsrc).mono fun r t hr => ?_
  obtain ⟨rfl, rfl, hbad⟩ | ⟨tot, v, u, d, d', rfl, hoff, hmax, hstop, hfin⟩ := hr
  · refine ⟨D i, ?_, hl, ?_, ⟨_, _, rfl⟩, Or.inl ⟨rfl, rfl, hbad⟩⟩
    · rwa [update_eq_self]
    · rw [update_eq_self]
      exact Touches.refl _ _ _ _
  · refine ⟨d', hfin.coherent, hfin.locked, hfin.touches, hfin.keeps, Or.inr ⟨tot, hstop.le, rfl,
      hoff, hmax, hfin.size_eq, fun hr hlt => ?_, fun hr => ?_⟩⟩
    · have hsh := (hstop.short hr).2 hlt
      exact ⟨hfin.console_eq.trans hsh.console_eq, hsh.size_le, hsh.aligned⟩
    · refine hfin.file_eq (hstop.writing_end ht hmax) ⟨hr, (hstop.short hr).1⟩ ?_ hoff
      rw [List.length_take, Src.length_bytes hr]
      exact Nat.min_eq_left hstop.le

end Fs

end Xv6
