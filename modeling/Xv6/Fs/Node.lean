import Xv6.Fs.Itable

/-! # Inodes as their users see them

Above the block layer an allocated inode is a `Node`: its type, its numbers and its bytes. `s.Rep N H`
says that the state `s` stands for the nodes `N` while `H` references are held; it hides block
addresses, the free map and the order of table entries. The operations of the inode layer are
specified again over `Rep`, and directories and system calls are verified from these
specifications only. -/

namespace Xv6

open Function

/-- An allocated inode without its block addresses. -/
structure Node where
  type : Int16
  major : Int16
  minor : Int16
  nlink : Int16
  bytes : List UInt8
  deriving DecidableEq

/-- The node of an inode just allocated. -/
def Node.fresh (type : Int16) : Node := ⟨type, 0, 0, 0, []⟩

/-- The allocated inodes of a file system by number. -/
abbrev Nodes := ℕ → Option Node

namespace Fs

/-- The node an on-disk inode stands for. -/
def nodeOf (s : Fs) (d : Dinode) : Node := ⟨d.type, d.major, d.minor, d.nlink, s.file d⟩

/-- The allocated inodes. -/
def nodes (s : Fs) : Nodes := fun i =>
  if i < s.sb.ninodes ∧ (s.dinode i).type ≠ 0 then some (s.nodeOf (s.dinode i)) else none

/-- The state is coherent, stands for the nodes `N`, and `H` references are held. -/
structure Rep (s : Fs) (N : Nodes) (H : Fin NINODE → ℕ) : Prop where
  coherent : s.Coherent s.dinode H ∅ ∅
  nodes_eq : s.nodes = N

variable {s t u : Fs} {D D' : ℕ → Dinode} {H H' : Fin NINODE → ℕ} {X : Set ℕ} {E : Panic → Prop}
  {N N' : Nodes} {ip jp : Fin NINODE} {i j k n off inum : ℕ} {d : Dinode} {v : Node}

@[simp] theorem length_nodeOf (s : Fs) (d : Dinode) : (s.nodeOf d).bytes.length = d.size :=
  length_file s d

/-- What the invariant says about inodes that do not exist does not matter. -/
theorem Coherent.congr_dinodes (h : s.Coherent D H ∅ X) (hD : ∀ i < s.sb.ninodes, D' i = D i) :
    s.Coherent D' H ∅ X where
  wf := h.wf
  exact := h.exact.congr fun p => by
    obtain ⟨j, k⟩ := p
    by_cases hj : j < s.sb.ninodes
    · simp only [place, hD j hj]
    · simp [place, hj]
  meta_bits := h.meta_bits
  end_bits := h.end_bits
  sized := fun i hi hW ht => by
    rw [hD i hi] at ht ⊢
    exact h.sized i hi hW ht
  synced := fun i hi hW => by rw [hD i hi, h.synced i hi hW]
  table := by
    refine ⟨h.table.ref_eq, h.table.inum_lt, h.table.inum_inj, fun ip hip hv hW => ?_⟩
    rw [hD _ (h.inum_lt hip)]
    exact h.table.valid_eq ip hip hv hW

/-- Between calls the inodes are those on disk. -/
theorem Coherent.rep (h : s.Coherent D H ∅ ∅) : s.Rep s.nodes H :=
  ⟨h.congr_dinodes fun i hi => h.synced i hi (Set.notMem_empty i), rfl⟩

theorem Coherent.nodes_apply (h : s.Coherent D H ∅ X) (i : ℕ) :
    s.nodes i = if i < s.sb.ninodes ∧ (D i).type ≠ 0 then some (s.nodeOf (D i)) else none := by
  by_cases hi : i < s.sb.ninodes
  · simp only [nodes, h.synced i hi (Set.notMem_empty i)]
  · simp [nodes, hi]

/-- An inode that was left alone stands for the same node. -/
theorem Coherent.nodes_eq_of_blocks (h : s.Coherent D H ∅ ∅) (h' : t.Coherent D' H' ∅ ∅)
    (hsb : t.sb = s.sb) (hD : D' j = D j)
    (hblocks : ∀ k b, s.place D (j, k) = some b → t.cache b = s.cache b) :
    t.nodes j = s.nodes j := by
  rw [h.nodes_apply, h'.nodes_apply, hsb, hD]
  by_cases hj : j < s.sb.ninodes ∧ (D j).type ≠ 0
  · rw [if_pos hj, if_pos hj, nodeOf, nodeOf,
      file_eq_of_blocks hj.1 hj.2 (h.sized j hj.1 (Set.notMem_empty j) hj.2) hblocks]
  · rw [if_neg hj, if_neg hj]

/-- Changes outside the blocks and the inodes are not seen. -/
theorem nodes_congr (hsb : t.sb = s.sb) (hcache : t.cache = s.cache) : t.nodes = s.nodes := by
  obtain ⟨sb, cache, disk, logged, itable, console⟩ := s
  obtain ⟨sb', cache', disk', logged', itable', console'⟩ := t
  obtain rfl : sb' = sb := hsb
  obtain rfl : cache' = cache := hcache
  rfl

namespace Rep

theorem of_coherent (h : s.Coherent D H ∅ ∅) (hN : s.nodes = N) : s.Rep N H :=
  ⟨h.rep.coherent, hN⟩

/-- The log, the disk below the cache and the console do not matter. -/
theorem congr (h : s.Rep N H) (hsb : t.sb = s.sb) (hcache : t.cache = s.cache)
    (htable : t.itable = s.itable) : t.Rep N H :=
  of_coherent (h.coherent.congr hsb hcache htable) ((nodes_congr hsb hcache).trans h.nodes_eq)

/-- The node of an allocated inode. -/
theorem apply (h : s.Rep N H) (hi : i < s.sb.ninodes) (ht : (s.dinode i).type ≠ 0) :
    N i = some (s.nodeOf (s.dinode i)) := by
  rw [← h.nodes_eq, nodes, if_pos ⟨hi, ht⟩]

/-- A node is that of an allocated inode. -/
theorem of_apply (h : s.Rep N H) (hv : N i = some v) :
    i < s.sb.ninodes ∧ (s.dinode i).type ≠ 0 ∧ v = s.nodeOf (s.dinode i) := by
  rw [← h.nodes_eq, nodes] at hv
  split at hv
  · exact ⟨‹_ ∧ _›.1, ‹_ ∧ _›.2, (Option.some.inj hv).symm⟩
  · cases hv

/-- **What a valid entry shows**: the node of its inode. -/
theorem entry (h : s.Rep N H) (hip : 0 < H ip) (hv : (s.itable ip).valid = true) :
    N (s.itable ip).inum = some (s.nodeOf (s.itable ip).toDinode) := by
  obtain ⟨hcopy, ht⟩ := h.coherent.table.valid_eq ip hip hv (Set.notMem_empty _)
  rw [h.apply (h.coherent.inum_lt hip) ht, hcopy]

theorem inum_lt (h : s.Rep N H) (hip : 0 < H ip) : (s.itable ip).inum < s.sb.ninodes :=
  h.coherent.inum_lt hip

/-- Two entries in use are for different inodes. -/
theorem inum_inj (h : s.Rep N H) (hip : 0 < H ip) (hjp : 0 < H jp)
    (heq : (s.itable ip).inum = (s.itable jp).inum) : ip = jp :=
  h.coherent.table.inum_inj ip jp hip hjp heq

end Rep

/-! ## Entries in use -/

/-- Entry `ip` is held for inode `i`. -/
structure Holds (s : Fs) (H : Fin NINODE → ℕ) (ip : Fin NINODE) (i : ℕ) : Prop where
  held : 0 < H ip
  inum : (s.itable ip).inum = i

/-- Entry `ip` is held for inode `i` and has been read from disk. -/
structure Opened (s : Fs) (H : Fin NINODE → ℕ) (ip : Fin NINODE) (i : ℕ) : Prop
    extends s.Holds H ip i where
  valid : (s.itable ip).valid = true

theorem Holds.keep (h : s.Holds H ip i) (hk : Keeps H s t) : t.Holds H ip i :=
  ⟨h.held, (hk.inum ip h.held).trans h.inum⟩

theorem Opened.keep (h : s.Opened H ip i) (hk : Keeps H s t) : t.Opened H ip i :=
  ⟨h.toHolds.keep hk, (hk.valid ip h.held h.valid).1⟩

theorem Holds.mono (h : s.Holds H ip i) (hH : 0 < H' ip) : s.Holds H' ip i := ⟨hH, h.inum⟩

theorem Opened.mono (h : s.Opened H ip i) (hH : 0 < H' ip) : s.Opened H' ip i :=
  ⟨h.toHolds.mono hH, h.valid⟩

/-- An entry that has been read shows the node of its inode. -/
theorem Opened.entry (ho : s.Opened H ip i) (h : s.Rep N H) :
    N i = some (s.nodeOf (s.itable ip).toDinode) := by
  have := h.entry ho.held ho.valid
  rwa [ho.inum] at this

theorem Opened.node (ho : s.Opened H ip i) (h : s.Rep N H) (hv : N i = some v) :
    v = s.nodeOf (s.itable ip).toDinode := by
  rw [ho.entry h] at hv
  exact (Option.some.inj hv).symm

theorem Opened.locked (ho : s.Opened H ip i) (h : s.Rep N H) :
    s.Locked H ip i (s.dinode i) ∧ (s.dinode i).type ≠ 0 := by
  obtain ⟨hl, ht⟩ := h.coherent.locked ho.held ho.valid
  rw [ho.inum] at hl ht
  exact ⟨hl, ht⟩

/-! ## References -/

/-- What getting a reference to inode `i` does: entry `ip` has one more reference. -/
structure Gains (s : Fs) (N : Nodes) (H : Fin NINODE → ℕ) (ip : Fin NINODE) (i : ℕ) (t : Fs) :
    Prop where
  rep : t.Rep N (addRef H ip)
  keeps : Keeps H s t
  inum : (t.itable ip).inum = i
  fresh : H ip = 0 → (t.itable ip).valid = false

theorem Gains.holds (h : s.Gains N H ip i t) : t.Holds (addRef H ip) ip i :=
  ⟨by rw [addRef_self]; omega, h.inum⟩

theorem Got.gains (hg : s.Got s.dinode H ip t) (h : s.Rep N H) (hi : (t.itable ip).inum = i) :
    s.Gains N H ip i t := by
  obtain ⟨T, hT⟩ := hg.table_only
  refine ⟨.of_coherent hg.coherent ?_, hg.keeps, hi, hg.fresh⟩
  rw [← h.nodes_eq]
  exact nodes_congr (by rw [hT]) (by rw [hT])

theorem idup_rep (h : s.Rep N H) (ho : s.Holds H ip i) :
    Wp (idup ip) E (fun jp t => jp = ip ∧ s.Gains N H ip i t) s :=
  (idup_spec h.coherent ho.held).mono fun _ _ ht =>
    ⟨ht.1, ht.2.1.gains h (ht.2.2.trans ho.inum)⟩

theorem iget_rep (h : s.Rep N H) (hi : inum < s.sb.ninodes) (hE : E .igetNoInodes) :
    Wp (iget inum) E (fun ip t => s.Gains N H ip inum t) s :=
  (iget_spec h.coherent hi hE).mono fun _ _ ht => ht.1.gains h ht.2

/-- **`ilock`** reads an allocated inode and panics on a free one. -/
theorem ilock_rep (h : s.Rep N H) (ho : s.Holds H ip i) (hE : N i = none → E .ilockNoType) :
    Wp (ilock ip) E (fun _ t => t.Rep N H ∧ Keeps H s t ∧ t.Opened H ip i) s := by
  have hi := h.inum_lt ho.held
  refine (ilock_spec h.coherent ho.held fun ht => hE ?_).mono fun _ t hl => ?_
  · rw [← h.nodes_eq, ← ho.inum, nodes, if_neg (fun hc => hc.2 ht)]
  · obtain ⟨T, hT⟩ := hl.table_only
    refine ⟨.of_coherent hl.coherent ?_, hl.keeps, (ho.keep hl.keeps), hl.locked.valid⟩
    rw [← h.nodes_eq]
    exact nodes_congr (by rw [hT]) (by rw [hT])

theorem iunlock_rep (h : s.Rep N H) (hip : 0 < H ip) : Wp (iunlock ip) E (fun _ t => t = s) s :=
  iunlock_spec h.coherent hip

/-- The nodes after `iput(ip)`: the last reference to a node without links frees it. -/
def putNodes (s : Fs) (N : Nodes) (H : Fin NINODE → ℕ) (ip : Fin NINODE) : Nodes :=
  if H ip = 1 ∧ (s.itable ip).valid = true ∧ (s.itable ip).nlink = 0 then
    update N (s.itable ip).inum none
  else N

/-- **`iput`** drops a reference, and frees the inode if that was the last one and it has no
links. -/
theorem iput_rep (h : s.Rep N H) (hip : 0 < H ip) :
    Wp (iput ip) E (fun _ t => t.Rep (s.putNodes N H ip) (dropRef H ip) ∧
      Keeps (dropRef H ip) s t) s := by
  refine (iput_spec h.coherent hip).mono fun _ t ⟨D', hput, hcoh, hk⟩ => ?_
  refine ⟨.of_coherent hcoh ?_, hk⟩
  cases hput with
  | kept hkeep htable =>
    obtain ⟨T, hT⟩ := htable
    rw [putNodes, if_neg hkeep, ← h.nodes_eq]
    exact nodes_congr (by rw [hT]) (by rw [hT])
  | freed hfree htouch =>
    rw [putNodes, if_pos hfree]
    funext j
    by_cases hj : j = (s.itable ip).inum
    · subst hj
      rw [hcoh.nodes_apply, update_self, update_self]
      exact if_neg fun hc => hc.2 rfl
    · rw [update_of_ne hj, ← h.nodes_eq]
      exact h.coherent.nodes_eq_of_blocks hcoh hk.sb (update_of_ne hj _ _)
        fun k b => htouch j k b hj

theorem iunlockput_rep (h : s.Rep N H) (hip : 0 < H ip) :
    Wp (iunlockput ip) E (fun _ t => t.Rep (s.putNodes N H ip) (dropRef H ip) ∧
      Keeps (dropRef H ip) s t) s := by
  rw [iunlockput]
  refine (iunlock_rep h hip).bind fun _ t ht => ?_
  subst ht
  exact iput_rep h hip

/-! ## Contents -/

theorem Touches.nodes_eq (hT : Touches ip i s D t D') (h : s.Coherent D H ∅ ∅)
    (h' : t.Coherent D' H' ∅ ∅) (hj : j ≠ i) : t.nodes j = s.nodes j :=
  h.nodes_eq_of_blocks h' hT.sb (hT.others j hj) fun k b => hT.blocks j k b hj

/-- A change of one inode is a change of its node. -/
theorem Touches.rep (hT : Touches ip i s s.dinode t (update s.dinode i d)) (h : s.Rep N H)
    (h' : t.Coherent (update s.dinode i d) H' ∅ ∅) (hi : i < s.sb.ninodes)
    (ht : d.type ≠ 0) (hv : t.nodeOf d = v) : t.Rep (update N i (some v)) H' := by
  subst hv
  refine .of_coherent h' ?_
  funext j
  rcases eq_or_ne j i with rfl | hj
  · rw [h'.nodes_apply, update_self, update_self]
    exact if_pos ⟨by rw [hT.sb]; exact hi, ht⟩
  · rw [update_of_ne hj, ← h.nodes_eq]
    exact hT.nodes_eq h.coherent h' hj

/-- **`readi`** delivers a slice of the node's bytes. -/
theorem readi_rep (h : s.Rep N H) (ho : s.Opened H ip i) (hv : N i = some v) {dst : Dst}
    (hwrap : off + n < 2 ^ 32) (hw : dst.Writable n) :
    Wp (readi ip dst off n) E (fun r t => t = s ∧
      r = ((((v.bytes.drop off).take n).length : ℤ), dst.store ((v.bytes.drop off).take n))) s := by
  obtain ⟨hl, ht⟩ := ho.locked h
  obtain ⟨-, -, rfl⟩ := h.of_apply hv
  exact readi_spec h.coherent hl ht hwrap hw

/-- What `writei` does to the node `v` of inode `i`: `b` are its bytes afterwards. -/
structure Writes (s : Fs) (N : Nodes) (H : Fin NINODE → ℕ) (i : ℕ) (v : Node) (src : Src)
    (off n : ℕ) (r : ℤ) (t : Fs) (b : List UInt8) : Prop where
  rep : t.Rep (update N i (some { v with bytes := b })) H
  keeps : Keeps H s t
  result : (r = -1 ∧ b = v.bytes ∧ ¬ (off ≤ v.bytes.length ∧ off + n ≤ MAXFILE * BSIZE)) ∨
    ∃ tot ≤ n, r = tot ∧ off ≤ v.bytes.length ∧ off + n ≤ MAXFILE * BSIZE ∧
      (src.Readable n → tot < n → s.Short v.bytes.length off tot t) ∧
      (src.Readable n → b = splice v.bytes off ((src.bytes n).take tot))

/-- **`writei`** replaces a slice of the node's bytes. -/
theorem writei_rep (h : s.Rep N H) (ho : s.Opened H ip i) (hv : N i = some v) (src : Src) (off : ℕ)
    (hn : n < 2 ^ 32) :
    Wp (writei ip src off n) E (fun r t => ∃ b, s.Writes N H i v src off n r t b) s := by
  obtain ⟨hl, ht⟩ := ho.locked h
  obtain ⟨hi, -, rfl⟩ := h.of_apply hv
  refine (writei_spec h.coherent hl ht src off hn).mono fun r t ⟨d, hw⟩ => ?_
  have hrep : t.Rep (update N i (some { s.nodeOf (s.dinode i) with bytes := t.file d })) H := by
    obtain ⟨sz, A, rfl⟩ := hw.keeps
    refine hw.touches.rep h hw.coherent hi ht ?_
    simp only [nodeOf]
  refine ⟨t.file d, hrep, hw.touches.keeps H, ?_⟩
  obtain ⟨hr, hts, hbad⟩ | ⟨tot, htot, hr, hoff, hmax, -, hshort, hfile⟩ := hw.result
  · refine Or.inl ⟨hr, ?_, by rwa [length_nodeOf]⟩
    -- nothing was written, so both states have the same inode
    subst hts
    have := hw.coherent.synced i hi (Set.notMem_empty i)
    rw [update_self] at this
    rw [← this]
    rfl
  · exact Or.inr ⟨tot, htot, hr, by rwa [length_nodeOf], hmax, by rwa [length_nodeOf], hfile⟩

/-- Writing back an inode of which only the numbers were changed. -/
theorem iupdate_rep (h : s.Rep N H) (ho : s.Opened H ip i) (hv : N i = some v) (f : Inode → Inode)
    (hf : ∀ e, (f e).inum = e.inum ∧ (f e).ref = e.ref ∧ (f e).valid = e.valid ∧
      (f e).type = e.type ∧ (f e).size = e.size ∧ (f e).addrs = e.addrs) :
    Wp (iupdate ip) E (fun _ t => Keeps H s t ∧
      t.Rep (update N i (some { v with
        major := (f (s.itable ip)).major
        minor := (f (s.itable ip)).minor
        nlink := (f (s.itable ip)).nlink })) H) (s.setInode ip f) := by
  obtain ⟨hl, ht⟩ := ho.locked h
  obtain ⟨hi, -, rfl⟩ := h.of_apply hv
  obtain ⟨h1, h2, h3, h4, h5, h6⟩ := hf (s.itable ip)
  obtain ⟨d, hd⟩ : ∃ d, d = (f (s.itable ip)).toDinode := ⟨_, rfl⟩
  have hcopy := hl.copy
  have htype : d.type = (s.dinode i).type := by rw [hd, h4, ← hcopy]
  have haddrs : d.addrs = (s.dinode i).addrs := by rw [hd, h6, ← hcopy]
  have hsize : d.size = (s.dinode i).size := by rw [hd, h5, ← hcopy]
  have hcoh : (s.setInode ip f).Coherent (update s.dinode i d) H {i} ∅ := by
    have hc := (h.coherent.dirty (Set.empty_subset {i})).setInode ip f
      (by simp [ho.inum]) h1 h2
    exact hc.setMeta (Set.mem_singleton i) htype haddrs
  have hlock : (s.setInode ip f).Locked H ip i d :=
    ⟨ho.held, by rw [setInode_same, h1, ho.inum], by rw [setInode_same, h3, ho.valid],
      by rw [setInode_same, hd]⟩
  have hsized := h.coherent.sized i hi (Set.notMem_empty i) ht
  have hfits : d.Fits := by
    have hlt : (s.dinode i).size < 2 ^ 32 := lt_of_le_of_lt hsized.size_le (by decide)
    have := h.coherent.fits hi ht hlt
    exact ⟨by rw [hsize]; exact hlt, fun k => by rw [haddrs]; exact this.2 k⟩
  refine (iupdate_spec hcoh hlock hfits).mono fun _ t hu => ?_
  have htouch : Touches ip i s s.dinode t (update s.dinode i d) := by
    have hstep : Touches ip i s s.dinode (s.setInode ip f) (update s.dinode i d) := by
      refine ⟨rfl, rfl, fun jp hjp => setInode_ne _ _ hjp, ?_,
        fun j hj => update_of_ne hj _ _, fun _ _ _ _ _ => rfl⟩
      rw [setInode_same]
      exact ⟨h1, h2, h3, h4⟩
    exact hstep.trans hu.touches
  -- the blocks of the file are as before
  have hfile : t.file d = s.file (s.dinode i) := by
    have hsame : ∀ k b, s.place s.dinode (i, k) = some b → t.cache b = s.cache b := fun k b hb =>
      hu.cache_eq b (h.coherent.inUse_of_place hb).1.1
    rw [← file_eq_of_blocks hi ht hsized hsame, file, file, hsize]
    refine bytes_congr fun k _ => ?_
    rw [byteAt, byteAt]
    have hblock : ∀ bn, t.blockOf d bn = t.blockOf (s.dinode i) bn := fun bn =>
      slot_congr (fun k _ => by rw [Dinode.addr, Dinode.addr, haddrs]) (fun _ => rfl) _
    rw [hblock]
  have hclean : t.Coherent (update s.dinode i d) H ∅ ∅ := by
    refine hu.coherent.clean (by rw [update_self, hu.dinode_eq]) (fun _ => ?_)
      (fun jp hjp _ hjinum => ?_)
    · rw [update_self]
      refine ⟨by rw [hsize]; exact hsized.size_le, fun bn hbn => ?_⟩
      have hblock : t.blockOf d bn = s.blockOf (s.dinode i) bn := by
        refine slot_congr (fun k _ => by rw [Dinode.addr, Dinode.addr, haddrs]) (fun ha => ?_) _
        exact hu.cache_eq _ (h.coherent.inUse_of_place (place_indirect hi ht ha)).1.1
      rw [hblock]
      exact hsized.no_hole bn (by rwa [hsize] at hbn)
    · obtain rfl : jp = ip := hu.coherent.table.inum_inj jp ip hjp hu.locked.held
        (hjinum.trans hu.locked.inum.symm)
      rw [update_self, htype]
      exact ⟨hu.locked.copy, ht⟩
  refine ⟨htouch.keeps H, ?_⟩
  refine htouch.rep h hclean hi (by rw [htype]; exact ht) ?_
  simp only [nodeOf]
  rw [hfile, htype, hd]

/-- **`itrunc`** leaves an empty file. -/
theorem itrunc_rep (h : s.Rep N H) (ho : s.Opened H ip i) (hv : N i = some v) :
    Wp (itrunc ip) E (fun _ t => Keeps H s t ∧
      t.Rep (update N i (some { v with bytes := [] })) H) s := by
  obtain ⟨hl, ht⟩ := ho.locked h
  obtain ⟨hi, -, rfl⟩ := h.of_apply hv
  refine (itrunc_spec (h.coherent.dirty (Set.empty_subset _)) hl ht).mono fun _ t htr => ?_
  have hclean : t.Coherent (update s.dinode i (s.dinode i).emptied) H ∅ ∅ := by
    refine htr.coherent.clean (by rw [update_self, htr.dinode_eq]) (fun _ => ?_)
      (fun jp hjp _ hjinum => ?_)
    · rw [update_self]
      exact ⟨Nat.zero_le _, fun bn hbn => absurd hbn (Nat.not_lt_zero _)⟩
    · obtain rfl : jp = ip := htr.coherent.table.inum_inj jp ip hjp htr.locked.held
        (hjinum.trans htr.locked.inum.symm)
      rw [update_self]
      exact ⟨htr.locked.copy, ht⟩
  refine ⟨htr.touches.keeps H, htr.touches.rep h hclean hi ht ?_⟩
  have hnil : t.file (s.dinode i).emptied = [] := List.length_eq_zero_iff.mp (length_file _ _)
  simp only [nodeOf, hnil]
  rfl

/-! ## Allocation -/

/-- What `ialloc` does: inode `i` was free and has the type now. -/
structure Allocs (s : Fs) (N : Nodes) (H : Fin NINODE → ℕ) (type : Int16) (ip : Fin NINODE) (i : ℕ)
    (t : Fs) : Prop where
  pos : 1 ≤ i
  lt : i < s.sb.ninodes
  free : N i = none
  rep : t.Rep (update N i (some (Node.fresh type))) (addRef H ip)
  keeps : Keeps H s t
  inum : (t.itable ip).inum = i

/-- **`ialloc`** takes a free inode if there is one. -/
theorem ialloc_rep (h : s.Rep N H) {type : Int16} (htype : type ≠ 0) (hE : E .igetNoInodes) :
    Wp (ialloc type) E (fun r t => (r = none ∧ t.Rep N H ∧ Keeps H s t) ∨
      ∃ ip i, r = some ip ∧ s.Allocs N H type ip i t) s := by
  refine (ialloc_spec h.coherent type hE).mono fun r t ha => ?_
  cases ha with
  | none => exact Or.inl ⟨rfl, h.congr rfl rfl rfl, Keeps.of_itable rfl rfl⟩
  | some i ip t hpos hi hfree hinum hcoh hkeeps hcache =>
    have hnone : N i = none := by
      rw [← h.nodes_eq, nodes, if_neg fun hc => hc.2 hfree]
    refine Or.inr ⟨ip, i, rfl, hpos, hi, hnone, .of_coherent hcoh ?_, hkeeps, hinum⟩
    funext j
    rcases eq_or_ne j i with rfl | hj
    · rw [hcoh.nodes_apply, update_self, update_self,
        if_pos ⟨by rw [hkeeps.sb]; exact hi, htype⟩]
      rfl
    · rw [update_of_ne hj, ← h.nodes_eq]
      exact h.coherent.nodes_eq_of_blocks hcoh hkeeps.sb (update_of_ne hj _ _)
        fun k b hb => hcache b (h.coherent.inUse_of_place hb).1.1

end Fs

end Xv6
