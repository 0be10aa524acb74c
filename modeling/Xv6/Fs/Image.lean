import Xv6.Fs.Tree
import Xv6.Lib.Run

/-! # Disk images

A disk with the layout `mkfs` uses, made from a list of nodes that are numbered from the root on and
fit in one block each. It stands for these nodes (`Image.rep`), so that statements about consistent
images can be used on concrete ones. -/

namespace Xv6

/-- A block to which inodes are written, each at its place. -/
theorem Dinode.read_foldr {f : ℕ → Dinode} {i : ℕ} {l : List ℕ} (hf : ∀ k, (f k).Fits) (hi : i < IPB)
    (hnd : l.Nodup) (hmem : i ∈ l) :
    Dinode.read (l.foldr (fun k b => Dinode.write b k (f k)) (Bytes.zero BSIZE)) i = f i := by
  induction l with
  | nil => cases hmem
  | cons k l ih =>
    rw [List.foldr_cons]
    rcases eq_or_ne i k with rfl | hik
    · exact Dinode.read_write_same _ hi (hf i)
    · rw [Dinode.read_write_ne _ hik]
      exact ih hnd.of_cons (List.mem_of_ne_of_mem hik hmem)

/-- A free map in which bits are set. -/
theorem bitAt_foldr {b : ℕ} {l : List ℕ} (hb : b < BPB) (hlt : ∀ k ∈ l, k < BPB) :
    bitAt (l.foldr (fun k b => setBit b k) (Bytes.zero BSIZE)) b = decide (b ∈ l) := by
  induction l with
  | nil => simp [bitAt]
  | cons k l ih =>
    rw [List.foldr_cons, bitAt_setBit _ (hlt k List.mem_cons_self) hb, ih fun j hj => hlt j (.tail _ hj)]
    by_cases hbk : b = k <;> simp [hbk]

/-- A disk of files of at most one block each: `a i` is the block of inode `i`, 0 if it has none, and
the blocks in use are those below `top`. -/
structure Fs.Flat (s : Fs) (D : ℕ → Dinode) (N : Nodes) (a : ℕ → ℕ) (top : ℕ) : Prop where
  wf : s.sb.WellFormed
  nbits : s.sb.nbits = BPB
  bound : s.sb.dataStart ≤ top ∧ top ≤ s.sb.size
  read : ∀ i < s.sb.ninodes, s.dinode i = D i
  bit : ∀ b < BPB, s.bit b = decide (b < top)
  free : ∀ i, N i = none → (D i).type = 0
  file : ∀ i v, N i = some v → i < s.sb.ninodes ∧ v.type ≠ 0 ∧ v.bytes.length ≤ BSIZE ∧
    D i = ⟨v.type, v.major, v.minor, v.nlink, v.bytes.length, fun k => if k = 0 then a i else 0⟩
  block : ∀ i v, N i = some v → v.bytes ≠ [] → a i ≠ 0 ∧ s.cache (a i) = (Bytes.zero BSIZE).blit 0 v.bytes
  owned : ∀ b, (s.sb.dataStart ≤ b ∧ b < top) ↔ b ≠ 0 ∧ ∃ i v, N i = some v ∧ a i = b
  inj : ∀ i j v w, N i = some v → N j = some w → a i = a j → a i ≠ 0 → i = j

namespace Fs.Flat

variable {s : Fs} {D : ℕ → Dinode} {N : Nodes} {a : ℕ → ℕ} {top i k b : ℕ} {v : Node}

theorem type_ne (h : s.Flat D N a top) : (D i).type ≠ 0 ↔ ∃ v, N i = some v := by
  cases hv : N i with
  | none => simp [h.free i hv]
  | some v =>
    obtain ⟨-, ht, -, hD⟩ := h.file i v hv
    simp [hD, ht]

/-- A file owns at most one block. -/
theorem slot_eq (h : s.Flat D N a top) (hv : N i = some v) : s.slot (D i) k = if k = 0 then a i else 0 := by
  have haddr : ∀ k, (D i).addr k = if k = 0 then a i else 0 := by
    intro k
    obtain ⟨-, -, -, hD⟩ := h.file i v hv
    rw [hD, Dinode.addr]
    by_cases hk : k < NDIRECT + 1
    · rw [dif_pos hk]
      simp [Fin.ext_iff]
    · rw [dif_neg hk, if_neg]
      rintro rfl
      exact hk (by decide)
  by_cases hk : k < NDIRECT + 1
  · rw [slot_of_le hk, haddr]
  · rw [slot_of_ge_zero (by omega) (haddr _), if_neg]
    rintro rfl
    exact hk (by decide)

theorem place_eq (h : s.Flat D N a top) :
    s.place D (i, k) = some b ↔ b ≠ 0 ∧ k = 0 ∧ ∃ v, N i = some v ∧ a i = b := by
  rw [place_eq_some]
  constructor
  · rintro ⟨-, ht, -, hslot, hb⟩
    obtain ⟨v, hv⟩ := h.type_ne.mp ht
    rw [h.slot_eq hv] at hslot
    split at hslot
    · exact ⟨hb, ‹k = 0›, v, hv, hslot⟩
    · exact absurd hslot.symm hb
  · rintro ⟨hb, rfl, v, hv, rfl⟩
    exact ⟨(h.file i v hv).1, h.type_ne.mpr ⟨v, hv⟩, by decide, h.slot_eq hv, hb⟩

theorem coherent {H : Fin NINODE → ℕ} (h : s.Flat D N a top) (ht : s.Table D H ∅) :
    s.Coherent D H ∅ ∅ := by
  have hlt : ∀ {b}, b < s.sb.size → b < BPB := fun hb =>
    h.nbits ▸ lt_of_lt_of_le hb s.sb.size_le_nbits
  refine ⟨h.wf, ⟨fun {p q b} hp hq => ?_, fun _ => Set.notMem_empty _, fun {b} => ?_⟩,
    fun b hb => ?_, fun b hb hb' => ?_, fun i hi _ hi0 => ⟨?_, fun bn hbn => ?_⟩, fun i hi _ => h.read i hi, ht⟩
  · obtain ⟨i, k⟩ := p
    obtain ⟨j, l⟩ := q
    obtain ⟨hb, rfl, v, hv, rfl⟩ := h.place_eq.mp hp
    obtain ⟨-, rfl, w, hw, heq⟩ := h.place_eq.mp hq
    rw [h.inj i j v w hv hw heq.symm hb]
  · constructor
    · rintro ⟨⟨h1, h2⟩, h3⟩
      rw [h.bit b (hlt h2), decide_eq_true_eq] at h3
      obtain ⟨hb, i, v, hv, rfl⟩ := (h.owned b).mp ⟨h1, h3⟩
      exact .inr ⟨(i, 0), h.place_eq.mpr ⟨hb, rfl, v, hv, rfl⟩⟩
    · rintro (hX | ⟨⟨i, k⟩, hp⟩)
      · exact absurd hX (Set.notMem_empty b)
      · obtain ⟨hb, -, v, hv, hab⟩ := h.place_eq.mp hp
        obtain ⟨h1, h2⟩ := (h.owned b).mpr ⟨hb, i, v, hv, hab⟩
        have h3 := lt_of_lt_of_le h2 h.bound.2
        exact ⟨⟨h1, h3⟩, by rw [h.bit b (hlt h3), decide_eq_true_eq]; exact h2⟩
  · have hb' := lt_of_lt_of_le hb h.bound.1
    rw [h.bit b (hlt (lt_of_lt_of_le hb' h.bound.2)), decide_eq_true_eq]
    exact hb'
  · rw [h.bit b (h.nbits ▸ hb'), decide_eq_false_iff_not]
    exact Nat.not_lt.mpr (h.bound.2.trans hb)
  · obtain ⟨v, hv⟩ := h.type_ne.mp hi0
    obtain ⟨-, -, hsmall, hD⟩ := h.file i v hv
    rw [hD]
    exact hsmall.trans (by decide)
  · obtain ⟨v, hv⟩ := h.type_ne.mp hi0
    obtain ⟨-, -, hsmall, hD⟩ := h.file i v hv
    rw [hD] at hbn
    have hsmall : v.bytes.length ≤ 1024 := hsmall
    have h0 : bn * 1024 < v.bytes.length := hbn
    obtain rfl : bn = 0 := by omega
    rw [blockOf, h.slot_eq hv]
    exact (h.block i v hv (List.ne_nil_of_length_pos (Nat.zero_lt_of_lt h0))).1

/-- The contents of a file. -/
theorem file_eq (h : s.Flat D N a top) (hv : N i = some v) : s.file (D i) = v.bytes := by
  obtain ⟨-, -, hsmall, hD⟩ := h.file i v hv
  have hsmall : v.bytes.length ≤ 1024 := hsmall
  have hlen : (D i).size = v.bytes.length := by rw [hD]
  apply List.ext_getElem
  · rw [length_file, hlen]
  · intro x h1 h2
    have hx : x < (D i).size := by rwa [hlen]
    have hdiv : x / BSIZE = 0 := Nat.div_eq_of_lt (show x < 1024 by omega)
    have hmod : x % BSIZE = x := Nat.mod_eq_of_lt (show x < 1024 by omega)
    have hblk : s.blockOf (D i) 0 = a i := by
      rw [blockOf, h.slot_eq hv]
      rfl
    rw [← List.getD_eq_getElem (d := 0), getD_file hx, byteAt, hdiv, hmod, hblk,
      (h.block i v hv (List.ne_nil_of_length_pos (Nat.zero_lt_of_lt h2))).2,
      Bytes.get_blit _ _ _ (show x < BSIZE by show x < 1024; omega)]
    simp [h2]

/-- **The disk stands for its nodes.** -/
theorem rep {H : Fin NINODE → ℕ} (h : s.Flat D N a top) (ht : s.Table D H ∅) : s.Rep N H := by
  have hcoh := h.coherent ht
  refine .of_coherent hcoh (funext fun i => ?_)
  rw [hcoh.nodes_apply]
  cases hv : N i with
  | none => rw [if_neg fun hc => hc.2 (h.free i hv)]
  | some v =>
    obtain ⟨hi, -, -, hD⟩ := h.file i v hv
    rw [if_pos ⟨hi, h.type_ne.mpr ⟨v, hv⟩⟩, nodeOf, h.file_eq hv, hD]

end Fs.Flat

/-- The inodes of a disk image, the root first. -/
structure Image where
  files : List Node
  pos : 0 < files.length
  lt : files.length < IPB
  small : ∀ v ∈ files, v.type ≠ 0 ∧ v.bytes.length ≤ BSIZE

namespace Image

/-- The layout: a log of one block, one block of inodes, one of the free map. -/
def sb : Superblock where
  size := 32
  nblocks := 27
  ninodes := IPB
  nlog := 1
  logstart := 2
  inodestart := 3
  bmapstart := 4

theorem sb_wellFormed : sb.WellFormed := by
  constructor <;> decide

variable (im : Image)

/-- The node of inode `i`. -/
def node (i : ℕ) : Option Node := if i = 0 then none else im.files[i - 1]?

/-- The on-disk inode `i`, whose only block is number `i` of the data blocks. -/
def dinode (i : ℕ) : Dinode :=
  match im.node i with
  | some v => ⟨v.type, v.major, v.minor, v.nlink, v.bytes.length, fun k => if k = 0 then i + 4 else 0⟩
  | none => .zero

/-- The block of inodes. -/
def inodeBlock : Block :=
  (List.range IPB).foldr (fun k b => Dinode.write b k (im.dinode k)) (Bytes.zero BSIZE)

/-- The free map: blocks up to the last file's are in use. -/
def freeMap : Block :=
  (List.range (im.files.length + 5)).foldr (fun k b => setBit b k) (Bytes.zero BSIZE)

/-- The contents of the disk. -/
def block (b : ℕ) : Block :=
  if b = 3 then im.inodeBlock
  else if b = 4 then im.freeMap
  else match im.node (b - 4) with
    | some v => (Bytes.zero BSIZE).blit 0 v.bytes
    | none => Bytes.zero BSIZE

/-- The file system on the image, with `r` references to the root in the first table entry. -/
def fs (r : ℕ) : Fs where
  sb := sb
  cache := im.block
  disk := im.block
  logged := []
  itable := fun ip =>
    if ip = 0 then ⟨im.dinode ROOTINO, ROOTINO, r, decide (0 < r)⟩ else ⟨.zero, 0, 0, false⟩
  console := []

/-- The references to table entries. -/
def refs (r : ℕ) : Fin NINODE → ℕ := fun ip => if ip = 0 then r else 0

variable {im} {i k b r : ℕ} {v : Node}

theorem node_lt (h : im.node i = some v) : 1 ≤ i ∧ i ≤ im.files.length := by
  rw [node] at h
  split at h
  · cases h
  · have := (List.getElem?_eq_some_iff.mp h).1
    omega

theorem node_small (h : im.node i = some v) : v.type ≠ 0 ∧ v.bytes.length ≤ BSIZE := by
  rw [node] at h
  split at h
  · cases h
  · exact im.small v (List.mem_of_getElem? h)

theorem node_of_lt (h1 : 1 ≤ i) (h2 : i ≤ im.files.length) : ∃ v, im.node i = some v := by
  rw [node, if_neg (by omega)]
  exact ⟨_, List.getElem?_eq_getElem (by omega)⟩

theorem dinode_of_some (h : im.node i = some v) : im.dinode i =
    ⟨v.type, v.major, v.minor, v.nlink, v.bytes.length, fun k => if k = 0 then i + 4 else 0⟩ := by
  simp only [dinode, h]

theorem dinode_of_none (h : im.node i = none) : im.dinode i = .zero := by simp only [dinode, h]

theorem dinode_fits (i : ℕ) : (im.dinode i).Fits := by
  cases h : im.node i with
  | none =>
    rw [dinode_of_none h]
    exact ⟨Nat.two_pow_pos 32, fun _ => Nat.two_pow_pos 32⟩
  | some v =>
    have h1 : v.bytes.length ≤ 1024 := (node_small h).2
    have h2 := (node_lt h).2
    have h3 : im.files.length < 16 := im.lt
    rw [dinode_of_some h]
    refine ⟨show v.bytes.length < _ by omega, fun k => ?_⟩
    show (if k = 0 then i + 4 else 0) < _
    split <;> omega

/-- The inodes read back. -/
theorem read_inodeBlock (hi : i < IPB) : Dinode.read im.inodeBlock i = im.dinode i :=
  Dinode.read_foldr dinode_fits hi List.nodup_range (List.mem_range.mpr hi)

/-- The bits of the free map. -/
theorem bitAt_freeMap (hb : b < BPB) : bitAt im.freeMap b = decide (b < im.files.length + 5) := by
  have hlt : im.files.length < 16 := im.lt
  rw [freeMap, bitAt_foldr hb]
  · simp
  · intro k hk
    have := List.mem_range.mp hk
    simp only [BPB, BSIZE]
    omega

theorem fs_dinode (hi : i < IPB) : (im.fs r).dinode i = im.dinode i := by
  have hdiv : i / IPB = 0 := Nat.div_eq_of_lt hi
  have hblk : (im.fs r).sb.IBLOCK i = 3 := by
    show i / IPB + 3 = 3
    rw [hdiv]
  rw [Fs.dinode, hblk, Nat.mod_eq_of_lt hi]
  exact read_inodeBlock hi

theorem fs_bit (hb : b < BPB) : (im.fs r).bit b = decide (b < im.files.length + 5) := by
  have hblk : (im.fs r).sb.BBLOCK b = 4 := by
    show b / BPB + 4 = 4
    rw [Nat.div_eq_of_lt hb]
  rw [Fs.bit, hblk, Nat.mod_eq_of_lt hb]
  exact bitAt_freeMap hb

theorem flat (im : Image) (r : ℕ) : (im.fs r).Flat im.dinode im.node (· + 4) (im.files.length + 5) where
  wf := sb_wellFormed
  nbits := show sb.nbits = BPB by decide
  bound := by
    have hlt : im.files.length < 16 := im.lt
    exact ⟨show 5 ≤ _ by omega, show _ ≤ 32 by omega⟩
  read := fun i hi => fs_dinode hi
  bit := fun b hb => fs_bit hb
  free := fun i hi => by rw [dinode_of_none hi]; rfl
  file := fun i v hv => by
    have hlt : im.files.length < 16 := im.lt
    have hi := node_lt hv
    exact ⟨show i < 16 by omega, (node_small hv).1, (node_small hv).2, dinode_of_some hv⟩
  block := fun i v hv _ => by
    have hi := node_lt hv
    refine ⟨by omega, show im.block (i + 4) = _ from ?_⟩
    rw [block, if_neg (by omega), if_neg (by omega), Nat.add_sub_cancel, hv]
  owned := fun b => by
    show 5 ≤ b ∧ _ ↔ _
    constructor
    · rintro ⟨h1, h2⟩
      obtain ⟨v, hv⟩ := node_of_lt (i := b - 4) (by omega) (by omega : b - 4 ≤ im.files.length)
      exact ⟨by omega, b - 4, v, hv, by omega⟩
    · rintro ⟨-, i, v, hv, rfl⟩
      have hi := node_lt hv
      omega
  inj := fun i j _ _ _ _ heq _ => Nat.add_right_cancel heq

theorem table (im : Image) (r : ℕ) : (im.fs r).Table im.dinode (refs r) ∅ := by
  refine ⟨fun ip => ?_, fun ip hip => ?_, fun ip jp hip hjp _ => ?_, fun ip hip hv _ => ?_⟩
  · by_cases hip : ip = 0 <;> simp [fs, refs, hip]
  · by_cases hip0 : ip = 0
    · simp only [fs, hip0, if_pos]
      exact sb_wellFormed.root_lt
    · simp [refs, hip0] at hip
  · have h0 : ∀ kp : Fin NINODE, 0 < refs r kp → kp = 0 := by
      intro kp hkp
      by_contra hne
      simp [refs, hne] at hkp
    rw [h0 ip hip, h0 jp hjp]
  · rcases eq_or_ne ip 0 with rfl | hip0
    · exact ⟨rfl, (im.flat r).type_ne.mpr (node_of_lt (i := 1) le_rfl im.pos)⟩
    · simp [refs, hip0] at hip

/-- **An image stands for its nodes.** -/
theorem rep (im : Image) (r : ℕ) : (im.fs r).Rep im.node (refs r) := (im.flat r).rep (im.table r)

/-- The image when nothing is in use. -/
theorem rep_nodes (im : Image) : (im.fs 0).Rep (im.fs 0).nodes fun _ => 0 := by
  have hrefs : refs 0 = fun _ => 0 := by
    funext ip
    exact ite_self 0
  have hrep := im.rep 0
  rw [hrefs] at hrep
  rwa [hrep.nodes_eq]

theorem nodes_fs (im : Image) : (im.fs 0).nodes = im.node := (im.rep 0).nodes_eq

/-- The names of an image form a tree if its table passes the checks. -/
theorem tree (im : Image)
    (hroot : (im.node ROOTINO).any fun v => v.type = T_DIR ∧ v.up = ROOTINO)
    (hdirs : ∀ d < IPB, ∀ v ∈ im.node d, v.type = T_DIR → v.Shape IPB d ∧
      (∀ de ∈ v.slots, de.inum ≠ 0 → (im.node de.inum).isSome = true ∧
        ∀ w ∈ im.node de.inum, w.type = T_DIR →
          w.up = d ∧ de.inum ≠ d ∧ de.inum ≠ ROOTINO ∧ v.links de.inum = 1) ∧
      v.nlink.toInt = Nodes.count im.node IPB d + Nodes.subdirs im.node v +
        if d = ROOTINO then 1 else 0)
    (hfiles : ∀ i < IPB, ∀ v ∈ im.node i, v.type ≠ T_DIR →
      Nodes.count im.node IPB i ≤ v.nlink.toInt) :
    (im.fs 0).nodes.Tree (im.fs 0).sb.ninodes := by
  rw [nodes_fs]
  refine .of_table (fun i v hv => ?_) hroot hdirs hfiles
  have hlt : im.files.length < IPB := im.lt
  exact ⟨(node_lt hv).1, lt_of_le_of_lt (node_lt hv).2 hlt⟩

/-- The image of an empty file system: the root directory, with `.` and `..`. -/
def root : Image where
  files := [⟨T_DIR, 0, 0, 1, Dirent.encode ⟨ROOTINO, strncpy [dot] DIRSIZ⟩ ++
    Dirent.encode ⟨ROOTINO, strncpy [dot, dot] DIRSIZ⟩⟩]
  pos := by decide
  lt := by decide
  small := by decide

theorem root_tree : (root.fs 0).nodes.Tree (root.fs 0).sb.ninodes :=
  root.tree (by decide +kernel) (by decide +kernel) (by decide +kernel)

end Image

end Xv6
