import Xv6.Fs.Image

/-! # A directory of empty files

A disk with a root directory and empty files, of which the first ones are in use. There may be more of them than the
inode table has entries. -/

namespace Xv6

/-- The bytes of the root directory and the number of empty files. -/
structure Listing where
  dir : List UInt8
  files : ℕ
  small : dir.length ≤ BSIZE
  lt : files + 1 < 64

namespace Listing

/-- The layout: four blocks of inodes between the log and the free map. -/
def sb : Superblock where
  size := 32
  nblocks := 24
  ninodes := 64
  nlog := 1
  logstart := 2
  inodestart := 3
  bmapstart := 7

theorem sb_wellFormed : sb.WellFormed := by
  constructor <;> decide

variable (L : Listing)

/-- The node of inode `i`. -/
def node (i : ℕ) : Option Node :=
  if i = ROOTINO then some ⟨T_DIR, 0, 0, 1, L.dir⟩
  else if 1 < i ∧ i ≤ L.files + 1 then some ⟨T_FILE, 0, 0, 1, []⟩
  else none

/-- The on-disk inode `i`. The root has the only data block. -/
def dinode (i : ℕ) : Dinode :=
  match L.node i with
  | some v => ⟨v.type, v.major, v.minor, v.nlink, v.bytes.length, fun k => if k = 0 ∧ i = ROOTINO then 8 else 0⟩
  | none => .zero

/-- The contents of the disk. -/
def block (b : ℕ) : Block :=
  if 3 ≤ b ∧ b < 7 then
    (List.range IPB).foldr (fun k blk => Dinode.write blk k (L.dinode ((b - 3) * IPB + k))) (Bytes.zero BSIZE)
  else if b = 7 then (List.range 9).foldr (fun k blk => setBit blk k) (Bytes.zero BSIZE)
  else if b = 8 then (Bytes.zero BSIZE).blit 0 L.dir
  else Bytes.zero BSIZE

/-- The file system, with the first `k` inodes in use. -/
def fs (k : ℕ) : Fs where
  sb := sb
  cache := L.block
  disk := L.block
  logged := []
  itable := fun ip => if ip.val < k then ⟨L.dinode (ip + 1), ip + 1, 1, true⟩ else ⟨.zero, 0, 0, false⟩
  console := []

/-- The references to table entries. -/
def refs (k : ℕ) : Fin NINODE → ℕ := fun ip => if ip.val < k then 1 else 0

variable {L} {i k b : ℕ} {v : Node}

theorem node_lt (h : L.node i = some v) : 1 ≤ i ∧ i ≤ L.files + 1 := by
  rw [node] at h
  split at h
  · rename_i h1
    exact ⟨h1.ge, h1.trans_le (Nat.le_add_left ..)⟩
  · split at h
    · omega
    · cases h

theorem node_of_lt (h1 : 1 ≤ i) (h2 : i ≤ L.files + 1) : ∃ v, L.node i = some v ∧ v.type ≠ 0 := by
  rw [node]
  split
  · exact ⟨_, rfl, show T_DIR ≠ 0 by decide⟩
  · rename_i hne
    have hne : i ≠ 1 := hne
    rw [if_pos (by omega)]
    exact ⟨_, rfl, show T_FILE ≠ 0 by decide⟩

theorem dinode_of_some (h : L.node i = some v) : L.dinode i =
    ⟨v.type, v.major, v.minor, v.nlink, v.bytes.length, fun k => if k = 0 ∧ i = ROOTINO then 8 else 0⟩ := by
  simp only [dinode, h]

/-- The nodes are the root and empty files. -/
theorem node_cases (h : L.node i = some v) :
    (i = ROOTINO ∧ v = ⟨T_DIR, 0, 0, 1, L.dir⟩) ∨ i ≠ ROOTINO ∧ v = ⟨T_FILE, 0, 0, 1, []⟩ := by
  rw [node] at h
  split at h
  · exact .inl ⟨‹_›, (Option.some.inj h).symm⟩
  · split at h
    · exact .inr ⟨‹_›, (Option.some.inj h).symm⟩
    · cases h

theorem bytes_of_some (h : L.node i = some v) : v.bytes = if i = ROOTINO then L.dir else [] := by
  rcases node_cases h with ⟨hi, rfl⟩ | ⟨hi, rfl⟩
  · rw [if_pos hi]
  · rw [if_neg hi]

theorem length_bytes_le (h : L.node i = some v) : v.bytes.length ≤ BSIZE := by
  rw [bytes_of_some h]
  split
  · exact L.small
  · exact Nat.zero_le _

theorem dinode_fits (i : ℕ) : (L.dinode i).Fits := by
  cases h : L.node i with
  | none =>
    simp only [dinode, h]
    exact ⟨Nat.two_pow_pos 32, fun _ => Nat.two_pow_pos 32⟩
  | some v =>
    have h1 : v.bytes.length ≤ 1024 := length_bytes_le h
    rw [dinode_of_some h]
    refine ⟨show v.bytes.length < _ by omega, fun k => ?_⟩
    show (if k = 0 ∧ i = ROOTINO then 8 else 0) < _
    split <;> omega

theorem fs_dinode (hi : i < 64) : (L.fs k).dinode i = L.dinode i := by
  have hdiv : i / IPB < 4 := Nat.div_lt_of_lt_mul hi
  have hmod : i % IPB < IPB := Nat.mod_lt _ (by decide)
  have hblock : (L.fs k).cache ((L.fs k).sb.IBLOCK i) =
      (List.range IPB).foldr (fun k blk => Dinode.write blk k (L.dinode (i / IPB * IPB + k))) (Bytes.zero BSIZE) := by
    show L.block (i / IPB + 3) = _
    rw [block, if_pos ⟨Nat.le_add_left .., by omega⟩, Nat.add_sub_cancel]
  rw [Fs.dinode, hblock, Dinode.read_foldr (fun _ => dinode_fits _) hmod List.nodup_range (List.mem_range.mpr hmod),
    Nat.div_add_mod']

theorem fs_bit (hb : b < BPB) : (L.fs k).bit b = decide (b < 9) := by
  have hblk : (L.fs k).sb.BBLOCK b = 7 := by
    show b / BPB + 7 = 7
    rw [Nat.div_eq_of_lt hb]
  rw [Fs.bit, hblk, Nat.mod_eq_of_lt hb]
  show bitAt (L.block 7) b = _
  rw [block, if_neg (by decide), if_pos rfl, bitAt_foldr hb (by decide)]
  simp

/-- The entries in use. -/
theorem itable_of_held {ip : Fin NINODE} (h : 0 < refs k ip) :
    ip.val < k ∧ (L.fs k).itable ip = ⟨L.dinode (ip + 1), ip + 1, 1, true⟩ := by
  have hip : ip.val < k := by
    by_contra hge
    rw [refs, if_neg hge] at h
    cases h
  exact ⟨hip, if_pos hip⟩

/-- The root has the only data block. -/
theorem flat (L : Listing) (k : ℕ) :
    (L.fs k).Flat L.dinode L.node (fun i => if i = ROOTINO then 8 else 0) 9 where
  wf := sb_wellFormed
  nbits := show sb.nbits = BPB by decide
  bound := show sb.dataStart ≤ 9 ∧ 9 ≤ sb.size by decide
  read := fun i hi => fs_dinode hi
  bit := fun b hb => fs_bit hb
  free := fun i hi => by simp only [dinode, hi]; rfl
  file := fun i v hv => by
    have hlt := L.lt
    have hi := node_lt hv
    obtain ⟨w, hw, ht⟩ := node_of_lt hi.1 hi.2
    obtain rfl := Option.some.inj (hv.symm.trans hw)
    refine ⟨show i < 64 by omega, ht, length_bytes_le hv, ?_⟩
    simp only [dinode_of_some hv, ite_and]
  block := fun i v hv hne => by
    have hbytes := bytes_of_some hv
    split at hbytes
    · refine ⟨by simp [*], ?_⟩
      simp only [*, if_pos]
      rfl
    · exact absurd hbytes hne
  owned := fun b => by
    obtain ⟨v, hv, -⟩ := node_of_lt (L := L) (i := ROOTINO) le_rfl (Nat.le_add_left ..)
    show 8 ≤ b ∧ b < 9 ↔ _
    constructor
    · intro hb
      obtain rfl : b = 8 := by omega
      exact ⟨by decide, ROOTINO, v, hv, rfl⟩
    · rintro ⟨hb, i, -, -, rfl⟩
      split at hb <;> simp_all
  inj := fun i j _ _ _ _ heq hne => by
    simp only [ne_eq, ite_eq_right_iff, Classical.not_imp] at hne
    simp_all

theorem table (L : Listing) (hk : k ≤ L.files + 1) : (L.fs k).Table L.dinode (refs k) ∅ := by
  have hlt := L.lt
  refine ⟨fun ip => ?_, fun ip hip => ?_, fun ip jp hip hjp heq => ?_, fun ip hip hv _ => ?_⟩
  · by_cases hip : ip.val < k <;> simp [fs, refs, hip]
  · obtain ⟨hip, heq⟩ := itable_of_held (L := L) hip
    rw [heq]
    show ip.val + 1 < 64
    omega
  · rw [(itable_of_held hip).2, (itable_of_held hjp).2] at heq
    have heq : ip.val + 1 = jp.val + 1 := heq
    exact Fin.ext (by omega)
  · obtain ⟨hip, heq⟩ := itable_of_held (L := L) hip
    obtain ⟨v, hv, -⟩ := node_of_lt (L := L) (i := ip + 1) (by omega) (by omega)
    rw [heq]
    exact ⟨rfl, (L.flat k).type_ne.mpr ⟨v, hv⟩⟩

/-- **The disk stands for the directory and its files**, with as many of the inodes in use as the table holds. -/
theorem rep (L : Listing) (hk : k ≤ L.files + 1) : (L.fs k).Rep L.node (refs k) :=
  (L.flat k).rep (L.table hk)

end Listing

end Xv6
