import Xv6.Param

/-! # On-disk format

The structures of `kernel/fs.h` and how they lie in a block: the superblock's description of the
disk, the on-disk inode, the bits of the free map, and the words of an indirect block. Each comes
with its read-after-write laws: what is stored at a place reads back, and every other place reads
as before. -/

namespace Xv6

/-- The super block. `nblocks` counts the data blocks, which are the last ones of the disk. -/
structure Superblock where
  size : ℕ
  nblocks : ℕ
  ninodes : ℕ
  nlog : ℕ
  logstart : ℕ
  inodestart : ℕ
  bmapstart : ℕ
  deriving DecidableEq, Repr

namespace Superblock

variable (sb : Superblock)

/-- Block containing inode `i`. -/
def IBLOCK (i : ℕ) : ℕ := i / IPB + sb.inodestart

/-- Block of free map containing the bit for block `b`. -/
def BBLOCK (b : ℕ) : ℕ := b / BPB + sb.bmapstart

/-- The first data block. -/
def dataStart : ℕ := sb.size - sb.nblocks

/-- The number of bits in the free map. -/
def nbits : ℕ := (sb.size + BPB - 1) / BPB * BPB

/-- Block `b` is a data block. -/
def IsData (b : ℕ) : Prop := sb.dataStart ≤ b ∧ b < sb.size

/-- The disk layout `boot | super | log | inodes | bitmap | data`: every region has room for what
it holds, block numbers are positive `int`s and inode numbers fit in a directory entry. -/
structure WellFormed : Prop where
  log_after_super : 2 ≤ sb.logstart
  inodes_after_log : sb.logstart + sb.nlog ≤ sb.inodestart
  bmap_after_inodes : sb.inodestart + (sb.ninodes + IPB - 1) / IPB ≤ sb.bmapstart
  data_after_bmap : sb.bmapstart + (sb.size + BPB - 1) / BPB ≤ sb.dataStart
  nblocks_le : sb.nblocks ≤ sb.size
  size_lt : sb.size < 2 ^ 31
  root_lt : ROOTINO < sb.ninodes
  ninodes_le : sb.ninodes ≤ 2 ^ 16

theorem size_le_nbits : sb.size ≤ sb.nbits := by
  simp only [nbits, BPB, BSIZE]
  omega

variable {sb}

namespace WellFormed

theorem iblock_lt (h : sb.WellFormed) {i : ℕ} (hi : i < sb.ninodes) : sb.IBLOCK i < sb.bmapstart := by
  have := h.bmap_after_inodes
  simp only [IBLOCK, IPB, BSIZE] at *
  omega

theorem le_bblock (b : ℕ) : sb.bmapstart ≤ sb.BBLOCK b := Nat.le_add_left _ _

theorem bblock_lt (h : sb.WellFormed) {b : ℕ} (hb : b < sb.nbits) : sb.BBLOCK b < sb.dataStart := by
  have := h.data_after_bmap
  simp only [BBLOCK, BPB, BSIZE, nbits] at *
  omega

theorem bmapstart_le (h : sb.WellFormed) : sb.bmapstart ≤ sb.dataStart :=
  le_trans (Nat.le_add_right _ _) h.data_after_bmap

theorem dataStart_pos (h : sb.WellFormed) : 0 < sb.dataStart := by
  have := h.bmapstart_le
  have : sb.inodestart ≤ sb.bmapstart := le_trans (Nat.le_add_right _ _) h.bmap_after_inodes
  have := h.inodes_after_log
  have := h.log_after_super
  omega

theorem dataStart_le (_h : sb.WellFormed) : sb.dataStart ≤ sb.size := Nat.sub_le _ _

end WellFormed

end Superblock

/-! ## Inodes -/

/-- The on-disk inode: `addrs` holds `NDIRECT` direct block numbers and one indirect one. -/
@[ext]
structure Dinode where
  type : Int16
  major : Int16
  minor : Int16
  nlink : Int16
  size : ℕ
  addrs : Fin (NDIRECT + 1) → ℕ

namespace Dinode

/-- `addrs[k]`. -/
def addr (d : Dinode) (k : ℕ) : ℕ := if h : k < NDIRECT + 1 then d.addrs ⟨k, h⟩ else 0

/-- `addrs[k] = b`. -/
def setAddr (d : Dinode) (k b : ℕ) : Dinode :=
  { d with addrs := fun j => if j.1 = k then b else d.addrs j }

/-- The all-zero inode, as left by `memset`. -/
def zero : Dinode := ⟨0, 0, 0, 0, 0, fun _ => 0⟩

/-- The unsigned fields hold 32-bit values. -/
def Fits (d : Dinode) : Prop := d.size < 2 ^ 32 ∧ ∀ k, d.addrs k < 2 ^ 32

theorem addr_setAddr (d : Dinode) {k : ℕ} (b j : ℕ) (hk : k < NDIRECT + 1) :
    (d.setAddr k b).addr j = if j = k then b else d.addr j := by
  unfold addr setAddr
  by_cases hj : j < NDIRECT + 1
  · simp [hj]
  · have : j ≠ k := by omega
    simp [hj, this]

@[simp] theorem setAddr_type (d : Dinode) (k b : ℕ) : (d.setAddr k b).type = d.type := rfl

/-- A `short` as its two bytes. -/
def ofShort (x : Int16) : ℕ := x.toUInt16.toNat

/-- The `short` two bytes denote. -/
def toShort (v : ℕ) : Int16 := (UInt16.ofNat v).toInt16

theorem toShort_ofShort (x : Int16) : toShort (ofShort x % 256 ^ 2) = x := by
  have h : ofShort x < 256 ^ 2 := x.toUInt16.toNat_lt
  rw [Nat.mod_eq_of_lt h, toShort, ofShort, UInt16.ofNat_toNat, Int16.toInt16_toUInt16]

/-- The `k`-th inode of a block: `(struct dinode*)bp->data + k`. -/
def read (b : Block) (k : ℕ) : Dinode where
  type := toShort (b.getLE (64 * k) 2)
  major := toShort (b.getLE (64 * k + 2) 2)
  minor := toShort (b.getLE (64 * k + 4) 2)
  nlink := toShort (b.getLE (64 * k + 6) 2)
  size := b.getLE (64 * k + 8) 4
  addrs := fun j => b.getLE (64 * k + 12 + 4 * j) 4

/-- Store an inode as the `k`-th of a block. -/
def write (b : Block) (k : ℕ) (d : Dinode) : Block :=
  (((((b.putLE (64 * k) 2 (ofShort d.type)).putLE (64 * k + 2) 2 (ofShort d.major)).putLE
    (64 * k + 4) 2 (ofShort d.minor)).putLE (64 * k + 6) 2 (ofShort d.nlink)).putLE
    (64 * k + 8) 4 d.size).putWords (64 * k + 12) (List.ofFn d.addrs)

/-- **An inode reads back as stored.** -/
theorem read_write_same (b : Block) {k : ℕ} (hk : k < IPB) {d : Dinode} (hd : d.Fits) :
    read (write b k d) k = d := by
  have hk16 : k < 16 := hk
  have hlen : (List.ofFn d.addrs).length = 13 := List.length_ofFn
  -- every field before `addrs` is read below the run of words
  have hhead : ∀ {off w : ℕ}, off + w ≤ 64 * k + 12 → (write b k d).getLE off w =
      (((((b.putLE (64 * k) 2 (ofShort d.type)).putLE (64 * k + 2) 2 (ofShort d.major)).putLE
        (64 * k + 4) 2 (ofShort d.minor)).putLE (64 * k + 6) 2 (ofShort d.nlink)).putLE
        (64 * k + 8) 4 d.size).getLE off w := fun h =>
    Bytes.getLE_putWords_disjoint _ _ (Or.inl h)
  have hin : ∀ {off w : ℕ}, off + w ≤ 64 * k + 64 → off + w ≤ BSIZE := by
    intro off w h
    show off + w ≤ 1024
    omega
  unfold read
  ext
  · simp only
    rw [hhead (by omega), Bytes.getLE_putLE_disjoint _ _ (by omega),
      Bytes.getLE_putLE_disjoint _ _ (by omega), Bytes.getLE_putLE_disjoint _ _ (by omega),
      Bytes.getLE_putLE_disjoint _ _ (by omega), Bytes.getLE_putLE_same _ _ _ _ (hin (by omega)),
      toShort_ofShort]
  · simp only
    rw [hhead (by omega), Bytes.getLE_putLE_disjoint _ _ (by omega),
      Bytes.getLE_putLE_disjoint _ _ (by omega), Bytes.getLE_putLE_disjoint _ _ (by omega),
      Bytes.getLE_putLE_same _ _ _ _ (hin (by omega)), toShort_ofShort]
  · simp only
    rw [hhead (by omega), Bytes.getLE_putLE_disjoint _ _ (by omega),
      Bytes.getLE_putLE_disjoint _ _ (by omega), Bytes.getLE_putLE_same _ _ _ _ (hin (by omega)),
      toShort_ofShort]
  · simp only
    rw [hhead (by omega), Bytes.getLE_putLE_disjoint _ _ (by omega),
      Bytes.getLE_putLE_same _ _ _ _ (hin (by omega)), toShort_ofShort]
  · simp only
    rw [hhead (by omega), Bytes.getLE_putLE_same _ _ _ _ (hin (by omega))]
    exact Nat.mod_eq_of_lt hd.1
  · rename_i j
    have hj : j.1 < 13 := j.2
    simp only [write]
    rw [Bytes.getLE_putWords _ _ _ (by rw [hlen]; exact hin (by omega)) (by rw [hlen]; exact hj),
      List.getD_eq_getElem _ _ (by rw [hlen]; exact hj), List.getElem_ofFn]
    exact Nat.mod_eq_of_lt (hd.2 j)

/-- **Another inode of the block reads as before.** -/
theorem read_write_ne (b : Block) {k j : ℕ} (hkj : j ≠ k) (d : Dinode) :
    read (write b k d) j = read b j := by
  have hlen : (List.ofFn d.addrs).length = 13 := List.length_ofFn
  have hword : ∀ off w : ℕ, 64 * j ≤ off → off + w ≤ 64 * j + 64 →
      (write b k d).getLE off w = b.getLE off w := by
    intro off w h1 h2
    rw [write, Bytes.getLE_putWords_disjoint _ _ (by rw [hlen]; omega),
      Bytes.getLE_putLE_disjoint _ _ (by omega), Bytes.getLE_putLE_disjoint _ _ (by omega),
      Bytes.getLE_putLE_disjoint _ _ (by omega), Bytes.getLE_putLE_disjoint _ _ (by omega),
      Bytes.getLE_putLE_disjoint _ _ (by omega)]
  unfold read
  ext
  · simp only [hword (64 * j) 2 (by omega) (by omega)]
  · simp only [hword (64 * j + 2) 2 (by omega) (by omega)]
  · simp only [hword (64 * j + 4) 2 (by omega) (by omega)]
  · simp only [hword (64 * j + 6) 2 (by omega) (by omega)]
  · simp only [hword (64 * j + 8) 4 (by omega) (by omega)]
  · rename_i l
    have hl : l.1 < 13 := l.2
    simp only [hword (64 * j + 12 + 4 * l) 4 (by omega) (by omega)]

end Dinode

/-! ## Free map bits -/

/-- `1 << (bi % 8)`. -/
def bitMask (bi : ℕ) : UInt8 := UInt8.ofNat (2 ^ (bi % 8))

/-- Bit `bi` of a block of the free map: `bp->data[bi/8] & m`. -/
def bitAt (b : Block) (bi : ℕ) : Bool := b.get (bi / 8) &&& bitMask bi != 0

/-- `bp->data[bi/8] |= m`. -/
def setBit (b : Block) (bi : ℕ) : Block := b.blit (bi / 8) [b.get (bi / 8) ||| bitMask bi]

/-- `bp->data[bi/8] &= ~m`. -/
def clearBit (b : Block) (bi : ℕ) : Block := b.blit (bi / 8) [b.get (bi / 8) &&& ~~~ bitMask bi]

theorem mask_table : ∀ x : Fin 256, ∀ i : Fin 8,
    (UInt8.ofNat x &&& UInt8.ofNat (2 ^ i.1) != 0) = x.1.testBit i := by
  decide +kernel

/-- The masks of a byte pick out its eight bits. -/
theorem bitMask_test (x : UInt8) (i : ℕ) : (x &&& bitMask i != 0) = x.toNat.testBit (i % 8) := by
  have h := mask_table ⟨x.toNat, x.toNat_lt⟩ ⟨i % 8, Nat.mod_lt _ (by omega)⟩
  simpa [bitMask, UInt8.ofNat_toNat] using h

theorem testBit_bitMask (i j : ℕ) : (bitMask i).toNat.testBit (j % 8) = decide (j % 8 = i % 8) := by
  have hpow : 2 ^ (i % 8) < 256 := Nat.pow_lt_pow_right (by omega) (Nat.mod_lt i (by omega))
  rw [bitMask, UInt8.toNat_ofNat_of_lt' hpow, Nat.testBit_two_pow]
  simp [eq_comm]

theorem bitMask_or (x : UInt8) (i j : ℕ) : ((x ||| bitMask i) &&& bitMask j != 0) =
    if j % 8 = i % 8 then true else x &&& bitMask j != 0 := by
  rw [bitMask_test, bitMask_test, UInt8.toNat_or, Nat.testBit_or, testBit_bitMask]
  by_cases h : j % 8 = i % 8 <;> simp [h]

theorem bitMask_andNot (x : UInt8) (i j : ℕ) : ((x &&& ~~~ bitMask i) &&& bitMask j != 0) =
    if j % 8 = i % 8 then false else x &&& bitMask j != 0 := by
  have hnot : (~~~ bitMask i).toNat.testBit (j % 8) = !(bitMask i).toNat.testBit (j % 8) := by
    have hj : j % 8 < 8 := Nat.mod_lt j (by omega)
    rw [← UInt8.toNat_toBitVec, ← UInt8.toNat_toBitVec, BitVec.testBit_toNat, BitVec.testBit_toNat,
      UInt8.toBitVec_not, BitVec.getLsbD_not]
    simp [hj]
  rw [bitMask_test, bitMask_test, UInt8.toNat_and, Nat.testBit_and, hnot, testBit_bitMask]
  by_cases h : j % 8 = i % 8 <;> simp [h]

/-- Overwriting the byte of bit `i` keeps every bit of the other bytes. -/
theorem bitAt_blit_ne (b : Block) {i j : ℕ} (x : UInt8) (h : j / 8 ≠ i / 8) (hj : j < BPB) :
    bitAt (b.blit (i / 8) [x]) j = bitAt b j := by
  have hj8 : j / 8 < BSIZE := by
    have : j < 8192 := hj
    show j / 8 < 1024
    omega
  rw [bitAt, Bytes.get_blit _ _ _ hj8, if_neg (by simp; omega), bitAt]

theorem get_blit_bit (b : Block) {i : ℕ} (x : UInt8) (hi : i < BPB) :
    Bytes.get (b.blit (i / 8) [x]) (i / 8) = x := by
  have hi8 : i / 8 < BSIZE := by
    have : i < 8192 := hi
    show i / 8 < 1024
    omega
  rw [Bytes.get_blit _ _ _ hi8, if_pos (by simp)]
  simp

/-- Setting a bit changes that bit only. -/
theorem bitAt_setBit (b : Block) {i j : ℕ} (hi : i < BPB) (hj : j < BPB) :
    bitAt (setBit b i) j = if j = i then true else bitAt b j := by
  by_cases hbyte : j / 8 = i / 8
  · rw [bitAt, hbyte, setBit, get_blit_bit b _ hi, bitMask_or, bitAt, hbyte]
    by_cases hji : j = i
    · simp [hji]
    · rw [if_neg (by omega), if_neg hji]
  · rw [setBit, bitAt_blit_ne b _ hbyte hj, if_neg (by rintro rfl; exact hbyte rfl)]

/-- Clearing a bit changes that bit only. -/
theorem bitAt_clearBit (b : Block) {i j : ℕ} (hi : i < BPB) (hj : j < BPB) :
    bitAt (clearBit b i) j = if j = i then false else bitAt b j := by
  by_cases hbyte : j / 8 = i / 8
  · rw [bitAt, hbyte, clearBit, get_blit_bit b _ hi, bitMask_andNot, bitAt, hbyte]
    by_cases hji : j = i
    · simp [hji]
    · rw [if_neg (by omega), if_neg hji]
  · rw [clearBit, bitAt_blit_ne b _ hbyte hj, if_neg (by rintro rfl; exact hbyte rfl)]

/-! ## Indirect blocks -/

/-- `a[k]` with `a = (uint*)bp->data`. -/
def wordAt (b : Block) (k : ℕ) : ℕ := b.getLE (4 * k) 4

/-- `a[k] = v`. -/
def setWord (b : Block) (k v : ℕ) : Block := b.putLE (4 * k) 4 v

theorem wordAt_setWord (b : Block) {k j v : ℕ} (hk : k < NINDIRECT) (hv : v < 2 ^ 32) :
    wordAt (setWord b k v) j = if j = k then v else wordAt b j := by
  by_cases hjk : j = k
  · have hk256 : k < 256 := hk
    subst hjk
    rw [if_pos rfl, wordAt, setWord, Bytes.getLE_putLE_same _ _ _ _ (by show 4 * j + 4 ≤ 1024; omega)]
    exact Nat.mod_eq_of_lt hv
  · rw [if_neg hjk, wordAt, setWord, Bytes.getLE_putLE_disjoint _ _ (by omega), wordAt]

@[simp] theorem wordAt_zero (k : ℕ) : wordAt (Bytes.zero BSIZE) k = 0 := by
  simp [wordAt, Bytes.getLE, Bytes.slice, Bytes.leNat, List.range_succ]

end Xv6
