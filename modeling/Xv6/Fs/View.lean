import Xv6.Fs.Inode

/-! # The file system seen through its block contents

Three views of the block contents carry all reasoning about `fs.c`: the on-disk inodes
(`Fs.dinode`), the bits of the free map (`Fs.bit`), and the data blocks themselves. On a disk with
the usual layout a write to one of the three regions leaves the other two views alone. -/

namespace Xv6.Fs

/-- The on-disk inode `i`, as `bread` sees it. -/
def dinode (s : Fs) (i : ℕ) : Dinode := Dinode.read (s.cache (s.sb.IBLOCK i)) (i % IPB)

/-- The free map bit of block `b`. -/
def bit (s : Fs) (b : ℕ) : Bool := bitAt (s.cache (s.sb.BBLOCK b)) (b % BPB)

/-- The data blocks marked in use. -/
def inUse (s : Fs) : Set ℕ := {b | s.sb.IsData b ∧ s.bit b = true}

variable {s t : Fs} {b c i j : ℕ}

@[simp] theorem setBuf_sb (s : Fs) (b : ℕ) (f : Block → Block) : (s.setBuf b f).sb = s.sb := rfl

@[simp] theorem setBuf_same (s : Fs) (b : ℕ) (f : Block → Block) :
    (s.setBuf b f).cache b = f (s.cache b) := by
  simp [setBuf]

theorem setBuf_ne (s : Fs) {b c : ℕ} (f : Block → Block) (h : c ≠ b) :
    (s.setBuf b f).cache c = s.cache c := by
  simp [setBuf, h]

/-! ## Writes to a data block -/

theorem dinode_of_data (hwf : s.sb.WellFormed) (hsb : t.sb = s.sb) (hc : s.sb.dataStart ≤ c)
    (hcache : ∀ b, b ≠ c → t.cache b = s.cache b) (hi : i < s.sb.ninodes) :
    t.dinode i = s.dinode i := by
  have h1 := hwf.iblock_lt hi
  have h2 := hwf.bmapstart_le
  rw [dinode, dinode, hsb, hcache _ (by omega)]

theorem bit_of_data (hwf : s.sb.WellFormed) (hsb : t.sb = s.sb) (hc : s.sb.dataStart ≤ c)
    (hcache : ∀ b, b ≠ c → t.cache b = s.cache b) (hb : b < s.sb.nbits) : t.bit b = s.bit b := by
  have h1 := hwf.bblock_lt hb
  rw [bit, bit, hsb, hcache _ (by omega)]

/-! ## Writes to the free map -/

/-- The state after the free map bit of block `b` was overwritten. -/
def putBit (s : Fs) (b : ℕ) (v : Bool) : Fs :=
  s.setBuf (s.sb.BBLOCK b) fun blk => if v then setBit blk (b % BPB) else clearBit blk (b % BPB)

@[simp] theorem putBit_sb (s : Fs) (b : ℕ) (v : Bool) : (s.putBit b v).sb = s.sb := rfl

theorem bit_putBit (s : Fs) (b c : ℕ) (v : Bool) :
    (s.putBit b v).bit c = if c = b then v else s.bit c := by
  have hb : b % BPB < BPB := Nat.mod_lt _ (by decide)
  have hc : c % BPB < BPB := Nat.mod_lt _ (by decide)
  by_cases hblk : s.sb.BBLOCK c = s.sb.BBLOCK b
  · -- same block of the free map: the bits differ unless the block numbers agree
    have hiff : c % BPB = b % BPB ↔ c = b := by
      simp only [Superblock.BBLOCK, BPB, BSIZE] at hblk ⊢
      omega
    cases v with
    | true => simp [bit, putBit, hblk, bitAt_setBit _ hb hc, hiff]
    | false => simp [bit, putBit, hblk, bitAt_clearBit _ hb hc, hiff]
  · have hne : c ≠ b := fun h => hblk (by rw [h])
    simp [bit, putBit, hne, setBuf_ne _ _ hblk]

theorem dinode_putBit (hwf : s.sb.WellFormed) (v : Bool) (hi : i < s.sb.ninodes) :
    (s.putBit b v).dinode i = s.dinode i := by
  have h1 := hwf.iblock_lt hi
  have h2 := @Superblock.WellFormed.le_bblock s.sb b
  have hne : s.sb.IBLOCK i ≠ s.sb.BBLOCK b := by omega
  simp [dinode, putBit, setBuf_ne _ _ hne]

theorem cache_putBit (hwf : s.sb.WellFormed) (v : Bool) (hb : b < s.sb.nbits)
    (hc : s.sb.dataStart ≤ c) : (s.putBit b v).cache c = s.cache c := by
  have h1 := hwf.bblock_lt hb
  have hne : c ≠ s.sb.BBLOCK b := by omega
  exact setBuf_ne _ _ hne

/-! ## Writes to the inode blocks -/

/-- The state after the on-disk inode `i` was overwritten. -/
def putDinode (s : Fs) (i : ℕ) (d : Dinode) : Fs :=
  s.setBuf (s.sb.IBLOCK i) (Dinode.write · (i % IPB) d)

@[simp] theorem putDinode_sb (s : Fs) (i : ℕ) (d : Dinode) : (s.putDinode i d).sb = s.sb := rfl

theorem dinode_putDinode (s : Fs) {i : ℕ} {d : Dinode} (hd : d.Fits) (j : ℕ) :
    (s.putDinode i d).dinode j = if j = i then d else s.dinode j := by
  by_cases hblk : s.sb.IBLOCK j = s.sb.IBLOCK i
  · rcases eq_or_ne j i with rfl | hji
    · rw [if_pos rfl, dinode]
      simp [putDinode, Dinode.read_write_same _ (Nat.mod_lt j (by decide)) hd]
    · have hne : j % IPB ≠ i % IPB := by
        simp only [Superblock.IBLOCK, IPB, BSIZE] at hblk ⊢
        omega
      rw [if_neg hji, dinode, dinode]
      simp [putDinode, hblk, Dinode.read_write_ne _ hne]
  · have hji : j ≠ i := fun h => hblk (by rw [h])
    simp [dinode, putDinode, hji, setBuf_ne _ _ hblk]

theorem bit_putDinode (hwf : s.sb.WellFormed) (d : Dinode) (hi : i < s.sb.ninodes) (b : ℕ) :
    (s.putDinode i d).bit b = s.bit b := by
  have h1 := hwf.iblock_lt hi
  have h2 := @Superblock.WellFormed.le_bblock s.sb b
  have hne : s.sb.BBLOCK b ≠ s.sb.IBLOCK i := by omega
  simp [bit, putDinode, setBuf_ne _ _ hne]

theorem cache_putDinode (hwf : s.sb.WellFormed) (d : Dinode) (hi : i < s.sb.ninodes)
    (hc : s.sb.dataStart ≤ c) : (s.putDinode i d).cache c = s.cache c := by
  have h1 := hwf.iblock_lt hi
  have h2 := hwf.bmapstart_le
  have hne : c ≠ s.sb.IBLOCK i := by omega
  exact setBuf_ne _ _ hne

/-! ## The blocks of a file -/

/-- The places of an inode that can hold a block number: `NDIRECT` direct ones, the indirect one,
and the entries of the indirect block. -/
abbrev NPLACE : ℕ := NDIRECT + 1 + NINDIRECT

/-- The block number at place `k` of an inode, `0` for none. -/
def slot (s : Fs) (d : Dinode) (k : ℕ) : ℕ :=
  if k < NDIRECT + 1 then d.addr k
  else if d.addr NDIRECT = 0 then 0 else wordAt (s.cache (d.addr NDIRECT)) (k - (NDIRECT + 1))

/-- The block that holds block `bn` of a file: what `bmap` finds without allocating. -/
def blockOf (s : Fs) (d : Dinode) (bn : ℕ) : ℕ := s.slot d (if bn < NDIRECT then bn else bn + 1)

/-- What the places of the allocated inodes hold. -/
def place (s : Fs) (D : ℕ → Dinode) (p : ℕ × ℕ) : Option ℕ :=
  if p.1 < s.sb.ninodes ∧ (D p.1).type ≠ 0 ∧ p.2 < NPLACE ∧ s.slot (D p.1) p.2 ≠ 0 then
    some (s.slot (D p.1) p.2)
  else none

variable {D : ℕ → Dinode} {d : Dinode} {k : ℕ}

theorem place_eq_some : s.place D (i, k) = some b ↔
    i < s.sb.ninodes ∧ (D i).type ≠ 0 ∧ k < NPLACE ∧ s.slot (D i) k = b ∧ b ≠ 0 := by
  unfold place
  simp only [Option.ite_none_right_eq_some, Option.some.injEq]
  constructor
  · rintro ⟨⟨h1, h2, h3, h4⟩, rfl⟩
    exact ⟨h1, h2, h3, rfl, h4⟩
  · rintro ⟨h1, h2, h3, rfl, h4⟩
    exact ⟨⟨h1, h2, h3, h4⟩, rfl⟩

theorem place_eq_none_of_slot (h : s.slot (D i) k = 0) : s.place D (i, k) = none := by
  simp [place, h]

theorem slot_of_le (hk : k < NDIRECT + 1) : s.slot d k = d.addr k := if_pos hk

theorem slot_of_ge (hk : NDIRECT + 1 ≤ k) (ha : d.addr NDIRECT ≠ 0) :
    s.slot d k = wordAt (s.cache (d.addr NDIRECT)) (k - (NDIRECT + 1)) := by
  rw [slot, if_neg (by omega), if_neg ha]

theorem slot_of_ge_zero (hk : NDIRECT + 1 ≤ k) (ha : d.addr NDIRECT = 0) : s.slot d k = 0 := by
  rw [slot, if_neg (by omega), if_pos ha]

/-- The slots of an inode depend on its addresses and on the contents of its indirect block. -/
theorem slot_congr {d' : Dinode} (haddr : ∀ k < NDIRECT + 1, d'.addr k = d.addr k)
    (hcache : d.addr NDIRECT ≠ 0 → t.cache (d.addr NDIRECT) = s.cache (d.addr NDIRECT)) (k : ℕ) :
    t.slot d' k = s.slot d k := by
  have hind : d'.addr NDIRECT = d.addr NDIRECT := haddr _ (by decide)
  unfold slot
  rw [hind]
  by_cases hk : k < NDIRECT + 1
  · rw [if_pos hk, if_pos hk, haddr k hk]
  · rw [if_neg hk, if_neg hk]
    by_cases ha : d.addr NDIRECT = 0
    · rw [if_pos ha, if_pos ha]
    · rw [if_neg ha, if_neg ha, hcache ha]

/-- The place of a file block. -/
theorem blockOf_lt {bn : ℕ} (hbn : bn < MAXFILE) : (if bn < NDIRECT then bn else bn + 1) < NPLACE := by
  simp only [NPLACE, MAXFILE, NDIRECT, NINDIRECT, BSIZE] at *
  split <;> omega

end Xv6.Fs
