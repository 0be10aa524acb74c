import Xv6.Lib.Bytes

/-! # Kernel parameters

The constants of `kernel/param.h`, `kernel/fs.h` and `kernel/riscv.h` that the model uses, under the source's names. -/

namespace Xv6

/-- Max number of blocks any FS op writes. -/
abbrev MAXOPBLOCKS : ℕ := 10

/-- Max data blocks in the on-disk log. -/
abbrev LOGSIZE : ℕ := MAXOPBLOCKS * 3

/-- Block size in bytes. -/
abbrev BSIZE : ℕ := 1024

/-- The contents of a disk block. -/
abbrev Block : Type := Bytes BSIZE

/-- Bytes per page. -/
abbrev PGSIZE : ℕ := 4096

/-- One beyond the highest possible virtual address. -/
abbrev MAXVA : ℕ := 2 ^ (9 + 9 + 9 + 12 - 1)

/-- Open files per process. -/
abbrev NOFILE : ℕ := 16

/-- Open files per system. -/
abbrev NFILE : ℕ := 100

/-- Maximum number of active inodes. -/
abbrev NINODE : ℕ := 50

/-- Maximum major device number. -/
abbrev NDEV : ℕ := 10

/-- Maximum file path name. -/
abbrev MAXPATH : ℕ := 128

/-- Root inode number. -/
abbrev ROOTINO : ℕ := 1

/-- Direct block addresses of an inode. -/
abbrev NDIRECT : ℕ := 12

/-- Block addresses in an indirect block. -/
abbrev NINDIRECT : ℕ := BSIZE / 4

/-- Max blocks of a file. -/
abbrev MAXFILE : ℕ := NDIRECT + NINDIRECT

/-- Inodes per block. -/
abbrev IPB : ℕ := BSIZE / 64

/-- Bitmap bits per block. -/
abbrev BPB : ℕ := BSIZE * 8

/-- Bytes of a name in a directory entry. -/
abbrev DIRSIZ : ℕ := 14

/-- Bytes of a directory entry. -/
abbrev DIRENT : ℕ := 2 + DIRSIZ

/-- Inode type: directory. -/
abbrev T_DIR : Int16 := 1

/-- Inode type: file. -/
abbrev T_FILE : Int16 := 2

/-- Inode type: device. -/
abbrev T_DEVICE : Int16 := 3

/-- Open for reading only. -/
abbrev O_RDONLY : ℕ := 0x000

/-- Open for writing only. -/
abbrev O_WRONLY : ℕ := 0x001

/-- Open for reading and writing. -/
abbrev O_RDWR : ℕ := 0x002

/-- Create the file if it does not exist. -/
abbrev O_CREATE : ℕ := 0x200

/-- Truncate the file. -/
abbrev O_TRUNC : ℕ := 0x400

-- One proof each that the index types have a zero, so that a literal is the same term in every module.
instance neZero_NINODE : NeZero NINODE := ⟨by decide⟩
instance (priority := 2000) neZero_addrs : NeZero (NDIRECT + 1) := ⟨by decide⟩
instance neZero_512 : NeZero 512 := ⟨by decide⟩

end Xv6
