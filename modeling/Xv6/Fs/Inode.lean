import Xv6.Panic
import Xv6.Lib.Wp
import Xv6.Fs.Layout
import Xv6.Fs.Copy

/-! # Blocks and inodes

The block allocator and the inode layer of `kernel/fs.c`, run without interleaving. The state holds
the block contents as `bread` returns them, the blocks on the disk itself, the blocks passed to
`log_write` since `begin_op`, the inode table and what was printed. Functions run in `FsM` and stop
with a `Panic` where the source calls `panic`. Locks are left out: a single thread never waits for
them. -/

namespace Xv6

/-- An in-memory inode: the copy of the on-disk inode and the table's own fields. -/
structure Inode extends Dinode where
  inum : ℕ
  ref : ℤ
  valid : Bool

/-- The state of the file system. -/
structure Fs where
  sb : Superblock
  cache : ℕ → Block
  disk : ℕ → Block
  logged : List ℕ
  itable : Fin NINODE → Inode
  console : List String

/-- File system code: it updates the state or panics. -/
abbrev FsM : Type → Type := StateT Fs (Except Panic)

/-! ## Buffers and the log -/

/-- `bread`. -/
def bread (b : ℕ) : FsM Block := do return (← get).cache b

/-- The state with the data of the buffer of block `b` changed. -/
def Fs.setBuf (s : Fs) (b : ℕ) (f : Block → Block) : Fs :=
  { s with cache := Function.update s.cache b (f (s.cache b)) }

/-- Change the data of the buffer of block `b`. -/
def modifyBuf (b : ℕ) (f : Block → Block) : FsM Unit := modify fun s => s.setBuf b f

/-- `log_write`: the buffer joins the current transaction. -/
def logWrite (b : ℕ) : FsM Unit := modify fun s => { s with logged := b :: s.logged }

/-- `begin_op`. -/
def beginOp : FsM Unit := modify fun s => { s with logged := [] }

/-- `end_op`, which commits, since no other operation is outstanding. -/
def endOp : FsM Unit := modify fun s =>
  { s with disk := fun b => if b ∈ s.logged then s.cache b else s.disk b, logged := [] }

def printf (msg : String) : FsM Unit := modify fun s => { s with console := s.console ++ [msg] }

/-- Zero a block. -/
def bzero (bno : ℕ) : FsM Unit := do
  modifyBuf bno fun _ => Bytes.zero BSIZE
  logWrite bno

/-! ## Block allocation -/

/-- The inner loop of `balloc`: the first clear bit of a free map block, among the first `lim`. -/
def freeBit (bp : Block) (lim : ℕ) : Option ℕ := (List.range lim).find? fun bi => !bitAt bp bi

/-- The outer loop of `balloc`, from block `b` on. -/
def ballocFrom : ℕ → ℕ → FsM ℕ
  | 0, _ => do
    printf "balloc: out of blocks\n"
    return 0
  | rounds + 1, b => do
    let sb := (← get).sb
    let bp ← bread (sb.BBLOCK b)
    match freeBit bp (min BPB (sb.size - b)) with
    | some bi =>
      modifyBuf (sb.BBLOCK b) (setBit · bi)
      logWrite (sb.BBLOCK b)
      bzero (b + bi)
      return b + bi
    | none => ballocFrom rounds (b + BPB)

/-- Allocate a zeroed disk block, `0` if out of disk space. -/
def balloc : FsM ℕ := do ballocFrom (((← get).sb.size + BPB - 1) / BPB) 0

/-- Free a disk block. -/
def bfree (b : ℕ) : FsM Unit := do
  let sb := (← get).sb
  let bp ← bread (sb.BBLOCK b)
  if bitAt bp (b % BPB) then
    modifyBuf (sb.BBLOCK b) (clearBit · (b % BPB))
    logWrite (sb.BBLOCK b)
  else throw .freeingFreeBlock

/-! ## The inode table -/

/-- `*ip`. -/
def inode (ip : Fin NINODE) : FsM Inode := do return (← get).itable ip

/-- The state with the in-memory inode `ip` changed. -/
def Fs.setInode (s : Fs) (ip : Fin NINODE) (f : Inode → Inode) : Fs :=
  { s with itable := Function.update s.itable ip (f (s.itable ip)) }

/-- Change the in-memory inode `ip`. -/
def modifyInode (ip : Fin NINODE) (f : Inode → Inode) : FsM Unit :=
  modify fun s => s.setInode ip f

/-- Find the inode with number `inum` in the table, or recycle an entry for it. -/
def iget (inum : ℕ) : FsM (Fin NINODE) := do
  let s ← get
  match (List.finRange NINODE).find? fun ip => 0 < (s.itable ip).ref ∧ (s.itable ip).inum = inum with
  | some ip =>
    modifyInode ip fun e => { e with ref := e.ref + 1 }
    return ip
  | none =>
    match (List.finRange NINODE).find? fun ip => (s.itable ip).ref = 0 with
    | some ip =>
      modifyInode ip fun e => { e with inum := inum, ref := 1, valid := false }
      return ip
    | none => throw .igetNoInodes

/-- Increment the reference count. -/
def idup (ip : Fin NINODE) : FsM (Fin NINODE) := do
  modifyInode ip fun e => { e with ref := e.ref + 1 }
  return ip

/-- The loop of `ialloc`, with `left` inode numbers still to look at. -/
def iallocLoop (type : Int16) : ℕ → FsM (Option (Fin NINODE))
  | 0 => do
    printf "ialloc: no inodes\n"
    return none
  | left + 1 => do
    let sb := (← get).sb
    let inum := sb.ninodes - (left + 1)
    let bp ← bread (sb.IBLOCK inum)
    if (Dinode.read bp (inum % IPB)).type = 0 then
      modifyBuf (sb.IBLOCK inum) (Dinode.write · (inum % IPB) { Dinode.zero with type := type })
      logWrite (sb.IBLOCK inum)
      return some (← iget inum)
    else iallocLoop type left

/-- Allocate an inode and give it the type `type`. -/
def ialloc (type : Int16) : FsM (Option (Fin NINODE)) := do
  iallocLoop type ((← get).sb.ninodes - 1)

/-- Copy a modified in-memory inode to disk. -/
def iupdate (ip : Fin NINODE) : FsM Unit := do
  let e ← inode ip
  let sb := (← get).sb
  modifyBuf (sb.IBLOCK e.inum) (Dinode.write · (e.inum % IPB) e.toDinode)
  logWrite (sb.IBLOCK e.inum)

/-- Lock the inode: read it from disk if necessary. -/
def ilock (ip : Fin NINODE) : FsM Unit := do
  let e ← inode ip
  if e.ref < 1 then throw .ilock
  else if e.valid then return ()
  else
    let sb := (← get).sb
    let bp ← bread (sb.IBLOCK e.inum)
    let d := Dinode.read bp (e.inum % IPB)
    modifyInode ip fun e => { e with toDinode := d, valid := true }
    if d.type = 0 then throw .ilockNoType else return ()

/-- Unlock the inode. -/
def iunlock (ip : Fin NINODE) : FsM Unit := do
  let e ← inode ip
  if e.ref < 1 then throw .iunlock else return ()

/-! ## Inode content -/

/-- `ip->addrs[k]`, with a new block stored there if it was `0`: the two levels of `bmap` start the
same way. -/
def bmapAddr (ip : Fin NINODE) (k : ℕ) : FsM ℕ := do
  let addr := (← inode ip).addr k
  if addr = 0 then
    let addr ← balloc
    if addr = 0 then return 0
    else
      modifyInode ip fun e => { e with toDinode := e.setAddr k addr }
      return addr
  else return addr

/-- Entry `k` of the indirect block `addr`, with a new block stored there if it was `0`. -/
def bmapWord (addr k : ℕ) : FsM ℕ := do
  let a ← bread addr
  if wordAt a k = 0 then
    let baddr ← balloc
    if baddr = 0 then return 0
    else
      modifyBuf addr (setWord · k baddr)
      logWrite addr
      return baddr
  else return wordAt a k

/-- The disk block address of the `bn`-th block of inode `ip`. If there is no such block, allocate
one; `0` if out of disk space. -/
def bmap (ip : Fin NINODE) (bn : ℕ) : FsM ℕ := do
  if bn < NDIRECT then bmapAddr ip bn
  else if bn - NDIRECT < NINDIRECT then
    let addr ← bmapAddr ip NDIRECT
    if addr = 0 then return 0 else bmapWord addr (bn - NDIRECT)
  else throw .bmapOutOfRange

/-- `if(ip->addrs[i]){ bfree(ip->addrs[i]); ip->addrs[i] = 0; }`. -/
def itruncAddr (ip : Fin NINODE) (i : ℕ) : FsM Unit := do
  let addr := (← inode ip).addr i
  if addr = 0 then return ()
  else
    bfree addr
    modifyInode ip fun e => { e with toDinode := e.setAddr i 0 }

/-- `if(a[j]) bfree(a[j])`. -/
def itruncWord (a : Block) (j : ℕ) : FsM Unit := do
  if wordAt a j = 0 then return () else bfree (wordAt a j)

/-- Truncate the inode (discard its contents). -/
def itrunc (ip : Fin NINODE) : FsM Unit := do
  (List.range NDIRECT).forM (itruncAddr ip)
  let addr := (← inode ip).addr NDIRECT
  (if addr = 0 then return ()
  else do
    let a ← bread addr
    (List.range NINDIRECT).forM (itruncWord a)
    bfree addr
    modifyInode ip fun e => { e with toDinode := e.setAddr NDIRECT 0 } : FsM Unit)
  modifyInode ip fun e => { e with size := 0 }
  iupdate ip

/-- Drop a reference to an in-memory inode. If that was the last one and the inode has no links,
free the inode and its content on disk. -/
def iput (ip : Fin NINODE) : FsM Unit := do
  let e ← inode ip
  (if e.ref = 1 ∧ e.valid ∧ e.nlink = 0 then do
    itrunc ip
    modifyInode ip fun e => { e with type := 0 }
    iupdate ip
    modifyInode ip fun e => { e with valid := false }
  else return () : FsM Unit)
  modifyInode ip fun e => { e with ref := e.ref - 1 }

/-- Unlock, then put. -/
def iunlockput (ip : Fin NINODE) : FsM Unit := do
  iunlock ip
  iput ip

/-- The loop of `readi`. Each round copies at least one byte, so `n` rounds are enough. -/
def readiLoop (ip : Fin NINODE) (n : ℕ) : ℕ → Dst → ℕ → ℕ → FsM (ℤ × Dst)
  | 0, dst, _, tot => return (tot, dst)
  | rounds + 1, dst, off, tot =>
    if tot < n then do
      let addr ← bmap ip (off / BSIZE)
      if addr = 0 then return (tot, dst)
      else
        let bp ← bread addr
        let m := min (n - tot) (BSIZE - off % BSIZE)
        let r := dst.copyout tot (bp.slice (off % BSIZE) m)
        if r.2 then readiLoop ip n rounds r.1 (off + m) (tot + m)
        else return (-1, r.1)
    else return (tot, dst)

/-- Read data from inode: the number of bytes read, and the destination. -/
def readi (ip : Fin NINODE) (dst : Dst) (off n : ℕ) : FsM (ℤ × Dst) := do
  let size := (← inode ip).size
  if size < off ∨ (off + n) % 2 ^ 32 < off then return (0, dst)
  else
    let n := if size < (off + n) % 2 ^ 32 then size - off else n
    readiLoop ip n n dst off 0

/-- The loop of `writei`, which returns the final `off` and `tot`. -/
def writeiLoop (ip : Fin NINODE) (src : Src) (n : ℕ) : ℕ → ℕ → ℕ → FsM (ℕ × ℕ)
  | 0, off, tot => return (off, tot)
  | rounds + 1, off, tot =>
    if tot < n then do
      let addr ← bmap ip (off / BSIZE)
      if addr = 0 then return (off, tot)
      else
        let m := min (n - tot) (BSIZE - off % BSIZE)
        let r := src.copyin tot m
        modifyBuf addr (Bytes.blit · (off % BSIZE) r.1)
        if r.2 then
          logWrite addr
          writeiLoop ip src n rounds (off + m) (tot + m)
        else return (off, tot)
    else return (off, tot)

/-- Write data to inode: the number of bytes written, `-1` for a bad range. -/
def writei (ip : Fin NINODE) (src : Src) (off n : ℕ) : FsM ℤ := do
  let size := (← inode ip).size
  if size < off ∨ (off + n) % 2 ^ 32 < off then return -1
  else if MAXFILE * BSIZE < (off + n) % 2 ^ 32 then return -1
  else
    let r ← writeiLoop ip src n n off 0
    modifyInode ip fun e => if e.size < r.1 then { e with size := r.1 } else e
    iupdate ip
    return r.2

end Xv6
