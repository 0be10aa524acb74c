import Xv6.Fs.Inode

/-! # Directories and paths

Directories are files of fixed-size entries; paths are walked one element at a time. The functions
are those of `kernel/fs.c`, with the current directory of the calling process as an argument. A C
string is the list of its bytes before the terminating NUL. -/

namespace Xv6

/-! ## Entries and names -/

/-- A directory entry: `inum = 0` marks a free one, and the name is NUL-padded. -/
structure Dirent where
  inum : ℕ
  name : List UInt8
  deriving DecidableEq, Repr

namespace Dirent

/-- The entry stored in `DIRENT` bytes. -/
def decode (l : List UInt8) : Dirent := ⟨Bytes.leNat (l.take 2), (l.drop 2).take DIRSIZ⟩

/-- The bytes of an entry. -/
def encode (de : Dirent) : List UInt8 := Bytes.leBytes 2 de.inum ++ de.name

end Dirent

/-- `strncmp(p, q, n)`. -/
def strncmp : ℕ → List UInt8 → List UInt8 → ℤ
  | 0, _, _ => 0
  | n + 1, p, q =>
    if p.headD 0 ≠ 0 ∧ p.headD 0 = q.headD 0 then strncmp n p.tail q.tail
    else (p.headD 0).toNat - (q.headD 0).toNat

/-- `namecmp`. -/
def namecmp (s t : List UInt8) : ℤ := strncmp DIRSIZ s t

/-- `strncpy(s, t, n)`: at most `n` bytes, padded with zeros. -/
def strncpy (t : List UInt8) (n : ℕ) : List UInt8 := t.take n ++ List.replicate (n - t.length) 0

/-- The bytes of a kernel buffer. -/
def Dst.buf : Dst → List UInt8
  | .kernel buf => buf
  | .user _ _ => []

/-- Read one entry; `p` is the panic for a short read. -/
def readDirent (dp : Fin NINODE) (off : ℕ) (p : Panic) : FsM Dirent := do
  let r ← readi dp (.kernel (List.replicate DIRENT 0)) off DIRENT
  if r.1 = DIRENT then return Dirent.decode r.2.buf else throw p

/-- The loop over the entries of a directory that `dirlookup`, `dirlink` and `isdirempty` share:
`for(; off < dp->size; off += sizeof(de))`, left at the first entry that satisfies `stop`. The
result is that entry and the offset reached. -/
def scanFrom (dp : Fin NINODE) (p : Panic) (stop : Dirent → Bool) :
    ℕ → ℕ → FsM (Option Dirent × ℕ)
  | 0, off => return (none, off)
  | rounds + 1, off => do
    let de ← readDirent dp off p
    if stop de then return (some de, off) else scanFrom dp p stop rounds (off + DIRENT)

/-- The loop from offset `off` on, with the size as it is at the start. -/
def scan (dp : Fin NINODE) (p : Panic) (stop : Dirent → Bool) (off : ℕ) :
    FsM (Option Dirent × ℕ) := do
  let size := (← inode dp).size
  scanFrom dp p stop ((size - off + (DIRENT - 1)) / DIRENT) off

/-- The entry is in use and has the name. -/
def Dirent.named (name : List UInt8) (de : Dirent) : Bool := de.inum ≠ 0 ∧ namecmp name de.name = 0

/-- The entry is free. -/
def Dirent.free (de : Dirent) : Bool := de.inum = 0

/-- Look for a directory entry in a directory: its inode and the offset of the entry. -/
def dirlookup (dp : Fin NINODE) (name : List UInt8) : FsM (Option (Fin NINODE × ℕ)) := do
  if (← inode dp).type ≠ T_DIR then throw .dirlookupNotDir
  else
    match ← scan dp .dirlookupRead (Dirent.named name) 0 with
    | (some de, off) =>
      -- entry matches path element
      let ip ← iget de.inum
      return some (ip, off)
    | (none, _) => return none

/-- Write a new directory entry `(name, inum)` into the directory `dp`. -/
def dirlink (dp : Fin NINODE) (name : List UInt8) (inum : ℕ) : FsM ℤ := do
  match ← dirlookup dp name with
  | some (ip, _) =>
    iput ip
    return -1
  | none =>
    -- look for an empty entry
    let (_, off) ← scan dp .dirlinkRead Dirent.free 0
    let r ← writei dp (.kernel (Dirent.encode ⟨inum, strncpy name DIRSIZ⟩)) off DIRENT
    if r = DIRENT then return 0 else return -1

/-- Is the directory empty except for `.` and `..`? -/
def isdirempty (dp : Fin NINODE) : FsM Bool := do
  let (de, _) ← scan dp .isdiremptyReadi (fun de => !de.free) (2 * DIRENT)
  return de.isNone

/-! ## Paths -/

/-- The character `/`. -/
abbrev slash : UInt8 := 47

/-- The character `.`. -/
abbrev dot : UInt8 := 46

/-- The next path element, cut to `DIRSIZ` bytes, and the path after it and its slashes. -/
def skipelem (path : List UInt8) : Option (List UInt8 × List UInt8) :=
  match path.dropWhile (· = slash) with
  | [] => none
  | s => some ((s.takeWhile (· ≠ slash)).take DIRSIZ,
      (s.dropWhile (· ≠ slash)).dropWhile (· = slash))

/-- The loop of `namex`. Every round consumes a path element, so more rounds than the path has
bytes are enough. -/
def namexLoop (nameiparent : Bool) : ℕ → Fin NINODE → List UInt8 →
    FsM (Option (Fin NINODE × List UInt8))
  | 0, _, _ => return none
  | rounds + 1, ip, path =>
    match skipelem path with
    | none =>
      if nameiparent then do
        iput ip
        return none
      else return some (ip, [])
    | some (name, path) => do
      ilock ip
      if (← inode ip).type ≠ T_DIR then
        iunlockput ip
        return none
      else if nameiparent ∧ path = [] then
        -- stop one level early
        iunlock ip
        return some (ip, name)
      else
        match ← dirlookup ip name with
        | none =>
          iunlockput ip
          return none
        | some (next, _) =>
          iunlockput ip
          namexLoop nameiparent rounds next path

/-- Look up the inode of a path name, or that of its parent with the final path element. -/
def namex (cwd : Fin NINODE) (path : List UInt8) (nameiparent : Bool) :
    FsM (Option (Fin NINODE × List UInt8)) := do
  let ip ← if path.head? = some slash then iget ROOTINO else idup cwd
  namexLoop nameiparent (path.length + 1) ip path

/-- `namei`. -/
def namei (cwd : Fin NINODE) (path : List UInt8) : FsM (Option (Fin NINODE)) := do
  return (← namex cwd path false).map Prod.fst

/-- `nameiparent`. -/
def nameiparent (cwd : Fin NINODE) (path : List UInt8) :
    FsM (Option (Fin NINODE × List UInt8)) := namex cwd path true

/-! ## Creating and removing names -/

/-- The end of `create` after something went wrong: de-allocate `ip`. -/
def createFail (dp ip : Fin NINODE) : FsM (Option (Fin NINODE)) := do
  modifyInode ip fun e => { e with nlink := 0 }
  iupdate ip
  iunlockput ip
  iunlockput dp
  return none

/-- The end of `create`: enter the new inode in its directory. -/
def createEnter (dp ip : Fin NINODE) (name : List UInt8) (type : Int16) :
    FsM (Option (Fin NINODE)) := do
  if (← dirlink dp name (← inode ip).inum) < 0 then createFail dp ip
  else
    -- now that success is guaranteed: a link for ".."
    (if type = T_DIR then do
      modifyInode dp fun e => { e with nlink := e.nlink + 1 }
      iupdate dp
    else return () : FsM Unit)
    iunlockput dp
    return some ip

/-- `create` once the directory `dp` and the name are known. -/
def createAt (dp : Fin NINODE) (name : List UInt8) (type major minor : Int16) :
    FsM (Option (Fin NINODE)) := do
  ilock dp
  match ← dirlookup dp name with
  | some (ip, _) =>
    iunlockput dp
    ilock ip
    let e ← inode ip
    if type = T_FILE ∧ (e.type = T_FILE ∨ e.type = T_DEVICE) then return some ip
    else
      iunlockput ip
      return none
  | none =>
    match ← ialloc type with
    | none =>
      iunlockput dp
      return none
    | some ip =>
      ilock ip
      modifyInode ip fun e => { e with major := major, minor := minor, nlink := 1 }
      iupdate ip
      if type = T_DIR then
        -- create . and .. entries
        if (← dirlink ip [dot] (← inode ip).inum) < 0 then createFail dp ip
        else if (← dirlink ip [dot, dot] (← inode dp).inum) < 0 then createFail dp ip
        else createEnter dp ip name type
      else createEnter dp ip name type

/-- Create the path as a new inode, or open it if it is a file and exists. The inode returned is
locked. -/
def create (cwd : Fin NINODE) (path : List UInt8) (type major minor : Int16) :
    FsM (Option (Fin NINODE)) := do
  match ← nameiparent cwd path with
  | none => return none
  | some (dp, name) => createAt dp name type major minor

/-- `sys_unlink` once nothing is in the way of removing the entry at `off`. -/
def unlinkCommit (dp ip : Fin NINODE) (off : ℕ) : FsM ℤ := do
  let r ← writei dp (.kernel (List.replicate DIRENT 0)) off DIRENT
  if r ≠ DIRENT then throw .unlinkWritei
  else
    (if (← inode ip).type = T_DIR then do
      modifyInode dp fun e => { e with nlink := e.nlink - 1 }
      iupdate dp
    else return () : FsM Unit)
    iunlockput dp
    modifyInode ip fun e => { e with nlink := e.nlink - 1 }
    iupdate ip
    iunlockput ip
    endOp
    return 0

/-- `sys_unlink` once the entry `(ip, off)` of `dp` is found. -/
def unlinkEntry (dp ip : Fin NINODE) (off : ℕ) : FsM ℤ := do
  ilock ip
  let e ← inode ip
  if e.nlink < 1 then throw .unlinkNlink
  else
    let busy ← (if e.type = T_DIR then do return !(← isdirempty ip) else return false : FsM Bool)
    if busy then
      iunlockput ip
      iunlockput dp
      endOp
      return -1
    else unlinkCommit dp ip off

/-- `sys_unlink` once the directory `dp` and the name are known. -/
def unlinkAt (dp : Fin NINODE) (name : List UInt8) : FsM ℤ := do
  ilock dp
  -- cannot unlink "." or ".."
  if namecmp name [dot] = 0 ∨ namecmp name [dot, dot] = 0 then
    iunlockput dp
    endOp
    return -1
  else
    match ← dirlookup dp name with
    | none =>
      iunlockput dp
      endOp
      return -1
    | some (ip, off) => unlinkEntry dp ip off

/-- The path argument of a system call: `none` if it cannot be fetched or is too long. -/
def argstr (arg : Option (List UInt8)) : Option (List UInt8) :=
  arg.bind fun path =>
    let path := path.takeWhile (· ≠ 0)
    if path.length < MAXPATH then some path else none

/-- `sys_unlink`. -/
def sysUnlink (cwd : Fin NINODE) (arg : Option (List UInt8)) : FsM ℤ := do
  match argstr arg with
  | none => return -1
  | some path =>
    beginOp
    match ← nameiparent cwd path with
    | none =>
      endOp
      return -1
    | some (dp, name) => unlinkAt dp name

/-- The `bad:` path of `sys_link`: take the link count back. -/
def linkBad (ip : Fin NINODE) : FsM ℤ := do
  ilock ip
  modifyInode ip fun e => { e with nlink := e.nlink - 1 }
  iupdate ip
  iunlockput ip
  endOp
  return -1

/-- `sys_link`. -/
def sysLink (cwd : Fin NINODE) (oldArg newArg : Option (List UInt8)) : FsM ℤ := do
  match argstr oldArg, argstr newArg with
  | some old, some new =>
    beginOp
    match ← namei cwd old with
    | none =>
      endOp
      return -1
    | some ip =>
      ilock ip
      if (← inode ip).type = T_DIR then
        iunlockput ip
        endOp
        return -1
      else
        modifyInode ip fun e => { e with nlink := e.nlink + 1 }
        iupdate ip
        iunlock ip
        match ← nameiparent cwd new with
        | none => linkBad ip
        | some (dp, name) =>
          ilock dp
          if (← dirlink dp name (← inode ip).inum) < 0 then
            iunlockput dp
            linkBad ip
          else
            iunlockput dp
            iput ip
            endOp
            return 0
  | _, _ => return -1

/-- `sys_mkdir` and `sys_mknod`: create the path and drop the reference. -/
def sysMake (cwd : Fin NINODE) (arg : Option (List UInt8)) (type major minor : Int16) : FsM ℤ := do
  beginOp
  match argstr arg with
  | none =>
    endOp
    return -1
  | some path =>
    match ← create cwd path type major minor with
    | none =>
      endOp
      return -1
    | some ip =>
      iunlockput ip
      endOp
      return 0

/-- `sys_mkdir`. -/
def sysMkdir (cwd : Fin NINODE) (arg : Option (List UInt8)) : FsM ℤ := sysMake cwd arg T_DIR 0 0

/-- `sys_mknod`; the device numbers are cut to `short`. -/
def sysMknod (cwd : Fin NINODE) (arg : Option (List UInt8)) (major minor : ℤ) : FsM ℤ :=
  sysMake cwd arg T_DEVICE (Int16.ofInt major) (Int16.ofInt minor)

end Xv6
