import Xv6.Fs.Dir

/-! # Open files

The file table of `kernel/file.c`. The state has the file system, the file table and, of the `m`
process slots, what the calls on files see: whether the slot is in use, the parent, the current
directory and the descriptors. Pipes and devices are outside: what they return is an argument. -/

namespace Xv6

/-- The kinds of `struct file`. -/
inductive FileType
  | none
  | pipe
  | inode
  | device
  deriving DecidableEq, Repr

/-- `struct file`, without the pointer to a pipe. -/
structure File where
  type : FileType
  ref : ℤ
  readable : Bool
  writable : Bool
  ip : Fin NINODE
  off : ℕ
  major : Int16

/-- `p->state`; the states between `UNUSED` and `ZOMBIE` count as one. -/
inductive Life
  | unused
  | live
  | zombie
  deriving DecidableEq, Repr

/-- The part of `struct proc` that calls on files use. -/
structure Proc (m : ℕ) where
  life : Life
  parent : Option (Fin m)
  cwd : Option (Fin NINODE)
  ofile : Fin NOFILE → Option (Fin NFILE)

/-- The kernel as these calls see it. -/
structure Sys (m : ℕ) where
  fs : Fs
  ftable : Fin NFILE → File
  procs : Fin m → Proc m
  panicked : Option Panic

/-- Code that runs in the kernel and may panic. -/
abbrev SysM (m : ℕ) := StateT (Sys m) (Except Panic)

variable {m : ℕ}

/-- Code of the file system. -/
def onFs {α : Type} (x : FsM α) : SysM m α := fun σ =>
  match x σ.fs with
  | .ok (a, t) => .ok (a, { σ with fs := t })
  | .error p => .error p

/-- The state with the file `f` changed. -/
def Sys.setFile (σ : Sys m) (f : Fin NFILE) (g : File → File) : Sys m :=
  { σ with ftable := Function.update σ.ftable f (g (σ.ftable f)) }

/-- The state with the process `p` changed. -/
def Sys.setProc (σ : Sys m) (p : Fin m) (g : Proc m → Proc m) : Sys m :=
  { σ with procs := Function.update σ.procs p (g (σ.procs p)) }

/-- `*f`. -/
def file (f : Fin NFILE) : SysM m File := do return (← get).ftable f

/-- Change the file `f`. -/
def modifyFile (f : Fin NFILE) (g : File → File) : SysM m Unit := modify fun σ => σ.setFile f g

/-- Change the process `p`. -/
def modifyProc (p : Fin m) (g : Proc m → Proc m) : SysM m Unit := modify fun σ => σ.setProc p g

/-- Allocate a file structure. -/
def filealloc : SysM m (Option (Fin NFILE)) := do
  let σ ← get
  match (List.finRange NFILE).find? fun f => (σ.ftable f).ref = 0 with
  | none => return none
  | some f =>
    modifyFile f fun e => { e with ref := 1 }
    return some f

/-- Increment ref count for file `f`. -/
def filedup (f : Fin NFILE) : SysM m (Fin NFILE) := do
  if (← file f).ref < 1 then throw .filedup
  else
    modifyFile f fun e => { e with ref := e.ref + 1 }
    return f

/-- Drop a reference to an inode in a transaction of its own. -/
def iputOp (ip : Fin NINODE) : FsM Unit := do
  beginOp
  iput ip
  endOp

/-- Close file `f`: decrement the reference count, close when it reaches 0. -/
def fileclose (f : Fin NFILE) : SysM m Unit := do
  let ff ← file f
  if ff.ref < 1 then throw .fileclose
  else if ff.ref - 1 > 0 then modifyFile f fun e => { e with ref := e.ref - 1 }
  else
    modifyFile f fun e => { e with ref := 0, type := .none }
    if ff.type = .inode ∨ ff.type = .device then onFs (iputOp ff.ip) else return ()

/-- Get metadata about file `f`; `ok` tells whether `copyout` succeeds. -/
def filestat (f : Fin NFILE) (ok : Bool) : SysM m ℤ := do
  let ff ← file f
  if ff.type = .inode ∨ ff.type = .device then
    onFs do
      ilock ff.ip
      iunlock ff.ip
    return if ok then 0 else -1
  else return -1

/-- Read from file `f`; `r` is what a pipe or a device returns. -/
def fileread (f : Fin NFILE) (dst : Dst) (n : UInt32) (r : ℤ) : SysM m ℤ := do
  let ff ← file f
  if ff.readable = false then return -1
  else
    match ff.type with
    | .pipe => return r
    | .device => return if ff.major.toInt < 0 ∨ NDEV ≤ ff.major.toInt then -1 else r
    | .inode =>
      let r ← onFs do
        ilock ff.ip
        readi ff.ip dst ff.off n.toNat
      modifyFile f fun e => if r.1 > 0 then { e with off := (e.off + r.1.toNat) % 2 ^ 32 } else e
      onFs (iunlock ff.ip)
      return r.1
    | .none => throw .fileread

/-- The loop of `filewrite`, which returns the final `i`: a few blocks at a time, to avoid exceeding
the maximum log transaction size. Every round that goes on writes a byte at least, so `n` rounds are
enough. -/
def filewriteLoop (f : Fin NFILE) (src : ℕ → Src) (n : ℕ) : ℕ → ℕ → SysM m ℕ
  | 0, i => return i
  | rounds + 1, i =>
    if i < n then do
      let n1 := min (n - i) ((MAXOPBLOCKS - 1 - 1 - 2) / 2 * BSIZE)
      let ff ← file f
      let r ← onFs do
        beginOp
        ilock ff.ip
        writei ff.ip (src i) ff.off n1
      modifyFile f fun e => if r > 0 then { e with off := (e.off + r.toNat) % 2 ^ 32 } else e
      onFs do
        iunlock ff.ip
        endOp
      if r ≠ n1 then return i else filewriteLoop f src n rounds (i + n1)
    else return i

/-- Write to file `f`; `src i` is the user's memory from byte `i` on, and `r` is what a pipe or a
device returns. -/
def filewrite (f : Fin NFILE) (src : ℕ → Src) (n r : ℤ) : SysM m ℤ := do
  let ff ← file f
  if ff.writable = false then return -1
  else
    match ff.type with
    | .pipe => return r
    | .device => return if ff.major.toInt < 0 ∨ NDEV ≤ ff.major.toInt then -1 else r
    | .inode =>
      let i ← filewriteLoop f src n.toNat n.toNat 0
      return if i = n then n else -1
    | .none => throw .filewrite

/-- Allocate the two ends of a pipe; `mem` tells whether `kalloc` succeeds. -/
def pipealloc (mem : Bool) : SysM m (Option (Fin NFILE × Fin NFILE)) := do
  match ← filealloc with
  | none => return none
  | some f0 =>
    match ← filealloc with
    | none =>
      fileclose f0
      return none
    | some f1 =>
      if mem then
        modifyFile f0 fun e => { e with type := .pipe, readable := true, writable := false }
        modifyFile f1 fun e => { e with type := .pipe, readable := false, writable := true }
        return some (f0, f1)
      else
        fileclose f0
        fileclose f1
        return none

end Xv6
