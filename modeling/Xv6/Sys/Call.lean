import Xv6.Sys.File
import Xv6.Sys.Exec

/-! # System calls

The calls of `kernel/sysfile.c`, and `fork`, `exit` and `wait` of `kernel/proc.c` as far as they touch
files and directories. A run of the kernel is a sequence of calls by processes, each taken as atomic;
a panic ends it. -/

namespace Xv6

variable {m : ℕ}

/-- The argument of a system call as a file descriptor, with the file. -/
def argfd (e : Proc m) (fd : ℤ) : Option (Fin NOFILE × Fin NFILE) :=
  if h : 0 ≤ fd ∧ fd < NOFILE then
    (e.ofile ⟨fd.toNat, by omega⟩).map fun f => (⟨fd.toNat, by omega⟩, f)
  else none

/-- Set descriptor `fd` of process `p`. -/
def setFd (p : Fin m) (fd : Fin NOFILE) (o : Option (Fin NFILE)) : SysM m Unit :=
  modifyProc p fun e => { e with ofile := Function.update e.ofile fd o }

/-- Allocate a file descriptor for the file; takes over the reference on success. -/
def fdalloc (p : Fin m) (f : Fin NFILE) : SysM m (Option (Fin NOFILE)) := do
  let σ ← get
  match (List.finRange NOFILE).find? fun fd => (σ.procs p).ofile fd = none with
  | none => return none
  | some fd =>
    setFd p fd (some f)
    return some fd

/-! ## Calls on descriptors -/

/-- A call on an open file. -/
def withFd (p : Fin m) (fd : ℤ) (x : Fin NOFILE → Fin NFILE → SysM m ℤ) : SysM m ℤ := do
  match argfd ((← get).procs p) fd with
  | none => return -1
  | some (k, f) => x k f

/-- `sys_dup`. -/
def sysDup (p : Fin m) (fd : ℤ) : SysM m ℤ :=
  withFd p fd fun _ f => do
    match ← fdalloc p f with
    | none => return -1
    | some k =>
      let _ ← filedup f
      return (k : ℤ)

/-- `sys_read`. -/
def sysRead (p : Fin m) (fd : ℤ) (dst : Dst) (n : UInt32) (r : ℤ) : SysM m ℤ :=
  withFd p fd fun _ f => fileread f dst n r

/-- `sys_write`. -/
def sysWrite (p : Fin m) (fd : ℤ) (src : ℕ → Src) (n r : ℤ) : SysM m ℤ :=
  withFd p fd fun _ f => filewrite f src n r

/-- `sys_fstat`. -/
def sysFstat (p : Fin m) (fd : ℤ) (ok : Bool) : SysM m ℤ := withFd p fd fun _ f => filestat f ok

/-- `sys_close`. -/
def sysClose (p : Fin m) (fd : ℤ) : SysM m ℤ :=
  withFd p fd fun k f => do
    setFd p k none
    fileclose f
    return 0

/-- `sys_pipe`; `mem` tells whether `kalloc` succeeds, `out` whether both numbers can be copied
out. -/
def sysPipe (p : Fin m) (mem out : Bool) : SysM m ℤ := do
  match ← pipealloc mem with
  | none => return -1
  | some (rf, wf) =>
    match ← fdalloc p rf with
    | none =>
      fileclose rf
      fileclose wf
      return -1
    | some fd0 =>
      match ← fdalloc p wf with
      | none =>
        setFd p fd0 none
        fileclose rf
        fileclose wf
        return -1
      | some fd1 =>
        if out then return 0
        else
          setFd p fd0 none
          setFd p fd1 none
          fileclose rf
          fileclose wf
          return -1

/-! ## `sys_open` -/

/-- The first part of `sys_open`: the inode, locked. -/
def openInode (cwd : Fin NINODE) (path : List UInt8) (omode : ℕ) : FsM (Option (Fin NINODE)) := do
  if omode &&& O_CREATE ≠ 0 then create cwd path T_FILE 0 0
  else
    match ← namei cwd path with
    | none => return none
    | some ip =>
      ilock ip
      if (← inode ip).type = T_DIR ∧ omode ≠ O_RDONLY then
        iunlockput ip
        return none
      else return some ip

/-- What `sys_open` does when it gives up with the inode locked. -/
def openFail (ip : Fin NINODE) : SysM m ℤ :=
  onFs do
    iunlockput ip
    endOp
    return -1

/-- What `sys_open` writes to the file structure. -/
def File.opened (g : File) (e : Inode) (ip : Fin NINODE) (omode : ℕ) : File :=
  { (if e.type = T_DEVICE then { g with type := .device, major := e.major }
      else { g with type := .inode, off := 0 } : File) with
    ip := ip
    readable := omode &&& O_WRONLY = 0
    writable := omode &&& O_WRONLY ≠ 0 ∨ omode &&& O_RDWR ≠ 0 }

/-- The last part of `sys_open`: fill in the file `f`. -/
def openFile (f : Fin NFILE) (fd : Fin NOFILE) (ip : Fin NINODE) (omode : ℕ) : SysM m ℤ := do
  let e ← onFs (inode ip)
  modifyFile f fun g => g.opened e ip omode
  onFs do
    (if omode &&& O_TRUNC ≠ 0 ∧ e.type = T_FILE then itrunc ip else return () : FsM Unit)
    iunlock ip
    endOp
    return (fd : ℤ)

/-- `sys_open` by a process in `cwd`; `omode` is the bits of the argument. -/
def sysOpen (p : Fin m) (cwd : Fin NINODE) (arg : Option (List UInt8)) (omode : ℕ) : SysM m ℤ := do
  match argstr arg with
  | none => return -1
  | some path =>
    onFs beginOp
    match ← onFs (openInode cwd path omode) with
    | none =>
      onFs endOp
      return -1
    | some ip =>
      let e ← onFs (inode ip)
      if e.type = T_DEVICE ∧ (e.major.toInt < 0 ∨ NDEV ≤ e.major.toInt) then openFail ip
      else
        match ← filealloc with
        | none => openFail ip
        | some f =>
          match ← fdalloc p f with
          | none =>
            fileclose f
            openFail ip
          | some fd => openFile f fd ip omode

/-! ## `sys_chdir` -/

/-- The part of `sys_chdir` that finds the directory. -/
def chdirInode (cwd : Fin NINODE) (arg : Option (List UInt8)) : FsM (Option (Fin NINODE)) := do
  beginOp
  match argstr arg with
  | none =>
    endOp
    return none
  | some path =>
    match ← namei cwd path with
    | none =>
      endOp
      return none
    | some ip =>
      ilock ip
      if (← inode ip).type ≠ T_DIR then
        iunlockput ip
        endOp
        return none
      else
        iunlock ip
        iput cwd
        endOp
        return some ip

/-- `sys_chdir`. -/
def sysChdir (p : Fin m) (cwd : Fin NINODE) (arg : Option (List UInt8)) : SysM m ℤ := do
  match ← onFs (chdirInode cwd arg) with
  | none => return -1
  | some ip =>
    modifyProc p fun e => { e with cwd := some ip }
    return 0

/-! ## Processes -/

/-- A round of the loop of `fork` over the descriptors. -/
def forkFd (p np : Fin m) (fd : Fin NOFILE) : SysM m Unit := do
  match ((← get).procs p).ofile fd with
  | none => return ()
  | some f => setFd np fd (some (← filedup f))

/-- `fork`; `mem` tells whether the memory for the child can be had. -/
def fork (p : Fin m) (cwd : Fin NINODE) (mem : Bool) : SysM m ℤ := do
  let σ ← get
  match (List.finRange m).find? fun q => (σ.procs q).life = .unused with
  | none => return -1
  | some np =>
    if mem then
      modifyProc np fun e => { e with life := .live }
      (List.finRange NOFILE).forM (forkFd p np)
      let ip ← onFs (idup cwd)
      modifyProc np fun e => { e with cwd := some ip, parent := some p }
      return (np : ℤ)
    else return -1

/-- A round of the loop of `exit` over the descriptors. -/
def exitFd (p : Fin m) (fd : Fin NOFILE) : SysM m Unit := do
  match ((← get).procs p).ofile fd with
  | none => return ()
  | some f =>
    fileclose f
    setFd p fd none

/-- Pass the abandoned children of `p` to `initproc`. -/
def reparent (initproc p : Fin m) : SysM m Unit := modify fun σ =>
  { σ with procs := fun q =>
      if (σ.procs q).parent = some p then { σ.procs q with parent := some initproc } else σ.procs q }

/-- `exit`. -/
def exit (initproc p : Fin m) (cwd : Fin NINODE) : SysM m ℤ := do
  if p = initproc then throw .initExiting
  else
    (List.finRange NOFILE).forM (exitFd p)
    onFs (iputOp cwd)
    modifyProc p fun e => { e with cwd := none }
    reparent initproc p
    modifyProc p fun e => { e with life := .zombie }
    return 0

/-- The child of `p` that `wait` finds. -/
def Sys.zombieChild (σ : Sys m) (p : Fin m) : Option (Fin m) :=
  (List.finRange m).find? fun q => (σ.procs q).parent = some p ∧ (σ.procs q).life = .zombie

/-- `wait` when it does not have to sleep; `ok` tells whether the status can be copied out. -/
def wait (p : Fin m) (ok : Bool) : SysM m ℤ := do
  match (← get).zombieChild p with
  | none => return -1
  | some q =>
    if ok then
      modifyProc q fun e => { e with parent := none, life := .unused }
      return (q : ℤ)
    else return -1

/-! ## Runs -/

/-- A system call with its arguments, and what the parts outside of the model answer. -/
inductive Call
  | sysOpen (path : Option (List UInt8)) (omode : ℕ)
  | close (fd : ℤ)
  | dup (fd : ℤ)
  | read (fd : ℤ) (dst : Dst) (n : UInt32) (r : ℤ)
  | write (fd : ℤ) (src : ℕ → Src) (n r : ℤ)
  | fstat (fd : ℤ) (ok : Bool)
  | pipe (mem out : Bool)
  | mkdir (path : Option (List UInt8))
  | mknod (path : Option (List UInt8)) (major minor : ℤ)
  | link (old new : Option (List UInt8))
  | unlink (path : Option (List UInt8))
  | chdir (path : Option (List UInt8))
  | exec (path : Option (List UInt8)) (args : Bool) (mem : ExecMem)
  | fork (mem : Bool)
  | exit
  | wait (ok killed : Bool)

namespace Sys

/-- The code of a call by process `p` in the directory `cwd`. -/
def code (initproc p : Fin m) (cwd : Fin NINODE) : Call → SysM m ℤ
  | .sysOpen path omode => Xv6.sysOpen p cwd path omode
  | .close fd => sysClose p fd
  | .dup fd => sysDup p fd
  | .read fd dst n r => sysRead p fd dst n r
  | .write fd src n r => sysWrite p fd src n r
  | .fstat fd ok => sysFstat p fd ok
  | .pipe mem out => sysPipe p mem out
  | .mkdir path => onFs (sysMkdir cwd path)
  | .mknod path major minor => onFs (sysMknod cwd path major minor)
  | .link old new => onFs (sysLink cwd old new)
  | .unlink path => onFs (sysUnlink cwd path)
  | .chdir path => sysChdir p cwd path
  | .exec path args mem => onFs (sysExec cwd path args mem)
  | .fork mem => Xv6.fork p cwd mem
  | .exit => Xv6.exit initproc p cwd
  | .wait ok _ => Xv6.wait p ok

/-- The call returns: `wait` sleeps while there are children but none has exited. -/
def returns (σ : Sys m) (p : Fin m) : Call → Bool
  | .wait _ killed => (σ.zombieChild p).isSome ∨ killed ∨ ∀ q, (σ.procs q).parent ≠ some p
  | _ => true

/-- The state after a call; a panic stops the kernel. -/
def exec (σ : Sys m) (x : SysM m ℤ) : Sys m :=
  match x σ with
  | .ok (_, τ) => τ
  | .error e => { σ with panicked := some e }

/-- One system call by a process that is running; nothing follows a panic. -/
def step (initproc : Fin m) (σ : Sys m) (a : Fin m × Call) : Option (Sys m) :=
  match (σ.procs a.1).life, (σ.procs a.1).cwd with
  | .live, some cwd =>
    if σ.panicked.isSome ∨ σ.returns a.1 a.2 = false then none
    else some (σ.exec (code initproc a.1 cwd a.2))
  | _, _ => none

end Sys

end Xv6
