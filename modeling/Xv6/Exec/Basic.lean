import Xv6.Sys.Exec
import Xv6.Vm.Access

/-! # `exec`

`exec` of `kernel/exec.c`, with the file system it reads the program from and the memory it builds the new
image in. The state has the inode locks and the file-system operations that the process holds, which the file
system on its own leaves out. -/

namespace Xv6

/-- Max exec arguments. -/
abbrev MAXARG : ℕ := 32

/-- User stack pages. -/
abbrev USERSTACK : ℕ := 1

namespace Exec

open Vm

/-- What `exec` uses of `struct proc`. -/
structure Proc where
  pagetable : UInt64
  sz : UInt64
  /-- The page of the trapframe. -/
  trapframe : UInt64
  name : List UInt8
  cwd : Fin NINODE

/-- The state of the kernel that `exec` runs in. -/
structure State where
  fs : Fs
  mem : Phys
  proc : Proc
  /-- The inodes whose sleep-lock the process holds. -/
  locked : List (Fin NINODE)
  /-- The calls of `begin_op` without their `end_op`. -/
  ops : ℕ

/-- A panic of the file system or of the memory. -/
inductive Panic
  | fs (p : Xv6.Panic)
  | vm (p : VmPanic)
  deriving DecidableEq

abbrev ExecM : Type → Type := StateT State (Except Panic)

/-- Run file-system code. -/
def onFs {α : Type} (x : FsM α) : ExecM α := zoom State.fs (fun f s => { s with fs := f }) .fs x

/-- Run code of the virtual memory. -/
def onMem {α : Type} (x : VmM α) : ExecM α := zoom State.mem (fun m s => { s with mem := m }) .vm x

section Wp

variable {α : Type} {E : Panic → Prop} {Q : α → State → Prop} {s : State}

theorem wp_onFs (x : FsM α) :
    Wp (onFs x) E Q s ↔ Wp x (fun e => E (.fs e)) (fun a f => Q a { s with fs := f }) s.fs := wp_zoom

theorem wp_onMem (x : VmM α) :
    Wp (onMem x) E Q s ↔ Wp x (fun e => E (.vm e)) (fun a m => Q a { s with mem := m }) s.mem := wp_zoom

end Wp

def beginOp : ExecM Unit := do
  onFs Xv6.beginOp
  modify fun s => { s with ops := s.ops + 1 }

def endOp : ExecM Unit := do
  onFs Xv6.endOp
  modify fun s => { s with ops := s.ops - 1 }

def ilock (ip : Fin NINODE) : ExecM Unit := do
  onFs (Xv6.ilock ip)
  modify fun s => { s with locked := ip :: s.locked }

def iunlockput (ip : Fin NINODE) : ExecM Unit := do
  onFs (Xv6.iunlockput ip)
  modify fun s => { s with locked := s.locked.erase ip }

/-! ### The program file -/

/-- The fields of `struct elfhdr` that `exec` uses. -/
structure Elfhdr where
  magic : UInt32
  entry : UInt64
  phoff : UInt64
  phnum : UInt16
  deriving DecidableEq

/-- The header in the first bytes of a file. -/
def Elfhdr.ofBytes (l : List UInt8) : Elfhdr where
  magic := UInt32.ofNat (field l 0 4)
  entry := UInt64.ofNat (field l 24 8)
  phoff := UInt64.ofNat (field l 32 8)
  phnum := UInt16.ofNat (field l 56 2)

/-- The fields of `struct proghdr` that `exec` uses. -/
structure Proghdr where
  type : UInt32
  flags : UInt32
  off : UInt64
  vaddr : UInt64
  filesz : UInt64
  memsz : UInt64
  deriving DecidableEq

def Proghdr.ofBytes (l : List UInt8) : Proghdr where
  type := UInt32.ofNat (field l 0 4)
  flags := UInt32.ofNat (field l 4 4)
  off := UInt64.ofNat (field l 8 8)
  vaddr := UInt64.ofNat (field l 16 8)
  filesz := UInt64.ofNat (field l 32 8)
  memsz := UInt64.ofNat (field l 40 8)

/-- Whether the header is for a segment that is loaded. -/
def Proghdr.load (ph : Proghdr) : Bool := ph.type = UInt32.ofNat ELF_PROG_LOAD

def flags2perm (flags : UInt32) : UInt64 :=
  let perm := if flags &&& 1 ≠ 0 then PTE_X else 0
  if flags &&& 2 ≠ 0 then perm ||| PTE_W else perm

/-- `readi(ip, 0, (uint64)buf, off, n)` with a local variable for `buf`: the bytes it holds then. -/
def readLocal (ip : Fin NINODE) (off : UInt32) (n : ℕ) : ExecM (ℤ × List UInt8) := do
  let r ← onFs (readi ip (.kernel (List.replicate n 0)) off.toNat n)
  return (r.1, r.2.buf)

/-- `readi(ip, 0, pa, off, n)`, which moves the bytes to physical memory. -/
def readPage (ip : Fin NINODE) (pa : UInt64) (off n : UInt32) : ExecM ℤ := do
  let buf := (← get).mem.bytesAt pa n.toNat
  let r ← onFs (readi ip (.kernel buf) off.toNat n.toNat)
  onMem (modify fun m => m.setBytes pa r.2.buf)
  return r.1

/-- The loop of `loadseg`, one round for each page; memory is too small for `i` to wrap around. -/
def loadsegLoop (pagetable va : UInt64) (ip : Fin NINODE) (offset sz : UInt32) : ℕ → UInt32 → ExecM Int
  | 0, _ => return 0
  | rounds + 1, i =>
    if i < sz then do
      match ← onMem (walkaddr pagetable (va + i.toUInt64)) with
      | none => throw (.vm .loadseg)
      | some pa =>
        if pa = 0 then throw (.vm .loadseg)
        let n := if sz - i < 4096 then sz - i else 4096
        let r ← readPage ip pa (offset + i) n
        if r ≠ n.toNat then return -1
        loadsegLoop pagetable va ip offset sz rounds (i + 4096)
    else return 0

/-- Load a program segment into `pagetable` at virtual address `va`. -/
def loadseg (pagetable va : UInt64) (ip : Fin NINODE) (offset sz : UInt32) : ExecM Int :=
  loadsegLoop pagetable va ip offset sz (sz.toNat / 4096 + 1) 0

/-- The loop of `exec` over the program headers, with so many of them left: `sz`, and whether all went well.
The `int` variable `off` is passed on as an `uint`, so it is one here. -/
def execLoad (pagetable : UInt64) (ip : Fin NINODE) : ℕ → UInt32 → UInt64 → ExecM (Bool × UInt64)
  | 0, _, sz => return (true, sz)
  | left + 1, off, sz => do
    let (n, buf) ← readLocal ip off PROGHDR
    if n ≠ PROGHDR then return (false, sz)
    let ph := Proghdr.ofBytes buf
    if ph.load = false then execLoad pagetable ip left (off + 56) sz
    else if ph.memsz < ph.filesz then return (false, sz)
    else if ph.vaddr + ph.memsz < ph.vaddr then return (false, sz)
    else if ph.vaddr % 4096 ≠ 0 then return (false, sz)
    else
      let sz1 ← onMem (uvmalloc pagetable sz (ph.vaddr + ph.memsz) (flags2perm ph.flags))
      if sz1 = 0 then return (false, sz)
      let r ← loadseg pagetable ph.vaddr ip ph.off.toUInt32 ph.filesz.toUInt32
      if r < 0 then return (false, sz1)
      execLoad pagetable ip left (off + 56) sz1

/-- The program in memory, before it has a stack. -/
structure Program where
  pagetable : UInt64
  sz : UInt64
  entry : UInt64

/-- What `exec` has made when it goes to `bad`, or the program. -/
inductive Loaded
  | bad (pagetable : Option UInt64) (sz : UInt64)
  | program (p : Program)

/-- From the check of the ELF header to the last segment. -/
def loadProgram (trampoline : UInt64) (ip : Fin NINODE) : ExecM Loaded := do
  let (n, buf) ← readLocal ip 0 ELFHDR
  if n ≠ ELFHDR then return .bad none 0
  let elf := Elfhdr.ofBytes buf
  if elf.magic ≠ UInt32.ofNat ELF_MAGIC then return .bad none 0
  match ← onMem (procPagetable trampoline (← get).proc.trapframe) with
  | none => return .bad none 0
  | some pagetable =>
    let (ok, sz) ← execLoad pagetable ip elf.phnum.toNat elf.phoff.toUInt32 0
    if ok then return .program ⟨pagetable, sz, elf.entry⟩ else return .bad (some pagetable) sz

/-! ### The stack -/

/-- Push the argument strings: `sp` and the words of `ustack` afterwards. -/
def pushStrings (pagetable stackbase : UInt64) :
    List UInt64 → UInt64 → List UInt64 → VmM (Option (UInt64 × List UInt64))
  | [], sp, ustack => return some (sp, ustack)
  | arg :: argv, sp, ustack => do
    if MAXARG ≤ ustack.length then return none
    let len := UInt64.ofNat (← strlen arg) + 1
    let sp := sp - len
    let sp := sp - sp % 16
    if sp < stackbase then return none
    let r ← copyout pagetable sp arg len
    if r < 0 then return none
    pushStrings pagetable stackbase argv sp (ustack ++ [sp])

/-- Push the arguments and the array of pointers to them: `sp` and `argc`. The array is `ustack` in the kernel
stack until it is copied. -/
def pushArgs (pagetable sz ustack : UInt64) (argv : List UInt64) : VmM (Option (UInt64 × ℕ)) := do
  let stackbase := sz - 4096 * UInt64.ofNat USERSTACK
  match ← pushStrings pagetable stackbase argv sz [] with
  | none => return none
  | some (sp, words) =>
    let argc := words.length
    let len := UInt64.ofNat (argc + 1) * 8
    let sp := sp - len
    let sp := sp - sp % 16
    if sp < stackbase then return none
    modify fun m => m.setBytes ustack ((words ++ [0]).flatMap fun w => (List.range 8).map (WordBytes.byteAt w))
    let r ← copyout pagetable sp ustack len
    if r < 0 then return none
    return some (sp, argc)

/-! ### The commit -/

/-- `for(last=s=path; *s; s++) if(*s == '/') last = s+1`. -/
def lastElem (last : List UInt8) : List UInt8 → List UInt8
  | [] => last
  | c :: s => lastElem (if c = slash then s else last) s

/-- `safestrcpy(s, t, n)`, where `t` is the string without its NUL. -/
def safestrcpy (s t : List UInt8) (n : ℕ) : List UInt8 :=
  if n = 0 then s else splice s 0 ((t ++ [0]).take (n - 1) ++ [0])

/-- The places of `epc`, `sp` and `a1` in a trapframe, in words. -/
abbrev EPC : Fin 512 := 3
abbrev SP : Fin 512 := 6
abbrev A1 : Fin 512 := 15

/-- `p->trapframe->field = v`. -/
def setTrapframe (i : Fin 512) (v : UInt64) : ExecM Unit := modify fun s =>
  { s with mem := { s.mem with word := Radix.write s.mem.word s.proc.trapframe i v } }

/-- `bad:` what was made is given back. -/
def bad (pagetable : Option UInt64) (sz : UInt64) (ip : Option (Fin NINODE)) : ExecM Unit := do
  match pagetable with
  | none => pure ()
  | some pagetable => onMem (procFreepagetable pagetable sz)
  match ip with
  | none => pure ()
  | some ip =>
    iunlockput ip
    endOp

/-- Find the file and lock its inode. -/
def openProgram (path : List UInt8) : ExecM (Option (Fin NINODE)) := do
  beginOp
  match ← onFs (namei (← get).proc.cwd path) with
  | none =>
    endOp
    return none
  | some ip =>
    ilock ip
    return some ip

/-- Up to the point where the new image has its stack, without arguments. -/
def build (trampoline : UInt64) (path : List UInt8) : ExecM (Option Program) := do
  match ← openProgram path with
  | none => return none
  | some ip =>
    match ← loadProgram trampoline ip with
    | .bad pagetable sz =>
      bad pagetable sz (some ip)
      return none
    | .program p =>
      iunlockput ip
      endOp
      let sz := PGROUNDUP p.sz
      let sz1 ← onMem (uvmalloc p.pagetable sz (sz + 4096 * UInt64.ofNat (USERSTACK + 1)) PTE_W)
      if sz1 = 0 then
        bad (some p.pagetable) sz none
        return none
      onMem (uvmclear p.pagetable (sz1 - 4096 * UInt64.ofNat (USERSTACK + 1)))
      return some { p with sz := sz1 }

/-- Commit to the user image. -/
def commit (p : Program) (path : List UInt8) (sp : UInt64) : ExecM Unit := do
  setTrapframe A1 sp
  let old := (← get).proc
  modify fun s => { s with proc := { s.proc with
    name := safestrcpy s.proc.name (lastElem path path) 16
    pagetable := p.pagetable
    sz := p.sz } }
  setTrapframe EPC p.entry
  setTrapframe SP sp
  onMem (procFreepagetable old.pagetable old.sz)

/-- From the empty stack to the end. -/
def finish (p : Program) (ustack : UInt64) (path : List UInt8) (argv : List UInt64) : ExecM Int := do
  match ← onMem (pushArgs p.pagetable p.sz ustack argv) with
  | none =>
    bad (some p.pagetable) p.sz none
    return -1
  | some (sp, argc) =>
    commit p path sp
    return argc

/-- `exec`, with the physical addresses of the trampoline and of the local array `ustack`, and the addresses in
`argv` before its NULL. -/
def exec (trampoline ustack : UInt64) (path : List UInt8) (argv : List UInt64) : ExecM Int := do
  match ← build trampoline path with
  | none => return -1
  | some p => finish p ustack path argv

end Exec

end Xv6
