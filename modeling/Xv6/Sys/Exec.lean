import Xv6.Fs.Dir

/-! # Loading a program

What `exec` of `kernel/exec.c` does with the program file. The memory side is outside: whether a page
table can be made, whether `uvmalloc` succeeds for a segment and how the rest of `exec` ends are
arguments. -/

namespace Xv6

/-- The first word of a program file. -/
abbrev ELF_MAGIC : ℕ := 0x464C457F

/-- A segment to be loaded. -/
abbrev ELF_PROG_LOAD : ℕ := 1

/-- `sizeof(struct elfhdr)`. -/
abbrev ELFHDR : ℕ := 64

/-- `sizeof(struct proghdr)`. -/
abbrev PROGHDR : ℕ := 56

/-- The little-endian field of `n` bytes at `off`. -/
def field (l : List UInt8) (off n : ℕ) : ℕ := Bytes.leNat ((l.drop off).take n)

/-- What the memory side of `exec` answers. -/
structure ExecMem where
  /-- `proc_pagetable` succeeds. -/
  pagetable : Bool
  /-- `uvmalloc` succeeds for program header `i`. -/
  alloc : ℕ → Bool
  /-- What `exec` returns after the file is loaded: `argc`, or `-1`. -/
  rest : ℤ

/-- The loop of `loadseg`. -/
def loadseg (ip : Fin NINODE) (offset sz : ℕ) : ℕ → ℕ → FsM Bool
  | 0, _ => return true
  | rounds + 1, i =>
    if i < sz then do
      let n := if sz - i < PGSIZE then sz - i else PGSIZE
      let r ← readi ip (.kernel (List.replicate n 0)) ((offset + i) % 2 ^ 32) n
      if r.1 ≠ n then return false else loadseg ip offset sz rounds (i + PGSIZE)
    else return true

/-- The loop of `exec` over the program headers, with `left` of them still to load. -/
def execLoad (ip : Fin NINODE) (mem : ExecMem) : ℕ → ℕ → ℕ → FsM Bool
  | 0, _, _ => return true
  | left + 1, i, off => do
    let r ← readi ip (.kernel (List.replicate PROGHDR 0)) (off % 2 ^ 32) PROGHDR
    if r.1 ≠ PROGHDR then return false
    else
      let ph := r.2.buf
      let vaddr := field ph 16 8
      let filesz := field ph 32 8
      let memsz := field ph 40 8
      if field ph 0 4 ≠ ELF_PROG_LOAD then execLoad ip mem left (i + 1) (off + PROGHDR)
      else if memsz < filesz then return false
      else if (vaddr + memsz) % 2 ^ 64 < vaddr then return false
      else if vaddr % PGSIZE ≠ 0 then return false
      else if mem.alloc i = false then return false
      else
        let sz := filesz % 2 ^ 32
        if ← loadseg ip (field ph 8 8 % 2 ^ 32) sz (sz / PGSIZE + 1) 0 then
          execLoad ip mem left (i + 1) (off + PROGHDR)
        else return false

/-- What `exec` does with the locked program file: the header, then the segments. -/
def execRead (ip : Fin NINODE) (mem : ExecMem) : FsM Bool := do
  let r ← readi ip (.kernel (List.replicate ELFHDR 0)) 0 ELFHDR
  if r.1 ≠ ELFHDR then return false
  else if field r.2.buf 0 4 ≠ ELF_MAGIC then return false
  else if mem.pagetable = false then return false
  else execLoad ip mem (field r.2.buf 56 2) 0 (field r.2.buf 32 8)

/-- `exec`. -/
def execFile (cwd : Fin NINODE) (path : List UInt8) (mem : ExecMem) : FsM ℤ := do
  beginOp
  match ← namei cwd path with
  | none =>
    endOp
    return -1
  | some ip =>
    ilock ip
    let loaded ← execRead ip mem
    iunlockput ip
    endOp
    return if loaded then mem.rest else -1

/-- `sys_exec`; `args` tells whether the argument strings can be fetched. -/
def sysExec (cwd : Fin NINODE) (arg : Option (List UInt8)) (args : Bool) (mem : ExecMem) : FsM ℤ := do
  match argstr arg with
  | none => return -1
  | some path => if args then execFile cwd path mem else return -1

end Xv6
