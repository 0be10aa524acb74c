import Xv6.Vm.Bytes

/-! # User memory

The functions of `kernel/vm.c` and `kernel/proc.c` that create, grow, shrink, copy and free the memory of a
process: its pages from address zero on, and the two pages at the top that every process has. -/

namespace Xv6

/-- The page at the highest address, with the code to enter and leave the kernel. -/
abbrev TRAMPOLINE : UInt64 := 0x3ffffff000

/-- The page below it, with the registers of the process. -/
abbrev TRAPFRAME : UInt64 := 0x3fffffe000

namespace Vm

/-- A value that goes through an `int`: its low 32 bits, with the sign extended. -/
def throughInt (x : UInt64) : UInt64 := UInt64.ofBitVec ((x.toBitVec.setWidth 32).signExtend 64)

/-! ### Growing and shrinking -/

/-- Deallocate user pages to bring the process size from `oldsz` to `newsz`. Returns the new process size. -/
def uvmdealloc (pagetable oldsz newsz : UInt64) : VmM UInt64 := do
  if oldsz ≤ newsz then return oldsz
  if PGROUNDUP newsz < PGROUNDUP oldsz then
    let npages := throughInt ((PGROUNDUP oldsz - PGROUNDUP newsz) / 4096)
    uvmunmap pagetable (PGROUNDUP newsz) npages true
  return newsz

/-- The loop of `uvmalloc`. The first argument counts the pages below `MAXVA`: when it is used up, `a` is past
them, and `mappages` panics unless there is no memory left. -/
def uvmallocLoop (pagetable oldsz newsz xperm : UInt64) : ℕ → UInt64 → VmM UInt64
  | n, a =>
    if a < newsz then do
      match ← kalloc with
      | none =>
        let _ ← uvmdealloc pagetable a oldsz
        return 0
      | some mem =>
        memset mem 0
        match n with
        | 0 => throw .walk
        | n + 1 =>
          let r ← mappages pagetable a 4096 mem (PTE_R ||| PTE_U ||| xperm)
          if r ≠ 0 then
            kfree mem
            let _ ← uvmdealloc pagetable a oldsz
            return 0
          uvmallocLoop pagetable oldsz newsz xperm n (a + 4096)
    else return newsz

/-- Allocate PTEs and physical memory to grow process from `oldsz` to `newsz`. Returns new size or 0 on error. -/
def uvmalloc (pagetable oldsz newsz xperm : UInt64) : VmM UInt64 := do
  if newsz < oldsz then return oldsz
  uvmallocLoop pagetable (PGROUNDUP oldsz) newsz xperm (MAXVA / PGSIZE) (PGROUNDUP oldsz)

/-! ### Freeing -/

/-- Recursively free page-table pages. The first argument is the number of levels; recursion does not end
when entries without permissions go on below the last one. -/
def freewalk : ℕ → UInt64 → VmM Unit
  | 0, _ => throw .kerneltrap
  | level + 1, pagetable => do
    (List.range 512).forM fun i => do
      let pte : PteAddr := ⟨pagetable, Fin.ofNat 512 i⟩
      let e ← load pte
      if valid e ∧ e &&& (PTE_R ||| PTE_W ||| PTE_X) = 0 then
        -- this PTE points to a lower-level page table
        freewalk level (PTE2PA e)
        store pte 0
      else if valid e then throw .freewalkLeaf
    kfree pagetable

/-- Free user memory pages, then free page-table pages. -/
def uvmfree (pagetable sz : UInt64) : VmM Unit := do
  if 0 < sz then uvmunmap pagetable 0 (PGROUNDUP sz / 4096) true
  freewalk 3 pagetable

/-! ### Copying -/

/-- The loop of `uvmcopy`. The first argument counts the pages below `MAXVA`: when it is used up, `i` is past
them and `walk` panics. -/
def uvmcopyLoop (old new sz : UInt64) : ℕ → UInt64 → VmM Int
  | 0, i => if i < sz then throw .walk else return 0
  | n + 1, i =>
    if i < sz then do
      match ← walk old i false with
      | none => throw .uvmcopyPte
      | some pte =>
        let e ← load pte
        if !valid e then throw .uvmcopyPage
        let pa := PTE2PA e
        let flags := PTE_FLAGS e
        match ← kalloc with
        | none =>
          uvmunmap new 0 (i / 4096) true
          return -1
        | some mem =>
          memmove mem pa 4096
          let r ← mappages new i 4096 mem flags
          if r ≠ 0 then
            kfree mem
            uvmunmap new 0 (i / 4096) true
            return -1
          uvmcopyLoop old new sz n (i + 4096)
    else return 0

/-- Given a parent process's page table, copy its memory into a child's page table. -/
def uvmcopy (old new sz : UInt64) : VmM Int := uvmcopyLoop old new sz (MAXVA / PGSIZE) 0

/-- Mark a PTE invalid for user access. -/
def uvmclear (pagetable va : UInt64) : VmM Unit := do
  match ← walk pagetable va false with
  | none => throw .uvmclear
  | some pte =>
    let e ← load pte
    store pte (e &&& ~~~PTE_U)

/-! ### The page table of a process -/

/-- Create a user page table for a given process, with no user memory, but with trampoline and trapframe
pages. -/
def procPagetable (trampoline trapframe : UInt64) : VmM (Option UInt64) := do
  match ← uvmcreate with
  | none => return none
  | some pagetable =>
    let r ← mappages pagetable TRAMPOLINE 4096 trampoline (PTE_R ||| PTE_X)
    if r < 0 then
      uvmfree pagetable 0
      return none
    let r ← mappages pagetable TRAPFRAME 4096 trapframe (PTE_R ||| PTE_W)
    if r < 0 then
      uvmunmap pagetable TRAMPOLINE 1 false
      uvmfree pagetable 0
      return none
    return some pagetable

/-- Free a process's page table, and free the physical memory it refers to. -/
def procFreepagetable (pagetable sz : UInt64) : VmM Unit := do
  uvmunmap pagetable TRAMPOLINE 1 false
  uvmunmap pagetable TRAPFRAME 1 false
  uvmfree pagetable sz

/-! ### The size of a process -/

/-- What `struct proc` says of the memory of a process. -/
structure UserMem where
  pagetable : UInt64
  sz : UInt64
  deriving DecidableEq

/-- Grow or shrink user memory by `n` bytes. Return 0 on success, -1 on failure. -/
def growproc (p : UserMem) (n : Int32) : VmM (Int × UserMem) := do
  let newsz := p.sz + UInt64.ofBitVec (n.toBitVec.signExtend 64)
  if 0 < n then
    let sz ← uvmalloc p.pagetable p.sz newsz PTE_W
    if sz = 0 then return (-1, p)
    return (0, { p with sz := sz })
  else if n < 0 then
    let sz ← uvmdealloc p.pagetable p.sz newsz
    return (0, { p with sz := sz })
  else
    return (0, p)

end Vm

end Xv6
