import Xv6.Param
import Xv6.Lib.Radix

/-! # Page tables

`kernel/vm.c` over the physical memory as the kernel uses it: pages of 512 words of 64 bits, those that
are not in use being linked in the free list of `kernel/kalloc.c`. A pointer to an entry is the page and
the index in the page. -/

namespace Xv6

/-- Bits of offset within a page. -/
abbrev PGSHIFT : ℕ := 12

/-- Valid. -/
abbrev PTE_V : UInt64 := 1
abbrev PTE_R : UInt64 := 2
abbrev PTE_W : UInt64 := 4
abbrev PTE_X : UInt64 := 8
/-- User can access. -/
abbrev PTE_U : UInt64 := 16

/-- The end of physical memory. -/
abbrev PHYSTOP : ℕ := 0x80000000 + 128 * 1024 * 1024

/-- `((sz) + PGSIZE - 1) & ~(PGSIZE - 1)`. -/
def PGROUNDUP (sz : UInt64) : UInt64 := (sz + 4096 - 1) &&& ~~~(4096 - 1)

/-- `(a) & ~(PGSIZE - 1)`. -/
def PGROUNDDOWN (a : UInt64) : UInt64 := a &&& ~~~(4096 - 1)

/-- Shift a physical address to the right place for a PTE. -/
def PA2PTE (pa : UInt64) : UInt64 := (pa >>> 12) <<< 10

def PTE2PA (pte : UInt64) : UInt64 := (pte >>> 10) <<< 12

def PTE_FLAGS (pte : UInt64) : UInt64 := pte &&& 0x3FF

def PXSHIFT (level : ℕ) : UInt64 := UInt64.ofNat (PGSHIFT + 9 * level)

/-- The index of a virtual address in the page-table page of a level. -/
def PX (level : ℕ) (va : UInt64) : Fin 512 := Fin.ofNat 512 ((va >>> PXSHIFT level) &&& 0x1FF).toNat

/-- The `panic` calls of the virtual memory system and of the page allocator. -/
inductive VmPanic
  | kfree
  | walk
  | mappagesVa
  | mappagesSizeAligned
  | mappagesSize
  | mappagesRemap
  | uvmunmapAligned
  | uvmunmapWalk
  | uvmunmapNotMapped
  | uvmunmapNotLeaf
  | freewalkLeaf
  | uvmcopyPte
  | uvmcopyPage
  | uvmclear
  | loadseg
  /-- From `trap.c`: the kernel has run off its stack. -/
  | kerneltrap
  deriving DecidableEq, Repr

/-- Physical memory. -/
structure Phys where
  /-- The words of the page at an address. -/
  word : UInt64 → Fin 512 → UInt64
  /-- `kmem.freelist`. -/
  freelist : List UInt64
  /-- `end`: the first address after the kernel. -/
  kend : UInt64

/-- `pte_t *`. -/
structure PteAddr where
  page : UInt64
  index : Fin 512
  deriving DecidableEq

/-- Kernel code over physical memory. -/
abbrev VmM := StateT Phys (Except VmPanic)

namespace Vm

/-- `memset(pa, c, PGSIZE)`, where `w` is eight bytes `c`. -/
def memset (pa w : UInt64) : VmM Unit :=
  modify fun s => { s with word := Function.update s.word pa fun _ => w }

def load (pte : PteAddr) : VmM UInt64 := do
  let s ← get
  return s.word pte.page pte.index

def store (pte : PteAddr) (e : UInt64) : VmM Unit :=
  modify fun s => { s with word := Radix.write s.word pte.page pte.index e }

/-- Free the page of physical memory pointed at by `pa`. -/
def kfree (pa : UInt64) : VmM Unit := do
  let s ← get
  if pa.toNat % PGSIZE ≠ 0 ∨ pa < s.kend ∨ PHYSTOP ≤ pa.toNat then throw .kfree
  -- fill with junk to catch dangling refs
  memset pa 0x0101010101010101
  modify fun s => { s with freelist := pa :: s.freelist }

/-- Allocate one page of physical memory. -/
def kalloc : VmM (Option UInt64) := do
  let s ← get
  match s.freelist with
  | [] => return none
  | r :: l =>
    set { s with freelist := l }
    memset r 0x0505050505050505
    return some r

/-- The entry is valid. -/
def valid (pte : UInt64) : Bool := pte &&& PTE_V ≠ 0

/-- The loop of `walk`, from a level on. -/
def walkFrom (va : UInt64) (alloc : Bool) : ℕ → UInt64 → VmM (Option PteAddr)
  | 0, pagetable => return some ⟨pagetable, PX 0 va⟩
  | level + 1, pagetable => do
    let pte : PteAddr := ⟨pagetable, PX (level + 1) va⟩
    let e ← load pte
    if valid e then walkFrom va alloc level (PTE2PA e)
    else if !alloc then return none
    else
      match ← kalloc with
      | none => return none
      | some page =>
        memset page 0
        store pte (PA2PTE page ||| PTE_V)
        walkFrom va alloc level page

/-- Return the address of the PTE that corresponds to virtual address `va`, and create any required
page-table pages if `alloc`. -/
def walk (pagetable va : UInt64) (alloc : Bool) : VmM (Option PteAddr) :=
  if MAXVA ≤ va.toNat then throw .walk else walkFrom va alloc 2 pagetable

/-- Look up a virtual address, return the physical address, or `none` if not mapped. -/
def walkaddr (pagetable va : UInt64) : VmM (Option UInt64) := do
  if MAXVA ≤ va.toNat then return none
  match ← walk pagetable va false with
  | none => return none
  | some pte =>
    let e ← load pte
    if !valid e then return none
    if e &&& PTE_U = 0 then return none
    return some (PTE2PA e)

/-- The loop of `mappages`. The first argument counts the pages below `MAXVA`: when it is used up, `a`
is past them and `walk` panics. -/
def mappagesLoop (pagetable last perm : UInt64) : ℕ → UInt64 → UInt64 → VmM Int
  | 0, _, _ => throw .walk
  | n + 1, a, pa => do
    match ← walk pagetable a true with
    | none => return -1
    | some pte =>
      let e ← load pte
      if valid e then throw .mappagesRemap
      store pte (PA2PTE pa ||| perm ||| PTE_V)
      if a = last then return 0
      mappagesLoop pagetable last perm n (a + 4096) (pa + 4096)

/-- Create PTEs for virtual addresses starting at `va` that refer to physical addresses starting at
`pa`. Returns `0` on success, `-1` if `walk` couldn't allocate a needed page-table page. -/
def mappages (pagetable va size pa perm : UInt64) : VmM Int := do
  if va.toNat % PGSIZE ≠ 0 then throw .mappagesVa
  if size.toNat % PGSIZE ≠ 0 then throw .mappagesSizeAligned
  if size = 0 then throw .mappagesSize
  mappagesLoop pagetable (va + size - 4096) perm (MAXVA / PGSIZE) va pa

/-- The loop of `uvmunmap`, with the same count. -/
def uvmunmapLoop (pagetable stop : UInt64) (doFree : Bool) : ℕ → UInt64 → VmM Unit
  | 0, a => if a < stop then throw .walk else return ()
  | n + 1, a =>
    if a < stop then do
      match ← walk pagetable a false with
      | none => throw .uvmunmapWalk
      | some pte =>
        let e ← load pte
        if !valid e then throw .uvmunmapNotMapped
        if PTE_FLAGS e = PTE_V then throw .uvmunmapNotLeaf
        if doFree then kfree (PTE2PA e)
        store pte 0
        uvmunmapLoop pagetable stop doFree n (a + 4096)
    else return ()

/-- Remove `npages` of mappings starting from `va`, and free the physical memory if `doFree`. -/
def uvmunmap (pagetable va npages : UInt64) (doFree : Bool) : VmM Unit := do
  if va.toNat % PGSIZE ≠ 0 then throw .uvmunmapAligned
  uvmunmapLoop pagetable (va + npages * 4096) doFree (MAXVA / PGSIZE) va

/-- Create an empty user page table. -/
def uvmcreate : VmM (Option UInt64) := do
  match ← kalloc with
  | none => return none
  | some pagetable =>
    memset pagetable 0
    return some pagetable

/-- What `walk` finds at a virtual address: its PTE, if there is a valid one. -/
def lookup (s : Phys) (pagetable va : UInt64) : Option UInt64 :=
  match walk pagetable va false s with
  | .ok (some pte, t) => if valid (t.word pte.page pte.index) then some (t.word pte.page pte.index) else none
  | _ => none

end Vm

end Xv6
