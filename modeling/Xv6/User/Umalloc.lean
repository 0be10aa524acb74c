import Xv6.Lib.ByteMem
import Xv6.Lib.Run

/-! # The memory allocator of user programs

`user/umalloc.c` over the bytes of the program's memory. A pointer is an address, `0` for a null
pointer. `sbrk` takes an `int`: it fails or returns fresh memory, of as many bytes as its argument says,
above all that it returned before; a negative argument gives memory back. Whether it fails is part of the
input. -/

namespace Xv6

/-- `sizeof(Header)`. -/
abbrev HEADER : ℕ := 16

/-- The memory of a program, with the variables of the allocator. -/
structure Heap where
  mem : ℕ → UInt8
  /-- `&base`. -/
  base : ℕ
  freep : ℕ
  /-- The end of the memory that `sbrk` has returned so far. -/
  top : ℕ
  /-- The memory that `sbrk` has returned, as addresses and numbers of bytes. -/
  regions : List (ℕ × ℕ)
  /-- What `sbrk` will do when it is called: fail, or return memory this far above `top`. -/
  answers : List (Option ℕ)

namespace Heap

/-- The heap before a call during which `sbrk` answers so. -/
def withAnswers (h : Heap) (answers : List (Option ℕ)) : Heap := { h with answers := answers }

/-- `p->s.ptr`. -/
def ptr (h : Heap) (p : ℕ) : ℕ := ByteMem.readLE h.mem p 8

/-- `p->s.size`. -/
def size (h : Heap) (p : ℕ) : UInt32 := UInt32.ofNat (ByteMem.readLE h.mem (p + 8) 4)

def setPtr (h : Heap) (p q : ℕ) : Heap := { h with mem := ByteMem.writeLE h.mem p 8 q }

def setSize (h : Heap) (p : ℕ) (n : UInt32) : Heap :=
  { h with mem := ByteMem.writeLE h.mem (p + 8) 4 n.toNat }

/-- `p + p->s.size`. -/
def stop (h : Heap) (p : ℕ) : ℕ := p + HEADER * (h.size p).toNat

/-- There are `2 ^ 64` pointers: a loop over a list that takes more rounds does not end. -/
@[irreducible] def rounds : ℕ := 2 ^ 66

/-- The loop of `free`: the block after which `bp` belongs. -/
def findPlace (h : Heap) (bp : ℕ) : ℕ → ℕ → Option ℕ
  | 0, _ => none
  | n + 1, p =>
    if bp > p ∧ bp < h.ptr p then some p
    else if p ≥ h.ptr p ∧ (bp > p ∨ bp < h.ptr p) then some p
    else h.findPlace bp n (h.ptr p)

/-- The end of `free`, once the place is found. -/
def insertAt (h : Heap) (bp p : ℕ) : Heap :=
  let h :=
    if h.stop bp = h.ptr p then
      let h := h.setSize bp (h.size bp + h.size (h.ptr p))
      h.setPtr bp (h.ptr (h.ptr p))
    else h.setPtr bp (h.ptr p)
  let h :=
    if h.stop p = bp then
      let h := h.setSize p (h.size p + h.size bp)
      h.setPtr p (h.ptr bp)
    else h.setPtr p bp
  { h with freep := p }

/-- `none` if it does not return. -/
def free (h : Heap) (ap : ℕ) : Option Heap :=
  let bp := ap - HEADER
  (h.findPlace bp rounds h.freep).map fun p => h.insertAt bp p

/-- The size of a program after `growproc(k)`: one below zero wraps around, and nothing changes. -/
def newBreak (p : ℕ) (k : Int32) : ℕ := if (p : ℤ) + k.toInt < 0 then p else ((p : ℤ) + k.toInt).toNat

/-- `sbrk(k)`: nothing, or the start of `k` bytes. -/
def sbrk (h : Heap) (k : Int32) : Heap × Option ℕ :=
  match h.answers with
  | some gap :: rest =>
    let p := h.top + gap
    if k < 0 then ({ h with answers := rest, top := newBreak p k }, some p)
    else
      let n := k.toInt.toNat
      ({ h with answers := rest, top := p + n, regions := (p, n) :: h.regions }, some p)
  | none :: rest => ({ h with answers := rest }, none)
  | [] => (h, none)

/-- `none` if it does not return. -/
def morecore (h : Heap) (nu : UInt32) : Option (Heap × ℕ) :=
  let nu := if nu < 4096 then 4096 else nu
  -- the product is a `size_t`, the parameter an `int`
  match h.sbrk (Int32.ofNat (nu.toNat * HEADER)) with
  | (h, none) => some (h, 0)
  | (h, some p) => ((h.setSize p nu).free (p + HEADER)).map fun h => (h, h.freep)

/-- The loop of `malloc`. -/
def mallocLoop (nunits : UInt32) : ℕ → Heap → ℕ → ℕ → Option (Heap × ℕ)
  | 0, _, _, _ => none
  | n + 1, h, prevp, p =>
    if h.size p ≥ nunits then
      if h.size p = nunits then
        some ({ h.setPtr prevp (h.ptr p) with freep := prevp }, p + HEADER)
      else
        let h := h.setSize p (h.size p - nunits)
        let p := h.stop p
        some ({ h.setSize p nunits with freep := prevp }, p + HEADER)
    else if p = h.freep then
      match h.morecore nunits with
      | none => none
      | some (h, p) => if p = 0 then some (h, 0) else mallocLoop nunits n h p (h.ptr p)
    else mallocLoop nunits n h p (h.ptr p)

/-- `nunits` of a call `malloc(nbytes)`. -/
def units (nbytes : UInt32) : UInt32 := UInt32.ofNat ((nbytes.toNat + HEADER - 1) / HEADER + 1)

/-- `none` if it does not return. -/
def malloc (h : Heap) (nbytes : UInt32) : Option (Heap × ℕ) :=
  let h := if h.freep = 0 then ({ h.setPtr h.base h.base with freep := h.base }).setSize h.base 0 else h
  mallocLoop (units nbytes) rounds h h.freep (h.ptr h.freep)

end Heap

/-- A program that uses the allocator: the blocks it has, with the number of bytes it asked for. -/
structure Program where
  heap : Heap
  live : List (ℕ × UInt32)

inductive HeapCall
  /-- `malloc(n)`, with what `sbrk` does. -/
  | malloc (n : UInt32) (answers : List (Option ℕ))
  | free (p : ℕ)
  /-- The program writes a byte of a block it has. -/
  | write (x : ℕ) (v : UInt8)

namespace Program

/-- One step, `none` if it is not possible: a call that does not return, or one the program may not
make. -/
def step (σ : Program) : HeapCall → Option Program
  | .malloc n answers =>
    match (σ.heap.withAnswers answers).malloc n with
    | none => none
    | some (h, p) => some { heap := h, live := if p = 0 then σ.live else (p, n) :: σ.live }
  | .free p =>
    if (σ.live.map Prod.fst).contains p then
      match σ.heap.free p with
      | none => none
      | some h => some { heap := h, live := σ.live.eraseP fun b => b.1 = p }
    else none
  | .write x v =>
    if σ.live.any fun b => b.1 ≤ x ∧ x < b.1 + b.2.toNat then
      some { σ with heap := { σ.heap with mem := Function.update σ.heap.mem x v } }
    else none

/-- A program that has not called the allocator yet. -/
def start (mem : ℕ → UInt8) (base top : ℕ) : Program where
  heap := { mem := mem, base := base, freep := 0, top := top, regions := [], answers := [] }
  live := []

end Program

end Xv6
