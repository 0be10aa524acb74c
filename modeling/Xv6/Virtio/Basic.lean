import Xv6.Lib.Run
import Xv6.Lib.Ring

/-! # The disk driver

`kernel/virtio_disk.c`: `virtio_disk_rw` by any processes `P`, `virtio_disk_intr` by any interrupt
handlers `I`, and the device, interleaved. `vdisk_lock` is an explicit field. The device does not take
it: it runs between any two steps of its holder, so the driver's accesses to the memory shared with the
device are steps of their own.

The device consumes the heads in the available ring in order, completes the chains it has consumed in
any order, with status 0, and writes an entry of the used ring before it increments the index. -/

namespace Xv6

open Function

/-- This many virtio descriptors. -/
abbrev NUM : ℕ := 8

instance neZero_NUM : NeZero NUM := ⟨by decide⟩

/-- What a descriptor points to. -/
inductive DmaAddr (B : Type*)
  | null
  /-- `&disk.ops[i]`. -/
  | op (i : ℕ)
  /-- `b->data`. -/
  | data (b : B)
  /-- `&disk.info[i].status`. -/
  | status (i : ℕ)

/-- `struct virtq_desc`; the flags are `VRING_DESC_F_NEXT` and `VRING_DESC_F_WRITE`. -/
structure Desc (B : Type*) where
  addr : DmaAddr B
  len : ℕ
  flagNext : Bool
  flagWrite : Bool
  next : ℕ

/-- `struct virtio_blk_req`; the type is `VIRTIO_BLK_T_OUT` or `VIRTIO_BLK_T_IN`. -/
structure BlkReq where
  out : Bool
  sector : ℕ
  deriving DecidableEq

/-- An entry of `disk.info`. -/
structure DiskInfo (B : Type*) where
  b : Option B
  status : ℕ

/-- The variable `disk` without its lock, with the rings in memory. -/
structure VDisk (B : Type*) where
  desc : ℕ → Desc B
  availRing : Fin NUM → ℕ
  availIdx : UInt16
  usedRing : Fin NUM → ℕ
  usedIdx : UInt16
  /-- Is a descriptor free? -/
  free : ℕ → Bool
  /-- `disk.used_idx`: we've looked this far in the used ring. -/
  seenIdx : UInt16
  info : ℕ → DiskInfo B
  ops : ℕ → BlkReq

/-- The cell of an index. -/
def ringCell (i : UInt16) : Fin NUM := Fin.ofNat NUM i.toNat

/-- Three descriptors. -/
structure Chain where
  i0 : ℕ
  i1 : ℕ
  i2 : ℕ

def Chain.toList (ch : Chain) : List ℕ := [ch.i0, ch.i1, ch.i2]

namespace VDisk

variable {B : Type*}

/-- Find a free descriptor and mark it non-free. -/
def allocDesc (d : VDisk B) : Option (ℕ × VDisk B) :=
  match (List.range NUM).find? fun i => d.free i with
  | none => none
  | some i => some (i, { d with free := update d.free i false })

/-- Mark a descriptor as free; `none` for a panic. -/
def freeDesc (d : VDisk B) (i : ℕ) : Option (VDisk B) :=
  if NUM ≤ i then none
  else if d.free i then none
  else some { d with
    desc := update d.desc i ⟨.null, 0, false, false, 0⟩
    free := update d.free i true }

/-- Free a chain of descriptors; `none` for a panic. A descriptor cannot be freed twice, so that no
chain takes more than `NUM` rounds. -/
def freeChain : ℕ → VDisk B → ℕ → Option (VDisk B)
  | 0, _, _ => none
  | fuel + 1, d, i =>
    let flag := (d.desc i).flagNext
    let nxt := (d.desc i).next
    match d.freeDesc i with
    | none => none
    | some d => if flag then freeChain fuel d nxt else some d

/-- Allocate three descriptors, or free those there were: the inner option is `none` for `-1`, the
outer one for a panic. -/
def alloc3Desc (d : VDisk B) : Option (VDisk B × Option Chain) :=
  match d.allocDesc with
  | none => some (d, none)
  | some (i0, d) =>
    match d.allocDesc with
    | none => (d.freeDesc i0).map fun d => (d, none)
    | some (i1, d) =>
      match d.allocDesc with
      | none => ((d.freeDesc i0).bind fun d => d.freeDesc i1).map fun d => (d, none)
      | some (i2, d) => some (d, some ⟨i0, i1, i2⟩)

/-- Format the three descriptors, and record the buffer for `virtio_disk_intr`. -/
def format (d : VDisk B) (ch : Chain) (b : B) (write : Bool) (sector : ℕ) : VDisk B :=
  { d with
    ops := update d.ops ch.i0 ⟨write, sector⟩
    desc := update (update (update d.desc
      ch.i0 ⟨.op ch.i0, 16, true, false, ch.i1⟩)
      ch.i1 ⟨.data b, 1024, true, !write, ch.i2⟩)
      ch.i2 ⟨.status ch.i0, 1, false, true, 0⟩
    info := update d.info ch.i0 ⟨some b, 255⟩ }

/-- What the device does for the chain at `h`: the buffer and the request it served, and the memory
with the status written. -/
def serve (d : VDisk B) (h : ℕ) : Option (B × BlkReq) × VDisk B :=
  let d0 := d.desc h
  let d1 := d.desc d0.next
  let d2 := d.desc d1.next
  match d0.addr, d1.addr, d2.addr with
  | .op i, .data b, .status j =>
    (some (b, d.ops i), { d with info := update d.info j { d.info j with status := 0 } })
  | _, _, _ => (none, d)

end VDisk

/-- The arguments of a call of `virtio_disk_rw`. -/
structure RwCall (B : Type*) where
  b : B
  write : Bool
  blockno : ℕ

def RwCall.sector {B : Type*} (c : RwCall B) : ℕ := c.blockno * (1024 / 512)

/-- Where a call of `virtio_disk_rw` is. -/
inductive RwPc (B : Type*)
  | idle
  /-- Before `acquire`, or on the way out of `sleep(&disk.free[0])`. -/
  | acquire (c : RwCall B)
  | alloc (c : RwCall B)
  | asleepFree (c : RwCall B)
  | format (c : RwCall B) (ch : Chain)
  /-- Before the write of the ring. -/
  | ring (c : RwCall B) (ch : Chain)
  /-- Before the increment of the index. -/
  | bump (c : RwCall B) (ch : Chain)
  /-- At the test of `b->disk`. -/
  | wait (c : RwCall B) (ch : Chain)
  | asleep (c : RwCall B) (ch : Chain)
  /-- On the way out of `sleep(b)`. -/
  | reacquire (c : RwCall B) (ch : Chain)
  | finish (c : RwCall B) (ch : Chain)

namespace RwPc

variable {B : Type*}

/-- The call is woken if it sleeps on `&disk.free[0]`. -/
def wakeFree : RwPc B → RwPc B
  | .asleepFree c => .acquire c
  | pc => pc

/-- The call is woken if it sleeps on `b`. -/
def wakeBuf [DecidableEq B] (b : B) : RwPc B → RwPc B
  | .asleep c ch => if c.b = b then .reacquire c ch else .asleep c ch
  | pc => pc

/-- The call is woken, wherever it sleeps. -/
def wake : RwPc B → RwPc B
  | .asleepFree c => .acquire c
  | .asleep c ch => .reacquire c ch
  | pc => pc

end RwPc

/-- Where a call of `virtio_disk_intr` is. -/
inductive IntrHandlerPc
  | idle
  | acquire
  /-- At the test of `disk.used_idx`. -/
  | loop
  | process
  deriving DecidableEq

/-- What the driver and the device share, what the device keeps, and what was done so far. -/
structure VirtioMem (B : Type*) where
  disk : VDisk B
  /-- `b->disk`. -/
  owned : B → Bool
  /-- `b` is an argument of a call in progress: its caller has it locked. -/
  held : B → Bool
  /-- How far the device has looked in the available ring. -/
  lastAvail : UInt16
  /-- The chains the device has consumed and not completed. -/
  service : List ℕ
  /-- The chain the device has put into the used ring without incrementing the index. -/
  publishing : Option ℕ
  /-- What the device did for a buffer since the buffer was given to it. -/
  served : B → Option BlkReq
  /-- The heads made available, consumed, completed and processed, in order. -/
  submitted : List ℕ
  consumed : List ℕ
  published : List ℕ
  processed : List ℕ

/-- The driver, its callers and the device. -/
structure Virtio (P I B : Type*) extends VirtioMem B where
  lock : Option (P ⊕ I)
  pc : P → RwPc B
  handler : I → IntrHandlerPc
  panicked : Bool

inductive VirtioAction (P I B : Type*)
  | rw (p : P) (c : RwCall B)
  /-- The next step of `virtio_disk_rw`. -/
  | next (p : P)
  /-- A sleeping call is made runnable by something else. -/
  | wake (p : P)
  | intr (i : I)
  /-- The next step of `virtio_disk_intr`. -/
  | handle (i : I)
  /-- The device consumes the next head. -/
  | consume
  /-- The device completes one of the chains it has consumed. -/
  | complete (k : ℕ)
  /-- The device increments the index of the used ring. -/
  | publish

namespace Virtio

variable {P I B : Type*} [DecidableEq P] [DecidableEq I] [DecidableEq B]

/-- Call `p` goes on at `c`. -/
def goto (σ : Virtio P I B) (p : P) (c : RwPc B) : Virtio P I B :=
  { σ with pc := update σ.pc p c }

/-- `acquire(&disk.vdisk_lock)`. -/
def takeLock (σ : Virtio P I B) (p : P) (c : RwPc B) : Option (Virtio P I B) :=
  if σ.lock = none then some { σ.goto p c with lock := some (.inl p) } else none

/-- The next step of call `p`. -/
def next (σ : Virtio P I B) (p : P) : Option (Virtio P I B) :=
  match σ.pc p with
  | .idle | .asleepFree _ | .asleep _ _ => none
  | .acquire c => σ.takeLock p (.alloc c)
  | .alloc c =>
    match σ.disk.alloc3Desc with
    | none => some { σ with panicked := true }
    | some (d, none) =>
      -- whoever waits for a descriptor is woken by `free_desc`
      some { σ with
        disk := d
        lock := none
        pc := update (fun q => (σ.pc q).wakeFree) p (.asleepFree c) }
    | some (d, some ch) => some { σ.goto p (.format c ch) with disk := d }
  | .format c ch =>
    some { σ.goto p (.ring c ch) with
      disk := σ.disk.format ch c.b c.write c.sector
      owned := update σ.owned c.b true
      served := update σ.served c.b none }
  | .ring c ch =>
    some { σ.goto p (.bump c ch) with
      disk := { σ.disk with
        availRing := update σ.disk.availRing (ringCell σ.disk.availIdx) ch.i0 } }
  | .bump c ch =>
    some { σ.goto p (.wait c ch) with
      disk := { σ.disk with availIdx := σ.disk.availIdx + 1 }
      submitted := σ.submitted ++ [ch.i0] }
  | .wait c ch =>
    if σ.owned c.b then some { σ.goto p (.asleep c ch) with lock := none }
    else some (σ.goto p (.finish c ch))
  | .reacquire c ch => σ.takeLock p (.wait c ch)
  | .finish c ch =>
    let d := { σ.disk with
      info := update σ.disk.info ch.i0 { σ.disk.info ch.i0 with b := none } }
    match d.freeChain (NUM + 1) ch.i0 with
    | none => some { σ with panicked := true }
    | some d =>
      some { σ with
        disk := d
        held := update σ.held c.b false
        lock := none
        pc := update (fun q => (σ.pc q).wakeFree) p .idle }

/-- The next step of handler `i`. -/
def handle (σ : Virtio P I B) (i : I) : Option (Virtio P I B) :=
  match σ.handler i with
  | .idle => none
  | .acquire =>
    if σ.lock = none then
      some { σ with handler := update σ.handler i .loop, lock := some (.inr i) }
    else none
  | .loop =>
    if σ.disk.seenIdx ≠ σ.disk.usedIdx then
      some { σ with handler := update σ.handler i .process }
    else some { σ with handler := update σ.handler i .idle, lock := none }
  | .process =>
    let id := σ.disk.usedRing (ringCell σ.disk.seenIdx)
    if (σ.disk.info id).status ≠ 0 then some { σ with panicked := true }
    else
      match (σ.disk.info id).b with
      | none => some { σ with panicked := true }
      | some b =>
        some { σ with
          disk := { σ.disk with seenIdx := σ.disk.seenIdx + 1 }
          owned := update σ.owned b false
          pc := fun q => (σ.pc q).wakeBuf b
          handler := update σ.handler i .loop
          processed := σ.processed ++ [id] }

/-- One step, `none` if it is not possible; there is none after a panic. -/
def step (σ : Virtio P I B) (a : VirtioAction P I B) : Option (Virtio P I B) :=
  if σ.panicked then none else
  match a with
  | .rw p c =>
    match σ.pc p with
    | .idle =>
      if σ.held c.b then none
      else some { σ.goto p (.acquire c) with held := update σ.held c.b true }
    | _ => none
  | .next p => σ.next p
  | .wake p => some (σ.goto p (σ.pc p).wake)
  | .intr i =>
    if σ.handler i = .idle then
      some { σ with handler := update σ.handler i .acquire }
    else none
  | .handle i => σ.handle i
  | .consume =>
    if σ.lastAvail ≠ σ.disk.availIdx then
      let h := σ.disk.availRing (ringCell σ.lastAvail)
      some { σ with
        lastAvail := σ.lastAvail + 1
        service := σ.service ++ [h]
        consumed := σ.consumed ++ [h] }
    else none
  | .complete k =>
    match σ.publishing, σ.service[k]? with
    | none, some h =>
      let (done, d) := σ.disk.serve h
      some { σ with
        disk := { d with usedRing := update d.usedRing (ringCell d.usedIdx) h }
        service := σ.service.eraseIdx k
        publishing := some h
        served := match done with
          | none => σ.served
          | some (b, r) => update σ.served b (some r) }
    | none, none | some _, _ => none
  | .publish =>
    match σ.publishing with
    | none => none
    | some h =>
      some { σ with
        disk := { σ.disk with usedIdx := σ.disk.usedIdx + 1 }
        publishing := none
        published := σ.published ++ [h] }

/-- After `virtio_disk_init`. -/
def boot : Virtio P I B where
  disk :=
    { desc := fun _ => ⟨.null, 0, false, false, 0⟩
      availRing := fun _ => 0
      availIdx := 0
      usedRing := fun _ => 0
      usedIdx := 0
      free := fun _ => true
      seenIdx := 0
      info := fun _ => ⟨none, 0⟩
      ops := fun _ => ⟨false, 0⟩ }
  owned := fun _ => false
  held := fun _ => false
  lock := none
  pc := fun _ => .idle
  handler := fun _ => .idle
  panicked := false
  lastAvail := 0
  service := []
  publishing := none
  served := fun _ => none
  submitted := []
  consumed := []
  published := []
  processed := []

end Virtio

end Xv6
