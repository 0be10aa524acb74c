import Xv6.Param
import Xv6.Lib.Run

/-! # Pipes

`kernel/pipe.c`: `pipewrite`, `piperead` and `pipeclose` on one pipe, by any processes `P`. The
calls are interleaved at every passage through a loop: `pi->lock` is an explicit field, its holder
runs one passage at a time, and `kill`, which does not take `pi->lock`, can come between any two of
them. `sleep` gives up the lock and goes to sleep in one step, since it holds `p->lock` from before
the release until the process is `SLEEPING`, and `wakeup` needs `p->lock`. -/

namespace Xv6

open Function

/-- The capacity of a pipe. -/
abbrev PIPESIZE : ℕ := 512

/-- `struct pipe` without its lock. -/
structure Pipe where
  data : Fin PIPESIZE → UInt8
  /-- Number of bytes read. -/
  nread : UInt32
  /-- Number of bytes written. -/
  nwrite : UInt32
  /-- Read fd is still open. -/
  readopen : Bool
  /-- Write fd is still open. -/
  writeopen : Bool

namespace Pipe

/-- The pipe as `pipealloc` initialises it, in a page with any contents. -/
def alloc (data : Fin PIPESIZE → UInt8) : Pipe := ⟨data, 0, 0, true, true⟩

/-- The full test of `pipewrite`. -/
def full (pi : Pipe) : Bool := pi.nwrite = pi.nread + 512

/-- The empty test of `piperead`. -/
def empty (pi : Pipe) : Bool := pi.nread = pi.nwrite

/-- `pi->data[pi->nwrite++ % PIPESIZE] = ch`. -/
def put (pi : Pipe) (ch : UInt8) : Pipe :=
  { pi with
    data := update pi.data (Fin.ofNat PIPESIZE pi.nwrite.toNat) ch
    nwrite := pi.nwrite + 1 }

/-- The byte `pi->data[pi->nread % PIPESIZE]`. -/
def head (pi : Pipe) : UInt8 := pi.data (Fin.ofNat PIPESIZE pi.nread.toNat)

/-- The pipe after `pi->nread++`. -/
def drop (pi : Pipe) : Pipe := { pi with nread := pi.nread + 1 }

end Pipe

/-- A call in progress. `src i` is what `copyin` finds at `addr + i`, and `dst i` tells whether
`copyout` succeeds there. -/
inductive PipeCall
  /-- `pipewrite` of `n` bytes, `i` of them done. -/
  | write (src : ℕ → Option UInt8) (n : ℤ) (i : ℕ)
  /-- `piperead` of `n` bytes. -/
  | read (dst : ℕ → Bool) (n : ℤ)

/-- The call at its start. -/
def PipeCall.begin : PipeCall → PipeCall
  | .write src n _ => .write src n 0
  | .read dst n => .read dst n

/-- Where a process is with respect to the pipe. -/
inductive PipePc
  /-- Not in a call on the pipe. -/
  | idle
  /-- About to acquire `pi->lock`, at the start of the call or on the way out of `sleep`. -/
  | acquire (c : PipeCall)
  /-- `SLEEPING`, a writer on `&pi->nwrite` and a reader on `&pi->nread`. -/
  | asleep (c : PipeCall)
  /-- In the loop of `pipewrite`, with the lock. -/
  | writing (src : ℕ → Option UInt8) (n : ℤ) (i : ℕ)
  /-- In the first loop of `piperead`, with the lock. -/
  | waiting (dst : ℕ → Bool) (n : ℤ)
  /-- In the second loop of `piperead`, with the lock. -/
  | copying (dst : ℕ → Bool) (n : ℤ) (i : ℕ)

namespace PipePc

/-- Past the acquisition of the lock. -/
def enter : PipeCall → PipePc
  | .write src n i => .writing src n i
  | .read dst n => .waiting dst n

/-- `SLEEPING` on `&pi->nread`. -/
def onRead : PipePc → Bool
  | .asleep (.read _ _) => true
  | _ => false

/-- `SLEEPING` on `&pi->nwrite`. -/
def onWrite : PipePc → Bool
  | .asleep (.write _ _ _) => true
  | _ => false

/-- The process is woken: it goes on to acquire the lock it slept with. -/
def wake : PipePc → PipePc
  | .asleep c => .acquire c
  | pc => pc

end PipePc

/-- A pipe with its users, and what went through it. -/
structure PipeSys (P : Type*) where
  pipe : Pipe
  /-- The holder of `pi->lock`. -/
  lock : Option P
  pc : P → PipePc
  killed : P → Bool
  /-- Both ends are closed and the page is freed. -/
  freed : Bool
  /-- The bytes appended by `pipewrite`, in order. -/
  appended : List UInt8
  /-- The bytes delivered by `piperead`, in order. -/
  delivered : List UInt8

/-- The atomic steps. -/
inductive PipeAction (P : Type*)
  /-- Process `p` calls `pipewrite` or `piperead`. -/
  | start (p : P) (c : PipeCall)
  | acquire (p : P)
  /-- The holder of the lock makes one passage through its loop. -/
  | run (p : P)
  /-- `pipeclose(pi, writable)`. -/
  | close (p : P) (writable : Bool)
  /-- `kill` of process `q`. -/
  | kill (q : P)

namespace PipeSys

variable {P : Type*}

/-- A new pipe, whose users are all outside. -/
def init (data : Fin PIPESIZE → UInt8) (killed : P → Bool) : PipeSys P where
  pipe := .alloc data
  lock := none
  pc := fun _ => .idle
  killed := killed
  freed := false
  appended := []
  delivered := []

/-- `wakeup(&pi->nread)`. -/
def wakeupRead (s : PipeSys P) : PipeSys P :=
  { s with pc := fun q => if (s.pc q).onRead then (s.pc q).wake else s.pc q }

/-- `wakeup(&pi->nwrite)`. -/
def wakeupWrite (s : PipeSys P) : PipeSys P :=
  { s with pc := fun q => if (s.pc q).onWrite then (s.pc q).wake else s.pc q }

variable [DecidableEq P]

/-- Process `p` goes on at `c`. -/
def goto (s : PipeSys P) (p : P) (c : PipePc) : PipeSys P := { s with pc := update s.pc p c }

/-- Process `p` releases `pi->lock` and goes on at `c`. -/
def release (s : PipeSys P) (p : P) (c : PipePc) : PipeSys P := { s.goto p c with lock := none }

/-- One passage through the loop of `pipewrite`. -/
def write (s : PipeSys P) (p : P) (src : ℕ → Option UInt8) (n : ℤ) (i : ℕ) : PipeSys P :=
  if i < n then
    if s.pipe.readopen = false ∨ s.killed p then s.release p .idle
    else if s.pipe.full then s.wakeupRead.release p (.asleep (.write src n i))
    else
      match src i with
      | none => s.wakeupRead.release p .idle
      | some ch =>
        { s.goto p (.writing src n (i + 1)) with
          pipe := s.pipe.put ch
          appended := s.appended ++ [ch] }
  else s.wakeupRead.release p .idle

/-- One passage through the first loop of `piperead`. -/
def wait (s : PipeSys P) (p : P) (dst : ℕ → Bool) (n : ℤ) : PipeSys P :=
  if s.pipe.empty ∧ s.pipe.writeopen then
    if s.killed p then s.release p .idle else s.release p (.asleep (.read dst n))
  else s.goto p (.copying dst n 0)

/-- One passage through the second loop of `piperead`. -/
def copy (s : PipeSys P) (p : P) (dst : ℕ → Bool) (n : ℤ) (i : ℕ) : PipeSys P :=
  if i < n ∧ s.pipe.empty = false then
    if dst i then
      { s.goto p (.copying dst n (i + 1)) with
        pipe := s.pipe.drop
        delivered := s.delivered ++ [s.pipe.head] }
    else { s with pipe := s.pipe.drop }.wakeupWrite.release p .idle
  else s.wakeupWrite.release p .idle

/-- `pipeclose`. -/
def close (s : PipeSys P) (writable : Bool) : PipeSys P :=
  let s := if writable then { s with pipe := { s.pipe with writeopen := false } }.wakeupRead
    else { s with pipe := { s.pipe with readopen := false } }.wakeupWrite
  { s with freed := s.pipe.readopen = false ∧ s.pipe.writeopen = false }

/-- One step, `none` if it is not possible. There is no pipe any more once it is freed. -/
def step (s : PipeSys P) (a : PipeAction P) : Option (PipeSys P) :=
  match a with
  | .kill q => some { s.goto q (s.pc q).wake with killed := update s.killed q true }
  | .start p c =>
    if s.freed then none
    else match s.pc p with
      | .idle => some (s.goto p (.acquire c.begin))
      | _ => none
  | .acquire p =>
    if s.freed ∨ s.lock.isSome then none
    else match s.pc p with
      | .acquire c => some { s.goto p (.enter c) with lock := some p }
      | _ => none
  | .run p =>
    if s.lock = some p then
      match s.pc p with
      | .writing src n i => some (s.write p src n i)
      | .waiting dst n => some (s.wait p dst n)
      | .copying dst n i => some (s.copy p dst n i)
      | _ => none
    else none
  | .close p writable =>
    if s.freed ∨ s.lock.isSome then none
    else match s.pc p with
      | .idle => some (s.close writable)
      | _ => none

/-- What each step does, with the conditions under which it is possible. -/
inductive Step (s : PipeSys P) : PipeAction P → PipeSys P → Prop
  | kill (q : P) :
      Step s (.kill q) { s.goto q (s.pc q).wake with killed := update s.killed q true }
  | start (p : P) (c : PipeCall) (hpc : s.pc p = .idle) :
      Step s (.start p c) (s.goto p (.acquire c.begin))
  | acquire (p : P) (c : PipeCall) (hlock : s.lock = none) (hpc : s.pc p = .acquire c) :
      Step s (.acquire p) { s.goto p (.enter c) with lock := some p }
  | write (p : P) (src : ℕ → Option UInt8) (n : ℤ) (i : ℕ) (hlock : s.lock = some p)
      (hpc : s.pc p = .writing src n i) : Step s (.run p) (s.write p src n i)
  | wait (p : P) (dst : ℕ → Bool) (n : ℤ) (hlock : s.lock = some p)
      (hpc : s.pc p = .waiting dst n) : Step s (.run p) (s.wait p dst n)
  | copy (p : P) (dst : ℕ → Bool) (n : ℤ) (i : ℕ) (hlock : s.lock = some p)
      (hpc : s.pc p = .copying dst n i) : Step s (.run p) (s.copy p dst n i)
  | close (p : P) (writable : Bool) (hlock : s.lock = none) (hpc : s.pc p = .idle) :
      Step s (.close p writable) (s.close writable)

theorem step_inv {s t : PipeSys P} {a : PipeAction P} (h : s.step a = some t) : Step s a t := by
  cases a with
  | kill q =>
    cases h
    exact .kill q
  | start p c =>
    simp only [step] at h
    split at h
    · cases h
    · split at h
      · rename_i hpc
        cases h
        exact .start p c hpc
      · cases h
  | acquire p =>
    simp only [step] at h
    split at h
    · cases h
    · rename_i hfree
      have hlock : s.lock = none := Option.not_isSome_iff_eq_none.mp (not_or.mp hfree).2
      split at h
      · rename_i c hpc
        cases h
        exact .acquire p c hlock hpc
      · cases h
  | run p =>
    simp only [step] at h
    split at h
    · rename_i hlock
      split at h
      · rename_i src n i hpc
        cases h
        exact .write p src n i hlock hpc
      · rename_i dst n hpc
        cases h
        exact .wait p dst n hlock hpc
      · rename_i dst n i hpc
        cases h
        exact .copy p dst n i hlock hpc
      · cases h
    · cases h
  | close p writable =>
    simp only [step] at h
    split at h
    · cases h
    · rename_i hfree
      have hlock : s.lock = none := Option.not_isSome_iff_eq_none.mp (not_or.mp hfree).2
      split at h
      · rename_i hpc
        cases h
        exact .close p writable hlock hpc
      · cases h

end PipeSys

end Xv6
