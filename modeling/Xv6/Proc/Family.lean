import Xv6.Proc.Sched

/-! # Parents and children

`fork`, `exit`, `wait` and `kill` of `kernel/proc.c` at the granularity of `wait_lock` and the
`p->lock`s: every acquisition and release, and every write of `p->state` or `p->parent`, is a step. A
round of `wakeup`, which takes one `p->lock` and gives it back, is one step, and so are `kill` of a
process and the switches of processes that hold no lock.

A slot of the table is used by many processes in turn; `gen` counts them. `exited` and `waited` record
what `exit` was called with and what `wait` returned. -/

namespace Xv6

open Function (update)

/-- The channels processes sleep on: a process, in `wait`, or anything else. -/
inductive FamilyChan (n : ℕ)
  | proc (p : Fin n)
  | other
  deriving DecidableEq

/-- Who holds a `p->lock`. -/
inductive FamilyHolder (n : ℕ)
  | thread (p : Fin n)
  /-- The scheduler a process switched to. -/
  | sched
  deriving DecidableEq

/-- Where the kernel thread of a slot is. -/
inductive FamilyPc (n : ℕ)
  /-- No thread: the process has exited, or is new and has not run. -/
  | gone
  /-- Outside of these calls. -/
  | user
  /-- In `allocproc`, before the round for `proc[i]`. -/
  | allocScan (i : ℕ)
  | allocFound (q : Fin n)
  /-- In `fork`, with a slot that is `USED`. -/
  | forkFill (q : Fin n)
  | forkFail (q : Fin n)
  | forkRelease (q : Fin n)
  | forkWait (q : Fin n)
  | forkParent (q : Fin n)
  | forkUnwait (q : Fin n)
  | forkLock (q : Fin n)
  | forkStart (q : Fin n)
  | forkDone (q : Fin n)
  /-- In `exit`, before `acquire(&wait_lock)`. -/
  | exitWait (status : ℤ)
  | reparent (status : ℤ) (i : ℕ)
  /-- In `wakeup(initproc)` from round `i` of `reparent`, before the round for `proc[j]`. -/
  | wakeInit (status : ℤ) (i : Fin n) (j : ℕ)
  /-- In `wakeup(p->parent)`. -/
  | wakeParent (status : ℤ) (parent : Option (Fin n)) (j : ℕ)
  | exitLock (status : ℤ)
  | exitState (status : ℤ)
  | exitUnwait
  | exitSched
  /-- In `wait`, before `acquire(&wait_lock)`, also at the end of `sleep`. -/
  | waitWait
  | waitScan (i : ℕ) (havekids : Bool)
  | waitLook (i : Fin n)
  | waitUnlock (i : Fin n)
  | waitFound (i : Fin n)
  | waitUnwait
  | waitEnd (havekids : Bool)
  /-- In `sleep(p, &wait_lock)`. -/
  | sleepLock
  | sleepUnwait
  | sleepState
  | sleepSched
  | asleep
  | woken
  deriving DecidableEq

/-- Where a process holds no spinlock, so that a timer interrupt can make it yield. -/
def FamilyPc.preemptible {n : ℕ} : FamilyPc n → Bool
  | .user | .allocScan _ | .forkWait _ | .forkLock _ | .exitWait _ | .waitWait => true
  | _ => false

/-- One process that exited: its slot, which of the processes of the slot it was, its pid and its exit
status. -/
structure Exited (n : ℕ) where
  slot : Fin n
  gen : ℕ
  pid : ℤ
  status : ℤ
  deriving DecidableEq

structure FamilySys (n : ℕ) where
  state : Fin n → ProcState
  parent : Fin n → Option (Fin n)
  chan : Fin n → Option (FamilyChan n)
  killed : Fin n → Bool
  pid : Fin n → ℤ
  xstate : Fin n → ℤ
  nextpid : ℤ
  waitLock : Option (Fin n)
  lock : Fin n → Option (FamilyHolder n)
  pc : Fin n → FamilyPc n
  /-- A CPU executes the process. -/
  on : Fin n → Bool
  gen : Fin n → ℕ
  exited : List (Exited n)
  /-- What `wait` returned, with its caller. -/
  waited : List (Fin n × Exited n)

inductive FamilyAction (n : ℕ)
  | fork (p : Fin n)
  | exit (p : Fin n) (status : ℤ)
  | wait (p : Fin n)
  | kill (p q : Fin n)
  /-- The next step of `p` in a call; `ok` tells whether memory allocation or `copyout` succeeds. -/
  | next (p : Fin n) (ok : Bool)
  | yield (p : Fin n)
  /-- `p` sleeps on another channel. -/
  | sleepOther (p : Fin n)
  | wakeOther (p : Fin n)
  /-- `scheduler` runs `p`. -/
  | dispatch (p : Fin n)
  | schedRelease (p : Fin n)

namespace FamilySys

variable {n : ℕ}

/-- After `userinit`. -/
def boot (initproc : Fin n) : FamilySys n where
  state := fun p => if p = initproc then .runnable else .unused
  parent := fun _ => none
  chan := fun _ => none
  killed := fun _ => false
  pid := fun p => if p = initproc then 1 else 0
  xstate := fun _ => 0
  nextpid := 2
  waitLock := none
  lock := fun _ => none
  pc := fun _ => .gone
  on := fun _ => false
  gen := fun _ => 0
  exited := []
  waited := []

/-- Process `p` goes on at `c`. -/
def goto (σ : FamilySys n) (p : Fin n) (c : FamilyPc n) : FamilySys n :=
  { σ with pc := update σ.pc p c }

/-- `acquire(&wait_lock)`. -/
def takeWait (σ : FamilySys n) (p : Fin n) (c : FamilyPc n) : Option (FamilySys n) :=
  if σ.waitLock = none then some { σ.goto p c with waitLock := some p } else none

/-- `release(&wait_lock)`. -/
def dropWait (σ : FamilySys n) (p : Fin n) (c : FamilyPc n) : FamilySys n :=
  { σ.goto p c with waitLock := none }

/-- `acquire(&q->lock)`. -/
def takeLock (σ : FamilySys n) (p q : Fin n) (c : FamilyPc n) : Option (FamilySys n) :=
  if σ.lock q = none then
    some { σ.goto p c with lock := update σ.lock q (some (.thread p)) }
  else none

/-- `release(&q->lock)`. -/
def dropLock (σ : FamilySys n) (p q : Fin n) (c : FamilyPc n) : FamilySys n :=
  { σ.goto p c with lock := update σ.lock q none }

/-- `freeproc(q)`. -/
def freeproc (σ : FamilySys n) (q : Fin n) : FamilySys n :=
  { σ with
    pid := update σ.pid q 0
    parent := update σ.parent q none
    chan := update σ.chan q none
    killed := update σ.killed q false
    xstate := update σ.xstate q 0
    state := update σ.state q .unused }

/-- A round of `wakeup(target)` for `proc[j]`, by `p`. -/
def wakeRound (σ : FamilySys n) (p j target : Fin n) (c : FamilyPc n) : Option (FamilySys n) :=
  if j = p then some (σ.goto p c)
  else if σ.lock j = none then
    some { σ.goto p c with
      state := if σ.state j = .sleeping ∧ σ.chan j = some (.proc target) then
        update σ.state j .runnable else σ.state }
  else none

/-- `p` calls `swtch` with its own lock. -/
def sched (σ : FamilySys n) (p : Fin n) (c : FamilyPc n) : FamilySys n :=
  { σ.goto p c with
    lock := update σ.lock p (some .sched)
    on := update σ.on p false }

/-- The next step of process `p` in `fork`, `exit` or `wait`. -/
def next (initproc : Fin n) (σ : FamilySys n) (p : Fin n) (ok : Bool) : Option (FamilySys n) :=
  match σ.pc p with
  | .gone | .user | .asleep => none
  | .allocScan i =>
    if hi : i < n then
      if σ.lock ⟨i, hi⟩ = none then
        if σ.state ⟨i, hi⟩ = .unused then σ.takeLock p ⟨i, hi⟩ (.allocFound ⟨i, hi⟩)
        else some (σ.goto p (.allocScan (i + 1)))
      else none
    else some (σ.goto p .user)
  | .allocFound q =>
    some { σ.goto p (.forkFill q) with
      pid := update σ.pid q σ.nextpid
      nextpid := (σ.nextpid + 1).bmod (2 ^ 32)
      state := update σ.state q .used
      gen := update σ.gen q (σ.gen q + 1) }
  | .forkFill q =>
    if ok then some (σ.goto p (.forkRelease q)) else some ((σ.freeproc q).goto p (.forkFail q))
  | .forkFail q => some (σ.dropLock p q .user)
  | .forkRelease q => some (σ.dropLock p q (.forkWait q))
  | .forkWait q => σ.takeWait p (.forkParent q)
  | .forkParent q =>
    some { σ.goto p (.forkUnwait q) with parent := update σ.parent q (some p) }
  | .forkUnwait q => some (σ.dropWait p (.forkLock q))
  | .forkLock q => σ.takeLock p q (.forkStart q)
  | .forkStart q =>
    some { σ.goto p (.forkDone q) with state := update σ.state q .runnable }
  | .forkDone q => some (σ.dropLock p q .user)
  | .exitWait st => σ.takeWait p (.reparent st 0)
  | .reparent st i =>
    if hi : i < n then
      if σ.parent ⟨i, hi⟩ = some p then
        some { σ.goto p (.wakeInit st ⟨i, hi⟩ 0) with
          parent := update σ.parent ⟨i, hi⟩ (some initproc) }
      else some (σ.goto p (.reparent st (i + 1)))
    else some (σ.goto p (.wakeParent st (σ.parent p) 0))
  | .wakeInit st i j =>
    if hj : j < n then σ.wakeRound p ⟨j, hj⟩ initproc (.wakeInit st i (j + 1))
    else some (σ.goto p (.reparent st (i + 1)))
  | .wakeParent st o j =>
    match o with
    | none => some (σ.goto p (.exitLock st))
    | some r =>
      if hj : j < n then σ.wakeRound p ⟨j, hj⟩ r (.wakeParent st o (j + 1))
      else some (σ.goto p (.exitLock st))
  | .exitLock st => σ.takeLock p p (.exitState st)
  | .exitState st =>
    some { σ.goto p .exitUnwait with
      xstate := update σ.xstate p st
      state := update σ.state p .zombie
      exited := ⟨p, σ.gen p, σ.pid p, st⟩ :: σ.exited }
  | .exitUnwait => some (σ.dropWait p .exitSched)
  | .exitSched => some (σ.sched p .gone)
  | .waitWait => σ.takeWait p (.waitScan 0 false)
  | .waitScan i havekids =>
    if hi : i < n then
      if σ.parent ⟨i, hi⟩ = some p then σ.takeLock p ⟨i, hi⟩ (.waitLook ⟨i, hi⟩)
      else some (σ.goto p (.waitScan (i + 1) havekids))
    else some (σ.goto p (.waitEnd havekids))
  | .waitLook i =>
    if σ.state i = .zombie then
      if ok then
        some { (σ.freeproc i).goto p (.waitFound i) with
          waited := (p, ⟨i, σ.gen i, σ.pid i, σ.xstate i⟩) :: σ.waited }
      else some (σ.goto p (.waitFound i))
    else some (σ.goto p (.waitUnlock i))
  | .waitUnlock i => some (σ.dropLock p i (.waitScan (i + 1) true))
  | .waitFound i => some (σ.dropLock p i .waitUnwait)
  | .waitUnwait => some (σ.dropWait p .user)
  | .waitEnd havekids =>
    -- `killed(p)` takes the lock of `p`
    if havekids = false then some (σ.goto p .waitUnwait)
    else if σ.lock p = none then
      if σ.killed p then some (σ.goto p .waitUnwait) else some (σ.goto p .sleepLock)
    else none
  | .sleepLock => σ.takeLock p p .sleepUnwait
  | .sleepUnwait => some (σ.dropWait p .sleepState)
  | .sleepState =>
    some { σ.goto p .sleepSched with
      chan := update σ.chan p (some (.proc p))
      state := update σ.state p .sleeping }
  | .sleepSched => some (σ.sched p .asleep)
  | .woken => some { σ.dropLock p p .waitWait with chan := update σ.chan p none }

/-- One step, `none` if it is not possible. -/
def step (initproc : Fin n) (σ : FamilySys n) : FamilyAction n → Option (FamilySys n)
  | .fork p =>
    if σ.on p = true ∧ σ.pc p = .user then some (σ.goto p (.allocScan 0)) else none
  | .exit p st =>
    -- `panic("init exiting")`
    if σ.on p = true ∧ σ.pc p = .user ∧ p ≠ initproc then some (σ.goto p (.exitWait st)) else none
  | .wait p => if σ.on p = true ∧ σ.pc p = .user then some (σ.goto p .waitWait) else none
  | .kill p q =>
    if σ.on p = true ∧ σ.pc p = .user ∧ σ.lock q = none then
      some { σ with
        killed := update σ.killed q true
        state := if σ.state q = .sleeping then update σ.state q .runnable else σ.state }
    else none
  | .next p ok => if σ.on p = true then σ.next initproc p ok else none
  | .yield p =>
    if σ.on p = true ∧ (σ.pc p).preemptible = true ∧ σ.lock p = none then
      some { σ with
        state := update σ.state p .runnable
        on := update σ.on p false }
    else none
  | .sleepOther p =>
    if σ.on p = true ∧ σ.pc p = .user ∧ σ.lock p = none then
      some { σ with
        state := update σ.state p .sleeping
        chan := update σ.chan p (some .other)
        on := update σ.on p false }
    else none
  | .wakeOther p =>
    if σ.lock p = none ∧ σ.state p = .sleeping ∧ σ.chan p = some .other then
      some { σ with state := update σ.state p .runnable }
    else none
  | .dispatch p =>
    if σ.lock p = none ∧ σ.state p = .runnable then
      match σ.pc p with
      | .asleep =>
        some { σ.goto p .woken with
          state := update σ.state p .running
          lock := update σ.lock p (some (.thread p))
          on := update σ.on p true }
      | .gone =>
        some { σ.goto p .user with
          state := update σ.state p .running
          on := update σ.on p true }
      | _ =>
        some { σ with
          state := update σ.state p .running
          chan := update σ.chan p none
          on := update σ.on p true }
    else none
  | .schedRelease p =>
    if σ.lock p = some .sched then some { σ with lock := update σ.lock p none } else none

end FamilySys

end Xv6
