import Xv6.Lib.Run

/-! # Processes and CPUs

`kernel/proc.c`: `scheduler` on any CPUs `C`, and `yield`, `sleep`, `wakeup`, `kill`, `fork`, `exit`
and `wait` of the processes `P` they run. Every acquisition and release of a `p->lock`, every change
of a state under it and every `swtch` is a step of its own, so the hand-over of `p->lock` between a
process and the scheduler is visible. `p->lock` is held by a CPU. Channels are of any type `Ch`. -/

namespace Xv6

open Function

/-- `enum procstate`. -/
inductive ProcState
  | unused
  | used
  | sleeping
  | runnable
  | running
  | zombie
  deriving DecidableEq, Repr

/-- Where a process continues when it is switched to. -/
inductive Resume
  | forkret
  | inYield
  | inSleep
  deriving DecidableEq

/-- What a process does to itself under its own lock. -/
inductive OwnOp (Ch : Type*)
  | yield
  | sleep (ch : Ch)
  | exit
  deriving DecidableEq

/-- What a process does to another one under that one's lock. -/
inductive OtherOp (Ch : Type*)
  /-- A round of the loop of `wakeup`. -/
  | wakeup (ch : Ch)
  /-- A round of the loop of `kill`. -/
  | kill (pid : ℤ)
  /-- A round of the loop of `allocproc`. -/
  | alloc
  /-- The rest of `allocproc` and the part of `fork` up to the first release. -/
  | fill
  /-- The last part of `fork`. -/
  | start
  /-- A round of the loop of `wait`. -/
  | wait
  deriving DecidableEq

/-- Where `scheduler` is. -/
inductive SchedPc (P : Type*)
  | scan
  /-- It has acquired the lock of `q`. -/
  | locked (q : P)
  /-- `swtch` has returned; `c->proc` is still `q`. -/
  | back (q : P)
  /-- In `wakeup` of an interrupt handler, with the lock of `q`. -/
  | waking (q : P)
  /-- About to release the lock of `q`. -/
  | unlocking (q : P)
  deriving DecidableEq

/-- Where the kernel thread of a process is. -/
inductive ProcPc (P Ch : Type*)
  /-- It holds no `p->lock`. -/
  | free
  /-- `swtch` has returned, the lock is still held from the scheduler. -/
  | resumed (r : Resume)
  /-- It has acquired its own lock. -/
  | own (op : OwnOp Ch)
  /-- It has changed its own state and is about to call `swtch`. -/
  | leaving
  /-- It has acquired the lock of `q`. -/
  | other (q : P) (op : OtherOp Ch)
  /-- It is about to release the lock of `q`. -/
  | done (q : P)
  deriving DecidableEq

/-- What a CPU executes. -/
inductive Exec (P Ch : Type*)
  | sched (pc : SchedPc P)
  | proc (p : P) (pc : ProcPc P Ch)
  deriving DecidableEq

/-- The process table and the CPUs. -/
structure Procs (P C Ch : Type*) where
  state : P → ProcState
  chan : P → Option Ch
  killed : P → Bool
  pid : P → ℤ
  parent : P → Option P
  /-- The saved context. -/
  context : P → Resume
  /-- The child that `fork` has made but not yet started. -/
  np : P → Option P
  /-- The CPU that holds `p->lock`. -/
  lock : P → Option C
  /-- `c->proc`. -/
  proc : C → Option P
  exec : C → Exec P Ch
  nextpid : ℤ

/-- The steps of CPU `c`. -/
inductive ProcAction (P C Ch : Type*)
  /-- `scheduler` acquires the lock of `q`. -/
  | acquire (c : C) (q : P)
  /-- `scheduler` runs the process if it is `RUNNABLE`. -/
  | dispatch (c : C)
  /-- `c->proc = 0`. -/
  | clear (c : C)
  | unlock (c : C)
  /-- A device interrupts `scheduler`, and the handler's `wakeup` acquires the lock of `q`. -/
  | interrupt (c : C) (q : P)
  /-- The handler's `wakeup` looks at the process. -/
  | wake (c : C) (ch : Ch)
  /-- The process acquires its own lock in `yield`, `sleep` or `exit`. -/
  | lockOwn (c : C) (op : OwnOp Ch)
  /-- The process changes its own state. -/
  | setState (c : C)
  /-- `swtch(&p->context, &mycpu()->context)`. -/
  | swtch (c : C)
  /-- The process releases the lock it got from the scheduler. -/
  | resume (c : C)
  | lockOther (c : C) (q : P) (op : OtherOp Ch)
  /-- The process acts on the other one; `ok` tells whether memory allocation or `copyout`
  succeeds. -/
  | act (c : C) (ok : Bool)
  | unlockOther (c : C)

namespace Procs

variable {P C Ch : Type*}

/-- After `userinit`: `initproc` is runnable and every CPU enters `scheduler`. -/
def boot [DecidableEq P] (initproc : P) : Procs P C Ch where
  state := fun p => if p = initproc then .runnable else .unused
  chan := fun _ => none
  killed := fun _ => false
  pid := fun p => if p = initproc then 1 else 0
  parent := fun _ => none
  context := fun _ => .forkret
  np := fun _ => none
  lock := fun _ => none
  proc := fun _ => none
  exec := fun _ => .sched .scan
  nextpid := 2

section

variable [DecidableEq P] [DecidableEq C]

def setState (s : Procs P C Ch) (p : P) (st : ProcState) : Procs P C Ch :=
  { s with state := update s.state p st }

/-- CPU `c` goes on at `e`. -/
def goto (s : Procs P C Ch) (c : C) (e : Exec P Ch) : Procs P C Ch :=
  { s with exec := update s.exec c e }

def setLock (s : Procs P C Ch) (p : P) (o : Option C) : Procs P C Ch :=
  { s with lock := update s.lock p o }

def setProc (s : Procs P C Ch) (c : C) (o : Option P) : Procs P C Ch :=
  { s with proc := update s.proc c o }

/-- `freeproc`. -/
def freeproc (s : Procs P C Ch) (q : P) : Procs P C Ch :=
  { s with
    pid := update s.pid q 0
    parent := update s.parent q none
    chan := update s.chan q none
    killed := update s.killed q false
    state := update s.state q .unused }

/-- What `p` does to itself, on the way to `sched`. -/
def ownOp (s : Procs P C Ch) (p : P) : OwnOp Ch → Procs P C Ch
  | .yield => { s.setState p .runnable with context := update s.context p .inYield }
  | .sleep ch => { s.setState p .sleeping with
      chan := update s.chan p (some ch)
      context := update s.context p .inSleep }
  | .exit => s.setState p .zombie

variable [DecidableEq Ch]

/-- What `p`, on CPU `c` and with the lock of `q`, does to `q`. -/
def otherOp (s : Procs P C Ch) (c : C) (p q : P) (ok : Bool) : OtherOp Ch → Procs P C Ch
  | .wakeup ch =>
    (if s.state q = .sleeping ∧ s.chan q = some ch then s.setState q .runnable else s).goto c
      (.proc p (.done q))
  | .kill pid =>
    (if s.pid q = pid then
      let s := { s with killed := update s.killed q true }
      if s.state q = .sleeping then s.setState q .runnable else s
    else s).goto c (.proc p (.done q))
  | .alloc =>
    if s.state q = .unused then
      { s.setState q .used with
        pid := update s.pid q s.nextpid
        nextpid := (s.nextpid + 1).bmod (2 ^ 32) }.goto c (.proc p (.other q .fill))
    else s.goto c (.proc p (.done q))
  | .fill =>
    (if ok then
      { s with
        context := update s.context q .forkret
        np := update s.np p (some q) }
    else s.freeproc q).goto c (.proc p (.done q))
  | .start =>
    { s.setState q .runnable with np := update s.np p none }.goto c (.proc p (.done q))
  | .wait =>
    (if s.state q = .zombie ∧ ok then s.freeproc q else s).goto c (.proc p (.done q))

/-- When `p` may try to lock itself: a timer interrupt can come in the middle of `fork`, and the
`initproc` never exits. -/
def mayLeave (s : Procs P C Ch) (initproc p : P) : OwnOp Ch → Bool
  | .yield => true
  | .sleep _ => s.np p = none
  | .exit => p ≠ initproc ∧ s.np p = none

/-- When `p` may try to lock `q`: `wakeup` skips the caller, `fork` comes back to the child it made,
and `wait` looks at children. An interrupt handler may call `wakeup` in the middle of `fork`. -/
def mayLock (s : Procs P C Ch) (p q : P) : OtherOp Ch → Bool
  | .wakeup _ => q ≠ p
  | .kill _ => s.np p = none
  | .alloc => s.np p = none
  | .fill => false
  | .start => s.np p = some q
  | .wait => s.parent q = some p ∧ s.np p = none

/-- One step, `none` if it is not possible. -/
def step (initproc : P) (s : Procs P C Ch) : ProcAction P C Ch → Option (Procs P C Ch)
  | .acquire c q =>
    match s.exec c, s.lock q with
    | .sched .scan, none => some ((s.setLock q (some c)).goto c (.sched (.locked q)))
    | _, _ => none
  | .dispatch c =>
    match s.exec c with
    | .sched (.locked q) =>
      if s.state q = .runnable then
        some (((s.setState q .running).setProc c (some q)).goto c
          (.proc q (.resumed (s.context q))))
      else some (s.goto c (.sched (.unlocking q)))
    | _ => none
  | .clear c =>
    match s.exec c with
    | .sched (.back q) => some ((s.setProc c none).goto c (.sched (.unlocking q)))
    | _ => none
  | .unlock c =>
    match s.exec c with
    | .sched (.unlocking q) => some ((s.setLock q none).goto c (.sched .scan))
    | _ => none
  | .interrupt c q =>
    match s.exec c, s.lock q with
    | .sched .scan, none => some ((s.setLock q (some c)).goto c (.sched (.waking q)))
    | _, _ => none
  | .wake c ch =>
    match s.exec c with
    | .sched (.waking q) =>
      if s.state q = .sleeping ∧ s.chan q = some ch then
        some ((s.setState q .runnable).goto c (.sched (.unlocking q)))
      else some (s.goto c (.sched (.unlocking q)))
    | _ => none
  | .lockOwn c op =>
    match s.exec c with
    | .proc p .free =>
      if s.lock p = none ∧ s.mayLeave initproc p op then
        match op with
        | .exit =>
          -- abandoned children go to init
          some (({ s with
            parent := fun q =>
              if s.parent q = some p then some initproc else s.parent q }.setLock
              p (some c)).goto c (.proc p (.own .exit)))
        | op => some ((s.setLock p (some c)).goto c (.proc p (.own op)))
      else none
    | _ => none
  | .setState c =>
    match s.exec c with
    | .proc p (.own op) => some ((s.ownOp p op).goto c (.proc p .leaving))
    | _ => none
  | .swtch c =>
    match s.exec c with
    | .proc p .leaving => some (s.goto c (.sched (.back p)))
    | _ => none
  | .resume c =>
    match s.exec c with
    | .proc p (.resumed .inSleep) =>
      some (({ s with chan := update s.chan p none }.setLock p none).goto c
        (.proc p .free))
    | .proc p (.resumed _) => some ((s.setLock p none).goto c (.proc p .free))
    | _ => none
  | .lockOther c q op =>
    match s.exec c, s.lock q with
    | .proc p .free, none =>
      if s.mayLock p q op then
        match op with
        | .start =>
          some (({ s with parent := update s.parent q (some p) }.setLock q (some c)).goto
            c (.proc p (.other q op)))
        | op => some ((s.setLock q (some c)).goto c (.proc p (.other q op)))
      else none
    | _, _ => none
  | .act c ok =>
    match s.exec c with
    | .proc p (.other q op) => some (s.otherOp c p q ok op)
    | _ => none
  | .unlockOther c =>
    match s.exec c with
    | .proc p (.done q) => some ((s.setLock q none).goto c (.proc p .free))
    | _ => none

/-- What each step does, with the conditions under which it is possible. -/
inductive Step (s : Procs P C Ch) : ProcAction P C Ch → Procs P C Ch → Prop
  | acquire (c : C) (q : P) (hexec : s.exec c = .sched .scan) (hlock : s.lock q = none) :
      Step s (.acquire c q) ((s.setLock q (some c)).goto c (.sched (.locked q)))
  | dispatch (c : C) (q : P) (hexec : s.exec c = .sched (.locked q)) (hst : s.state q = .runnable) :
      Step s (.dispatch c) (((s.setState q .running).setProc c (some q)).goto c
        (.proc q (.resumed (s.context q))))
  | skip (c : C) (q : P) (hexec : s.exec c = .sched (.locked q)) :
      Step s (.dispatch c) (s.goto c (.sched (.unlocking q)))
  | clear (c : C) (q : P) (hexec : s.exec c = .sched (.back q)) :
      Step s (.clear c) ((s.setProc c none).goto c (.sched (.unlocking q)))
  | unlock (c : C) (q : P) (hexec : s.exec c = .sched (.unlocking q)) :
      Step s (.unlock c) ((s.setLock q none).goto c (.sched .scan))
  | interrupt (c : C) (q : P) (hexec : s.exec c = .sched .scan) (hlock : s.lock q = none) :
      Step s (.interrupt c q) ((s.setLock q (some c)).goto c (.sched (.waking q)))
  | wake (c : C) (q : P) (ch : Ch) (hexec : s.exec c = .sched (.waking q))
      (hst : s.state q = .sleeping) :
      Step s (.wake c ch) ((s.setState q .runnable).goto c (.sched (.unlocking q)))
  | pass (c : C) (q : P) (ch : Ch) (hexec : s.exec c = .sched (.waking q)) :
      Step s (.wake c ch) (s.goto c (.sched (.unlocking q)))
  | lockOwn (c : C) (p : P) (op : OwnOp Ch) (parent : P → Option P) (hexec : s.exec c = .proc p .free)
      (hlock : s.lock p = none) :
      Step s (.lockOwn c op) (({ s with parent := parent }.setLock p (some c)).goto c
        (.proc p (.own op)))
  | setState (c : C) (p : P) (op : OwnOp Ch) (hexec : s.exec c = .proc p (.own op)) :
      Step s (.setState c) ((s.ownOp p op).goto c (.proc p .leaving))
  | swtch (c : C) (p : P) (hexec : s.exec c = .proc p .leaving) :
      Step s (.swtch c) (s.goto c (.sched (.back p)))
  | resume (c : C) (p : P) (r : Resume) (chan : P → Option Ch)
      (hexec : s.exec c = .proc p (.resumed r)) :
      Step s (.resume c) (({ s with chan := chan }.setLock p none).goto c (.proc p .free))
  | lockOther (c : C) (p q : P) (op : OtherOp Ch) (parent : P → Option P)
      (hexec : s.exec c = .proc p .free) (hlock : s.lock q = none) (hmay : s.mayLock p q op = true) :
      Step s (.lockOther c q op) (({ s with parent := parent }.setLock q (some c)).goto c
        (.proc p (.other q op)))
  | act (c : C) (p q : P) (op : OtherOp Ch) (ok : Bool) (hexec : s.exec c = .proc p (.other q op)) :
      Step s (.act c ok) (s.otherOp c p q ok op)
  | unlockOther (c : C) (p q : P) (hexec : s.exec c = .proc p (.done q)) :
      Step s (.unlockOther c) ((s.setLock q none).goto c (.proc p .free))

theorem step_inv {initproc : P} {s t : Procs P C Ch} {a : ProcAction P C Ch}
    (h : step initproc s a = some t) : Step s a t := by
  -- each branch of `step` that gives a state is one rule
  cases a <;> simp only [step] at h <;> repeat' split at h
  all_goals cases h
  all_goals first
    | exact .lockOwn _ _ _ s.parent ‹_› ‹_ ∧ _›.1
    | exact .resume _ _ _ s.chan ‹_›
    | exact .lockOther _ _ _ _ s.parent ‹_› ‹_› ‹_›
    | exact .wake _ _ _ ‹_› ‹_ ∧ _›.1
    | constructor <;> first | assumption | exact ‹_ ∧ _›.1

end

end Procs

end Xv6
