import Xv6.Proc.Sched

/-! # Killing a process that waits

A process `p` in one of the loops that `kill` is to end: those of `wait`, `piperead`, `pipewrite`,
`consoleread` and `sys_sleep`. Each holds a spinlock `lk` (`wait_lock`, `pi->lock`, `cons.lock`,
`tickslock`), looks at what it waits for, calls `killed(p)` and then `sleep(chan, lk)`. Whoever else
takes `lk` decides what the process finds, so that is a parameter of the step; `lk` is held from there
to `sleep`. Every acquisition and release of `p->lock` is a step, by the process itself, by `kill`, by
`wakeup` and by `scheduler`. -/

namespace Xv6

inductive Loop
  | wait | piperead | pipewrite | consoleread | sysSleep
  deriving DecidableEq

/-- What the process finds at the head of the loop. -/
inductive Found
  /-- Nothing to wait for: a child that has exited, data or no writer, no reader, enough ticks. -/
  | leave
  /-- `pipewrite`: room for a byte; `consoleread`: a character. -/
  | ready
  | wait
  deriving DecidableEq

/-- Who holds `p->lock`. -/
inductive LockedBy
  | self | kill | wakeup | scheduler
  deriving DecidableEq

/-- Where the process is. -/
inductive LoopPc
  /-- About to acquire `lk`, on entry or at the end of `sleep`. -/
  | acquire
  | head
  /-- About to call `killed(p)`; `block` tells whether it then has to sleep. -/
  | test (block : Bool)
  /-- `pipewrite` and `consoleread`: about to copy a byte. -/
  | copy
  /-- `pipewrite`: about to call `wakeup(&pi->nread)`. -/
  | wakeReaders
  | sleepLock
  | sleepRelease
  | sleepChan
  | sleepState
  /-- In `yield`, with `p->lock`. -/
  | yieldState
  /-- About to call `swtch`, in `sleep` or in `yield`. -/
  | sched (asleep : Bool)
  | off (asleep : Bool)
  | on (asleep : Bool)
  /-- About to release `p->lock`. -/
  | unlock
  /-- It has left the loop; `byKill`: with -1, as `killed` told it. -/
  | left (byKill : Bool)
  deriving DecidableEq

/-- The process has its own lock. -/
def LoopPc.owns : LoopPc → Bool
  | .sleepRelease | .sleepChan | .sleepState | .yieldState | .sched _ | .on _ | .unlock => true
  | _ => false

/-- `killed` has returned 0 and `sleep` has not acquired `p->lock` yet. -/
def LoopPc.window : LoopPc → Bool
  | .wakeReaders | .sleepLock => true
  | _ => false

/-- On the way from `killed` to `swtch`. -/
def LoopPc.falling : LoopPc → Bool
  | .wakeReaders | .sleepLock | .sleepRelease | .sleepChan | .sleepState | .sched true => true
  | _ => false

/-- The process, with `chan` for "`p->chan` is the channel of the loop". -/
structure KillSys where
  state : ProcState
  killed : Bool
  chan : Bool
  lock : Option LockedBy
  pc : LoopPc
  deriving DecidableEq

inductive KillAction
  | acquire
  | look (f : Found)
  /-- `killed(p)`. -/
  | test
  /-- `copyin` or `either_copyout` of one byte, and whether the loop goes on. -/
  | copied (more : Bool)
  | wakeReaders
  | sleepLock
  | sleepRelease
  | sleepChan
  | sleepState
  /-- A timer interrupt, before `lk` is acquired. -/
  | yield
  | yieldState
  | swtch
  | resume
  | unlock
  /-- Somebody else acquires `p->lock`. -/
  | lock (w : LockedBy)
  /-- `kill` finds the pid. -/
  | kill
  /-- `wakeup` of the channel. -/
  | wakeup
  | run
  /-- Somebody else releases `p->lock`. -/
  | release

namespace KillSys

variable {ℓ : Loop} {k : Bool} {a : KillAction} {as : List KillAction} {σ τ υ : KillSys}

/-- The process enters the loop; it may have been killed before. -/
def enter (k : Bool) : KillSys := ⟨.running, k, false, none, .acquire⟩

/-- One step, `none` if it is not possible. -/
def step (ℓ : Loop) (σ : KillSys) : KillAction → Option KillSys
  | .acquire => if σ.pc = .acquire then some { σ with pc := .head } else none
  | .look f =>
    if σ.pc = .head then
      match f, ℓ with
      | .leave, _ => some { σ with pc := .left false }
      | .ready, .pipewrite => some { σ with pc := .test false }
      | .ready, .consoleread => some { σ with pc := .copy }
      | .ready, _ => none
      | .wait, _ => some { σ with pc := .test true }
    else none
  | .test =>
    match σ.pc, σ.lock with
    | .test block, none =>
      if σ.killed then some { σ with pc := .left true }
      else if block then
        some { σ with pc := if ℓ = .pipewrite then .wakeReaders else .sleepLock }
      else some { σ with pc := .copy }
    | .test _, some _ => none
    | _, _ => none
  | .copied more =>
    if σ.pc = .copy then some { σ with pc := if more then .head else .left false } else none
  -- the round of `wakeup` leaves out the process that calls it
  | .wakeReaders => if σ.pc = .wakeReaders then some { σ with pc := .sleepLock } else none
  | .sleepLock =>
    if σ.pc = .sleepLock ∧ σ.lock = none then
      some { σ with lock := some .self, pc := .sleepRelease }
    else none
  | .sleepRelease => if σ.pc = .sleepRelease then some { σ with pc := .sleepChan } else none
  | .sleepChan =>
    if σ.pc = .sleepChan then some { σ with chan := true, pc := .sleepState } else none
  | .sleepState =>
    if σ.pc = .sleepState then some { σ with state := .sleeping, pc := .sched true } else none
  | .yield =>
    if σ.pc = .acquire ∧ σ.lock = none then
      some { σ with lock := some .self, pc := .yieldState }
    else none
  | .yieldState =>
    if σ.pc = .yieldState then some { σ with state := .runnable, pc := .sched false } else none
  -- the lock goes with the CPU, to `scheduler` and back
  | .swtch =>
    match σ.pc with
    | .sched b => some { σ with lock := some .scheduler, pc := .off b }
    | _ => none
  | .run =>
    match σ.pc with
    | .off b =>
      if σ.lock = some .scheduler ∧ σ.state = .runnable then
        some { σ with state := .running, lock := some .self, pc := .on b }
      else none
    | _ => none
  | .resume =>
    match σ.pc with
    | .on b => some { σ with chan := σ.chan && !b, pc := .unlock }
    | _ => none
  | .unlock => if σ.pc = .unlock then some { σ with lock := none, pc := .acquire } else none
  | .lock w =>
    if σ.lock = none ∧ w ≠ .self then some { σ with lock := some w } else none
  | .kill =>
    if σ.lock = some .kill then
      some { σ with
        killed := true
        state := if σ.state = .sleeping then .runnable else σ.state }
    else none
  | .wakeup =>
    if σ.lock = some .wakeup then
      some { σ with state := if σ.state = .sleeping ∧ σ.chan then .runnable else σ.state }
    else none
  | .release =>
    if σ.lock ≠ none ∧ σ.lock ≠ some .self then some { σ with lock := none } else none

/-- Where the process has its own lock, nobody else does. -/
theorem step_owns (h : σ.pc.owns → σ.lock = some .self) (hs : step ℓ σ a = some τ) :
    τ.pc.owns → τ.lock = some .self := by
  cases a <;> simp only [step] at hs <;> repeat' split at hs
  all_goals cases hs <;> simp_all [LoopPc.owns]

theorem run_owns (hrun : runFrom (step ℓ) (enter k) as = some σ) :
    σ.pc.owns → σ.lock = some .self :=
  runFrom_invariant (I := fun σ => σ.pc.owns → σ.lock = some .self) (fun _ _ _ => step_owns)
    (by simp [enter, LoopPc.owns]) hrun

/-- Killed, awake and not about to sleep. -/
structure Doomed (σ : KillSys) : Prop where
  killed : σ.killed = true
  awake : σ.state ≠ .sleeping
  pc : σ.pc.falling = false

/-- Only a call of `killed` that returns 0 leads to `sleep`. -/
theorem Doomed.keep (h : σ.Doomed) (hs : step ℓ σ a = some τ) : τ.Doomed := by
  obtain ⟨hkilled, hawake, hpc⟩ := h
  cases a <;> simp only [step] at hs <;> repeat' split at hs
  all_goals cases hs <;> constructor <;> simp_all [LoopPc.falling]

/-- `kill` holds `p->lock`, so that the process is not on its way to `swtch` with it. -/
theorem doomed_of_kill (howns : σ.pc.owns → σ.lock = some .self) (hw : σ.pc.window = false)
    (hkill : step ℓ σ .kill = some τ) : τ.Doomed := by
  simp only [step] at hkill
  split at hkill
  case isFalse => cases hkill
  case isTrue hlock =>
    cases hkill
    refine ⟨rfl, ?_, ?_⟩
    · dsimp only
      split <;> simp_all
    · rw [hlock] at howns
      cases hpc : σ.pc <;> simp_all [LoopPc.owns, LoopPc.window, LoopPc.falling]

/-- In the window the process goes to sleep, killed. -/
theorem sleeps_of_window (hw : σ.pc.window) (hkill : step ℓ σ .kill = some τ) :
    ∃ bs υ, runFrom (step ℓ) τ bs = some υ ∧ υ.state = .sleeping := by
  simp only [step] at hkill
  split at hkill
  case isFalse => cases hkill
  case isTrue hlock =>
    cases hkill
    cases hpc : σ.pc <;> simp only [hpc, LoopPc.window, Bool.false_eq_true] at hw
    case wakeReaders =>
      refine ⟨[.release, .wakeReaders, .sleepLock, .sleepRelease, .sleepChan, .sleepState], ?_⟩
      simp [runFrom, step, hlock]
    case sleepLock =>
      refine ⟨[.release, .sleepLock, .sleepRelease, .sleepChan, .sleepState], ?_⟩
      simp [runFrom, step, hlock]

/-- **A killed process does not go to sleep**, and where it would it leaves the loop with -1, exactly
if `kill` does not find it between `killed` and `sleep`. -/
theorem killed_stays_awake_iff (hrun : runFrom (step ℓ) (enter k) as = some σ)
    (hkill : step ℓ σ .kill = some τ) :
    (∀ bs υ, runFrom (step ℓ) τ bs = some υ →
      υ.state ≠ .sleeping ∧ ∀ ω, step ℓ υ .test = some ω → ω.pc = .left true) ↔
      σ.pc.window = false := by
  constructor
  · intro h
    by_contra hw
    obtain ⟨bs, υ, hbs, hsleep⟩ := sleeps_of_window (by simpa using hw) hkill
    exact (h bs υ hbs).1 hsleep
  · intro hw bs υ hbs
    have hdoomed : υ.Doomed := runFrom_invariant (fun _ _ _ => Doomed.keep)
      (doomed_of_kill (run_owns hrun) hw hkill) hbs
    refine ⟨hdoomed.awake, fun ω hω => ?_⟩
    simp only [step, hdoomed.killed, if_true] at hω
    split at hω
    · cases hω
      rfl
    all_goals cases hω

/-- Killed asleep in `pipewrite`. -/
theorem killed_asleep_stays_awake : ∃ σ τ,
    runFrom (step .pipewrite) (enter false) [.acquire, .look .wait, .test, .wakeReaders, .sleepLock,
      .sleepRelease, .sleepChan, .sleepState, .swtch, .release, .lock .kill] = some σ ∧
    step .pipewrite σ .kill = some τ ∧ ∀ bs υ, runFrom (step .pipewrite) τ bs = some υ →
      υ.state ≠ .sleeping ∧ ∀ ω, step .pipewrite υ .test = some ω → ω.pc = .left true := by
  have hrun : runFrom (step .pipewrite) (enter false) [.acquire, .look .wait, .test, .wakeReaders,
      .sleepLock, .sleepRelease, .sleepChan, .sleepState, .swtch, .release, .lock .kill] =
      some ⟨.sleeping, false, true, some .kill, .off true⟩ := rfl
  exact ⟨_, _, hrun, rfl, (killed_stays_awake_iff hrun rfl).mpr rfl⟩

/-- In `pipewrite` a `kill` between `killed` and `sleep` is slept through. -/
theorem killed_sleeps : ∃ σ τ bs υ,
    runFrom (step .pipewrite) (enter false) [.acquire, .look .wait, .test, .lock .kill] = some σ ∧
    step .pipewrite σ .kill = some τ ∧ runFrom (step .pipewrite) τ bs = some υ ∧
      υ.state = .sleeping := by
  obtain ⟨bs, υ, hbs, hsleep⟩ := sleeps_of_window (ℓ := .pipewrite)
    (σ := ⟨.running, false, false, some .kill, .wakeReaders⟩) rfl rfl
  exact ⟨_, _, bs, υ, rfl, rfl, hbs, hsleep⟩

end KillSys

end Xv6
