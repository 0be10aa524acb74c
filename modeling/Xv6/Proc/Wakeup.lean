import Xv6.Proc.Sched

/-! # Sleep and wakeup

`sleep` and `wakeup` of `kernel/proc.c`, used as everywhere in the kernel: a condition `C` is read and
changed under a spinlock `lk`, a process that finds it false calls `sleep(chan, lk)`, and whoever
makes it true calls `wakeup(chan)` before it releases `lk`. Every acquisition and release of `lk` and
of a `p->lock` is a step, and so is every write of `p->chan` and `p->state` in `sleep` and `wakeup`.
A `p->lock` that a process takes on the way to `sched` is released by the scheduler.

Interrupt handlers change the condition and call `wakeup` too: one that interrupts a process runs as
that process, one that interrupts `scheduler` on a CPU has no process. Meanwhile processes yield, sleep
on other channels, and are killed. -/

namespace Xv6

open Function (update update_eq_self)

/-- Who executes: a process, or an interrupt handler on a CPU that was in `scheduler`. -/
inductive Thread (n : ℕ) (C : Type*)
  | proc (p : Fin n)
  | intr (c : C)
  deriving DecidableEq

/-- `myproc()`. -/
def Thread.myproc {n : ℕ} {C : Type*} : Thread n C → Option (Fin n)
  | .proc p => some p
  | .intr _ => none

/-- Who holds a `p->lock`. -/
inductive Holder (n : ℕ) (C : Type*)
  | thread (t : Thread n C)
  /-- `scheduler`, before it looks at the process. -/
  | pick
  /-- `scheduler`, about to release it. -/
  | back
  deriving DecidableEq

/-- Where a process goes on after a yield or an interrupt. -/
inductive Ret
  | idle
  /-- At the end of `sleep`, before `acquire(lk)`. -/
  | reacquire
  deriving DecidableEq

/-- Why a process called `sched`. -/
inductive Switch
  /-- `sleep(chan, lk)`. -/
  | sleep
  /-- `sleep` on another channel. -/
  | elsewhere
  | yield (r : Ret)
  deriving DecidableEq

/-- Where a thread is. -/
inductive WaitPc (n : ℕ) (Ch : Type*)
  /-- It uses neither `lk` nor a `p->lock`. -/
  | idle
  /-- It has `lk`; `owes` tells that it made the condition true and has not called `wakeup` yet. -/
  | crit (owes : Bool) (r : Ret)
  /-- In `wakeup(chan)`, before the round for `proc[i]`. -/
  | scan (i : ℕ) (r : Ret)
  /-- It has acquired `proc[i].lock`. -/
  | look (i : Fin n) (r : Ret)
  /-- About to release `proc[i].lock`. -/
  | looked (i : Fin n) (r : Ret)
  /-- It has found the condition false and called `sleep`. -/
  | sleepLock
  | sleepRelease
  | sleepChan
  | sleepState
  /-- It has its own lock on the way to `sched`, in a yield or a sleep on another channel. -/
  | own (w : Switch) (ch : Option Ch)
  /-- It has changed its state and is about to call `swtch`. -/
  | sched (w : Switch)
  /-- It is switched away. -/
  | off (w : Switch)
  /-- `swtch` has returned. -/
  | on (w : Switch)
  /-- `p->chan = 0` is done, about to release `p->lock`. -/
  | tidied
  | reacquire
  /-- In `kill`, with the lock of `q`; `hit` tells whether the pid is the one looked for. -/
  | killing (q : Fin n) (hit : Bool)
  | killed (q : Fin n)
  deriving DecidableEq

/-- Not on the way to or from `sched`. -/
def WaitPc.plain {n : ℕ} {Ch : Type*} : WaitPc n Ch → Bool
  | .idle | .crit .. | .scan .. | .look .. | .looked .. | .reacquire | .killing .. | .killed _ => true
  | _ => false

def Ret.pc {n : ℕ} {Ch : Type*} : Ret → WaitPc n Ch
  | .idle => .idle
  | .reacquire => .reacquire

/-- The processes, the spinlock and its condition. -/
structure WaitSys (n : ℕ) (C Ch : Type*) where
  state : Fin n → ProcState
  chan : Fin n → Option Ch
  lock : Fin n → Option (Holder n C)
  lk : Option (Thread n C)
  cond : Bool
  pc : Thread n C → WaitPc n Ch

inductive WaitAction (n : ℕ) (C Ch : Type*)
  /-- `acquire(lk)`. -/
  | acquire (t : Thread n C)
  /-- An interrupt handler that interrupts the end of `sleep` acquires `lk`. -/
  | interrupt (p : Fin n)
  | setCond (t : Thread n C) (b : Bool)
  /-- `release(lk)`. -/
  | release (t : Thread n C)
  | wakeup (t : Thread n C)
  /-- The head of the loop of `wakeup`, with `acquire(&p->lock)`. -/
  | scanNext (t : Thread n C)
  | scanAct (t : Thread n C)
  | scanUnlock (t : Thread n C)
  /-- The process finds the condition false and calls `sleep(chan, lk)`. -/
  | wait (p : Fin n)
  | sleepLock (p : Fin n)
  | sleepRelease (p : Fin n)
  | sleepChan (p : Fin n)
  | sleepState (p : Fin n)
  | yield (p : Fin n)
  | sleepElsewhere (p : Fin n) (ch : Ch)
  | ownState (p : Fin n)
  | swtch (p : Fin n)
  /-- `scheduler` releases the lock of `p`. -/
  | schedRelease (p : Fin n)
  /-- `scheduler` acquires the lock of `p`. -/
  | pick (p : Fin n)
  | run (p : Fin n)
  | resume (p : Fin n)
  | tidy (p : Fin n)
  | kill (p q : Fin n) (hit : Bool)
  | killAct (p : Fin n)
  | killUnlock (p : Fin n)

namespace WaitSys

variable {n : ℕ} {C Ch : Type*}

/-- Every process is about to be scheduled for the first time. -/
def boot (n : ℕ) (C Ch : Type*) (cond : Bool) : WaitSys n C Ch where
  state := fun _ => .runnable
  chan := fun _ => none
  lock := fun _ => none
  lk := none
  cond := cond
  pc
    | .proc _ => .off (.yield .idle)
    | .intr _ => .idle

variable [DecidableEq C] [DecidableEq Ch]

/-- One step, `none` if it is not possible; `ch` is the channel that goes with the condition. -/
def step (ch : Ch) (σ : WaitSys n C Ch) : WaitAction n C Ch → Option (WaitSys n C Ch)
  | .acquire t =>
    if (σ.pc t = .idle ∨ σ.pc t = .reacquire) ∧ σ.lk = none then
      some { σ with lk := some t, pc := update σ.pc t (.crit false .idle) }
    else none
  | .interrupt p =>
    if σ.pc (.proc p) = .reacquire ∧ σ.lk = none then
      some { σ with
        lk := some (.proc p)
        pc := update σ.pc (.proc p) (.crit false .reacquire) }
    else none
  | .setCond t b =>
    match σ.pc t with
    | .crit owes r =>
      some { σ with
        cond := b
        pc := update σ.pc t (.crit (owes || (b && !σ.cond)) r) }
    | _ => none
  | .release t =>
    match σ.pc t with
    | .crit false r => some { σ with lk := none, pc := update σ.pc t r.pc }
    | _ => none
  | .wakeup t =>
    match σ.pc t with
    | .crit _ r => some { σ with pc := update σ.pc t (.scan 0 r) }
    | _ => none
  | .scanNext t =>
    match σ.pc t with
    | .scan i r =>
      if hi : i < n then
        if t.myproc = some ⟨i, hi⟩ then
          some { σ with pc := update σ.pc t (.scan (i + 1) r) }
        else if σ.lock ⟨i, hi⟩ = none then
          some { σ with
            lock := update σ.lock ⟨i, hi⟩ (some (.thread t))
            pc := update σ.pc t (.look ⟨i, hi⟩ r) }
        else none
      else some { σ with pc := update σ.pc t (.crit false r) }
    | _ => none
  | .scanAct t =>
    match σ.pc t with
    | .look i r =>
      some { σ with
        state := if σ.state i = .sleeping ∧ σ.chan i = some ch then
          update σ.state i .runnable else σ.state
        pc := update σ.pc t (.looked i r) }
    | _ => none
  | .scanUnlock t =>
    match σ.pc t with
    | .looked i r =>
      some { σ with
        lock := update σ.lock i none
        pc := update σ.pc t (.scan (i + 1) r) }
    | _ => none
  | .wait p =>
    if σ.pc (.proc p) = .crit false .idle ∧ σ.cond = false then
      some { σ with pc := update σ.pc (.proc p) .sleepLock }
    else none
  | .sleepLock p =>
    if σ.pc (.proc p) = .sleepLock ∧ σ.lock p = none then
      some { σ with
        lock := update σ.lock p (some (.thread (.proc p)))
        pc := update σ.pc (.proc p) .sleepRelease }
    else none
  | .sleepRelease p =>
    if σ.pc (.proc p) = .sleepRelease then
      some { σ with lk := none, pc := update σ.pc (.proc p) .sleepChan }
    else none
  | .sleepChan p =>
    if σ.pc (.proc p) = .sleepChan then
      some { σ with
        chan := update σ.chan p (some ch)
        pc := update σ.pc (.proc p) .sleepState }
    else none
  | .sleepState p =>
    if σ.pc (.proc p) = .sleepState then
      some { σ with
        state := update σ.state p .sleeping
        pc := update σ.pc (.proc p) (.sched .sleep) }
    else none
  | .yield p =>
    if σ.lock p = none then
      match σ.pc (.proc p) with
      | .idle =>
        some { σ with
          lock := update σ.lock p (some (.thread (.proc p)))
          pc := update σ.pc (.proc p) (.own (.yield .idle) none) }
      | .reacquire =>
        some { σ with
          lock := update σ.lock p (some (.thread (.proc p)))
          pc := update σ.pc (.proc p) (.own (.yield .reacquire) none) }
      | _ => none
    else none
  | .sleepElsewhere p ch' =>
    if σ.pc (.proc p) = .idle ∧ σ.lock p = none ∧ ch' ≠ ch then
      some { σ with
        lock := update σ.lock p (some (.thread (.proc p)))
        pc := update σ.pc (.proc p) (.own .elsewhere (some ch')) }
    else none
  | .ownState p =>
    match σ.pc (.proc p) with
    | .own w (some ch') =>
      some { σ with
        chan := update σ.chan p (some ch')
        state := update σ.state p .sleeping
        pc := update σ.pc (.proc p) (.sched w) }
    | .own w none =>
      some { σ with
        state := update σ.state p .runnable
        pc := update σ.pc (.proc p) (.sched w) }
    | _ => none
  | .swtch p =>
    match σ.pc (.proc p) with
    | .sched w =>
      some { σ with
        lock := update σ.lock p (some .back)
        pc := update σ.pc (.proc p) (.off w) }
    | _ => none
  | .schedRelease p =>
    if σ.lock p = some .back then some { σ with lock := update σ.lock p none } else none
  | .pick p =>
    if σ.lock p = none then some { σ with lock := update σ.lock p (some .pick) } else none
  | .run p =>
    if σ.lock p = some .pick then
      match σ.state p, σ.pc (.proc p) with
      | .runnable, .off w =>
        some { σ with
          state := update σ.state p .running
          lock := update σ.lock p (some (.thread (.proc p)))
          pc := update σ.pc (.proc p) (.on w) }
      | _, _ => some { σ with lock := update σ.lock p (some .back) }
    else none
  | .resume p =>
    match σ.pc (.proc p) with
    | .on .sleep =>
      some { σ with
        chan := update σ.chan p none
        pc := update σ.pc (.proc p) .tidied }
    | .on .elsewhere =>
      some { σ with
        chan := update σ.chan p none
        lock := update σ.lock p none
        pc := update σ.pc (.proc p) .idle }
    | .on (.yield r) =>
      some { σ with
        lock := update σ.lock p none
        pc := update σ.pc (.proc p) r.pc }
    | _ => none
  | .tidy p =>
    if σ.pc (.proc p) = .tidied then
      some { σ with
        lock := update σ.lock p none
        pc := update σ.pc (.proc p) .reacquire }
    else none
  | .kill p q hit =>
    if σ.pc (.proc p) = .idle ∧ σ.lock q = none then
      some { σ with
        lock := update σ.lock q (some (.thread (.proc p)))
        pc := update σ.pc (.proc p) (.killing q hit) }
    else none
  | .killAct p =>
    match σ.pc (.proc p) with
    | .killing q hit =>
      some { σ with
        state := if hit = true ∧ σ.state q = .sleeping then
          update σ.state q .runnable else σ.state
        pc := update σ.pc (.proc p) (.killed q) }
    | _ => none
  | .killUnlock p =>
    match σ.pc (.proc p) with
    | .killed q =>
      some { σ with
        lock := update σ.lock q none
        pc := update σ.pc (.proc p) .idle }
    | _ => none

/-- What each step does, with the conditions under which it is possible. -/
inductive Step (ch : Ch) (σ : WaitSys n C Ch) : WaitSys n C Ch → Prop
  | acquire (t : Thread n C) (r : Ret) (hpc : (σ.pc t).plain = true) (hlk : σ.lk = none) :
      Step ch σ { σ with lk := some t, pc := update σ.pc t (.crit false r) }
  | setCond (t : Thread n C) (b owes : Bool) (r : Ret) (hpc : σ.pc t = .crit owes r) :
      Step ch σ { σ with
        cond := b
        pc := update σ.pc t (.crit (owes || (b && !σ.cond)) r) }
  | release (t : Thread n C) (r : Ret) (hpc : σ.pc t = .crit false r) :
      Step ch σ { σ with lk := none, pc := update σ.pc t r.pc }
  | wakeup (t : Thread n C) (owes : Bool) (r : Ret) (hpc : σ.pc t = .crit owes r) :
      Step ch σ { σ with pc := update σ.pc t (.scan 0 r) }
  | scanSelf (t : Thread n C) (i : Fin n) (r : Ret) (hpc : σ.pc t = .scan i r)
      (hme : t.myproc = some i) :
      Step ch σ { σ with pc := update σ.pc t (.scan (i + 1) r) }
  | scanLock (t : Thread n C) (i : Fin n) (r : Ret) (hpc : σ.pc t = .scan i r)
      (hlock : σ.lock i = none) :
      Step ch σ { σ with
        lock := update σ.lock i (some (.thread t))
        pc := update σ.pc t (.look i r) }
  | scanEnd (t : Thread n C) (i : ℕ) (r : Ret) (hpc : σ.pc t = .scan i r) (hi : n ≤ i) :
      Step ch σ { σ with pc := update σ.pc t (.crit false r) }
  | scanAct (t : Thread n C) (i : Fin n) (r : Ret) (hpc : σ.pc t = .look i r) :
      Step ch σ { σ with
        state := if σ.state i = .sleeping ∧ σ.chan i = some ch then
          update σ.state i .runnable else σ.state
        pc := update σ.pc t (.looked i r) }
  | scanUnlock (t : Thread n C) (i : Fin n) (r : Ret) (hpc : σ.pc t = .looked i r) :
      Step ch σ { σ with
        lock := update σ.lock i none
        pc := update σ.pc t (.scan (i + 1) r) }
  | wait (p : Fin n) (hpc : σ.pc (.proc p) = .crit false .idle) (hcond : σ.cond = false) :
      Step ch σ { σ with pc := update σ.pc (.proc p) .sleepLock }
  | sleepLock (p : Fin n) (hpc : σ.pc (.proc p) = .sleepLock) (hlock : σ.lock p = none) :
      Step ch σ { σ with
        lock := update σ.lock p (some (.thread (.proc p)))
        pc := update σ.pc (.proc p) .sleepRelease }
  | sleepRelease (p : Fin n) (hpc : σ.pc (.proc p) = .sleepRelease) :
      Step ch σ { σ with lk := none, pc := update σ.pc (.proc p) .sleepChan }
  | sleepChan (p : Fin n) (hpc : σ.pc (.proc p) = .sleepChan) :
      Step ch σ { σ with
        chan := update σ.chan p (some ch)
        pc := update σ.pc (.proc p) .sleepState }
  | sleepState (p : Fin n) (hpc : σ.pc (.proc p) = .sleepState) :
      Step ch σ { σ with
        state := update σ.state p .sleeping
        pc := update σ.pc (.proc p) (.sched .sleep) }
  | lockOwn (p : Fin n) (w : Switch) (ch' : Option Ch) (r : Ret) (hpc : σ.pc (.proc p) = r.pc)
      (hlock : σ.lock p = none) (hw : w ≠ .sleep) (hch : ch' ≠ some ch) :
      Step ch σ { σ with
        lock := update σ.lock p (some (.thread (.proc p)))
        pc := update σ.pc (.proc p) (.own w ch') }
  | ownState (p : Fin n) (w : Switch) (ch' : Option Ch) (st : ProcState)
      (hpc : σ.pc (.proc p) = .own w ch') :
      Step ch σ { σ with
        chan := update σ.chan p (ch'.or (σ.chan p))
        state := update σ.state p st
        pc := update σ.pc (.proc p) (.sched w) }
  | swtch (p : Fin n) (w : Switch) (hpc : σ.pc (.proc p) = .sched w) :
      Step ch σ { σ with
        lock := update σ.lock p (some .back)
        pc := update σ.pc (.proc p) (.off w) }
  | sched (p : Fin n) (l : Option (Holder n C)) (hlock : ∀ t, σ.lock p ≠ some (.thread t)) :
      Step ch σ { σ with lock := update σ.lock p l }
  | run (p : Fin n) (w : Switch) (hpc : σ.pc (.proc p) = .off w) (hlock : σ.lock p = some .pick) :
      Step ch σ { σ with
        state := update σ.state p .running
        lock := update σ.lock p (some (.thread (.proc p)))
        pc := update σ.pc (.proc p) (.on w) }
  | tidySleep (p : Fin n) (hpc : σ.pc (.proc p) = .on .sleep) :
      Step ch σ { σ with
        chan := update σ.chan p none
        pc := update σ.pc (.proc p) .tidied }
  | unlockOwn (p : Fin n) (chn : Option Ch) (r : Ret)
      (hpc : σ.pc (.proc p) = .tidied ∨ ∃ w ≠ Switch.sleep, σ.pc (.proc p) = .on w)
      (hchn : chn = none ∨ chn = σ.chan p) :
      Step ch σ { σ with
        chan := update σ.chan p chn
        lock := update σ.lock p none
        pc := update σ.pc (.proc p) r.pc }
  | kill (p q : Fin n) (hit : Bool) (hpc : σ.pc (.proc p) = .idle) (hlock : σ.lock q = none) :
      Step ch σ { σ with
        lock := update σ.lock q (some (.thread (.proc p)))
        pc := update σ.pc (.proc p) (.killing q hit) }
  | killAct (p q : Fin n) (hit : Bool) (hpc : σ.pc (.proc p) = .killing q hit) :
      Step ch σ { σ with
        state := if hit = true ∧ σ.state q = .sleeping then
          update σ.state q .runnable else σ.state
        pc := update σ.pc (.proc p) (.killed q) }
  | killUnlock (p q : Fin n) (hpc : σ.pc (.proc p) = .killed q) :
      Step ch σ { σ with
        lock := update σ.lock q none
        pc := update σ.pc (.proc p) .idle }

theorem step_inv {ch : Ch} {σ τ : WaitSys n C Ch} {a : WaitAction n C Ch}
    (h : step ch σ a = some τ) : Step ch σ τ := by
  cases a with
  | acquire t =>
    obtain ⟨⟨hpc, hlk⟩, rfl⟩ := of_guard h
    refine .acquire t .idle ?_ hlk
    rcases hpc with hpc | hpc <;> rw [hpc] <;> rfl
  | interrupt p =>
    obtain ⟨⟨hpc, hlk⟩, rfl⟩ := of_guard h
    exact .acquire (.proc p) .reacquire (hpc ▸ rfl) hlk
  | setCond | release | wakeup | scanAct | scanUnlock | swtch | killAct | killUnlock =>
    simp only [step] at h
    split at h <;> cases h
    constructor
    assumption
  | wait | sleepLock | kill =>
    obtain ⟨⟨hpc, hfree⟩, rfl⟩ := of_guard h
    constructor <;> assumption
  | sleepRelease | sleepChan | sleepState =>
    obtain ⟨hpc, rfl⟩ := of_guard h
    constructor
    exact hpc
  | schedRelease p | pick p =>
    obtain ⟨hlock, rfl⟩ := of_guard h
    refine .sched p _ ?_
    rw [hlock]
    nofun
  | scanNext t =>
    simp only [step] at h
    split at h
    · rename_i i r hpc
      split at h
      · rename_i hi
        split at h
        · cases h
          exact .scanSelf t ⟨i, hi⟩ r hpc ‹_›
        · obtain ⟨hlock, rfl⟩ := of_guard h
          exact .scanLock t ⟨i, hi⟩ r hpc hlock
      · cases h
        exact .scanEnd t i r hpc (by omega)
    · cases h
  | yield p =>
    obtain ⟨hlock, hτ⟩ := Option.ite_none_right_eq_some.mp h
    split at hτ
    · rename_i hpc
      cases hτ
      exact .lockOwn p _ none .idle hpc hlock nofun nofun
    · rename_i hpc
      cases hτ
      exact .lockOwn p _ none .reacquire hpc hlock nofun nofun
    · cases hτ
  | sleepElsewhere p ch' =>
    obtain ⟨⟨hpc, hlock, hch⟩, rfl⟩ := of_guard h
    exact .lockOwn p _ _ .idle hpc hlock nofun fun hc => hch (Option.some.inj hc)
  | ownState p =>
    simp only [step] at h
    split at h
    · rename_i w ch' hpc
      cases h
      exact .ownState p w (some ch') .sleeping hpc
    · rename_i w hpc
      cases h
      have hstep : Step ch σ _ := .ownState p w none .runnable hpc
      rwa [Option.none_or, update_eq_self] at hstep
    · cases h
  | run p =>
    obtain ⟨hlock, hτ⟩ := Option.ite_none_right_eq_some.mp h
    split at hτ
    · cases hτ
      exact .run p _ ‹_› hlock
    · cases hτ
      refine .sched p _ ?_
      rw [hlock]
      nofun
  | resume p =>
    simp only [step] at h
    split at h
    · cases h
      exact .tidySleep p ‹_›
    · cases h
      exact .unlockOwn p none .idle (.inr ⟨.elsewhere, nofun, ‹_›⟩) (.inl rfl)
    · rename_i r hpc
      cases h
      have hstep : Step ch σ _ :=
        .unlockOwn p (σ.chan p) r (.inr ⟨.yield r, nofun, hpc⟩) (.inr rfl)
      rwa [update_eq_self] at hstep
    · cases h
  | tidy p =>
    obtain ⟨hpc, rfl⟩ := of_guard h
    have hstep : Step ch σ _ := .unlockOwn p (σ.chan p) .reacquire (.inl hpc) (.inr rfl)
    rwa [update_eq_self] at hstep

end WaitSys

end Xv6
