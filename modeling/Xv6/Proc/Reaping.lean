import Xv6.Lib.Update
import Xv6.Proc.Family

/-! # Parents outlive their children, and zombies are reaped once

The invariants of `fork`, `exit` and `wait`. `Placed` ties the place of each process to the locks it
has and to its state; `Kin` is about parents and children, with what each process has established at
the place where it is (`Facts`); `Recorded` is about what `exit` and `wait` recorded. A process that is
not in `wait_lock` may not change a parent, make a zombie or free one, which is why `Facts` at a place
with `wait_lock` survive the steps of the others (`Facts.keep`). -/

namespace Xv6

open Function (forall_update_iff update update_eq_self update_of_ne update_self)

/-- The process exists and has not exited. -/
def ProcState.alive : ProcState → Bool
  | .sleeping | .runnable | .running => true
  | _ => false

namespace FamilyPc

variable {n : ℕ}

def hasWait : FamilyPc n → Bool
  | .forkParent _ | .forkUnwait _ | .reparent .. | .wakeInit .. | .wakeParent .. | .exitLock _
  | .exitState _ | .exitUnwait | .waitScan .. | .waitLook _ | .waitUnlock _ | .waitFound _
  | .waitUnwait | .waitEnd _ | .sleepLock | .sleepUnwait => true
  | _ => false

/-- The `p->lock` that process `me` has. -/
def holds (me : Fin n) : FamilyPc n → Option (Fin n)
  | .allocFound q | .forkFill q | .forkFail q | .forkRelease q | .forkStart q | .forkDone q => some q
  | .waitLook q | .waitUnlock q | .waitFound q => some q
  | .exitState _ | .exitUnwait | .exitSched | .sleepUnwait | .sleepState | .sleepSched | .woken => some me
  | _ => none

/-- The slot that is `USED` for the child of a `fork`. -/
def forks : FamilyPc n → Option (Fin n)
  | .forkFill q | .forkRelease q | .forkWait q | .forkParent q | .forkUnwait q | .forkLock q
  | .forkStart q => some q
  | _ => none

/-- Where a process is `RUNNING` while a CPU executes it. -/
@[grind] def busy : FamilyPc n → Bool
  | .gone | .exitUnwait | .exitSched | .sleepSched | .asleep => false
  | _ => true

/-- How the place of process `me` fits its state and its channel. -/
@[grind] def Fits (me : Fin n) (on : Bool) (st : ProcState) (chan : Option (FamilyChan n)) : FamilyPc n → Prop
  | .gone => on = false ∧ st ≠ .running ∧ st ≠ .sleeping
  | .user => on = true ∧ st = .running ∨
      on = false ∧ (st = .runnable ∨ st = .sleeping ∧ chan = some .other)
  | .exitUnwait | .exitSched => on = true ∧ st = .zombie
  | .sleepSched => on = true ∧ st = .sleeping ∧ chan = some (.proc me)
  | .asleep => on = false ∧ (st = .sleeping ∨ st = .runnable) ∧ chan = some (.proc me)
  | .allocScan _ | .forkWait _ | .forkLock _ | .exitWait _ | .waitWait =>
    on = true ∧ st = .running ∨ on = false ∧ st = .runnable
  | _ => on = true ∧ st = .running

/-- On the way to sleep in `wait`, or asleep there. -/
def pending (st : ProcState) : FamilyPc n → Prop
  | .sleepState | .sleepSched => True
  | .asleep => st = .sleeping
  | _ => False

variable {me : Fin n} {on : Bool} {st : ProcState} {chan : Option (FamilyChan n)} {c : FamilyPc n}

namespace Fits

theorem running (h : c.Fits me on st chan) (hon : on = true) (hc : c.busy = true) : st = .running := by
  subst hon
  cases c <;> simp_all [Fits, busy]

theorem of_busy (hc : c.busy = true) : c.Fits me true .running chan := by
  cases c <;> simp_all [Fits, busy]

theorem preempted (hc : c.preemptible = true) : c.Fits me false .runnable chan := by
  cases c <;> simp_all [Fits, preemptible]

theorem preemptible_of_runnable (h : c.Fits me on .runnable chan) (hg : c ≠ .gone) (ha : c ≠ .asleep) :
    c.preemptible = true := by
  cases c <;> simp_all [Fits, preemptible]

/-- A process that sleeps, and is not about to switch, may be made runnable. -/
theorem wake (h : c.Fits me on .sleeping chan) (hc : c ≠ .sleepSched) : c.Fits me on .runnable chan := by
  cases c <;> simp_all [Fits]

/-- Slots that are not in use, and children not yet started, have no thread. -/
theorem gone (h : c.Fits me on st chan) (hst : st.alive = false) (hz : st ≠ .zombie) : c = .gone := by
  cases c <;> simp_all [Fits] <;> grind [ProcState.alive]

end Fits

theorem busy_of_preemptible (hc : c.preemptible = true) : c.busy = true := by
  cases c <;> simp_all [preemptible, busy]

theorem of_preemptible (hc : c.preemptible = true) :
    c.hasWait = false ∧ c.holds me = none ∧ (∀ st, ¬c.pending st) ∧
      ∀ st i j, c ≠ .wakeInit st i j := by
  cases c <;> simp_all [preemptible, hasWait, holds, pending]

end FamilyPc

namespace FamilySys

variable {n : ℕ} {σ τ : FamilySys n} {p q t : Fin n} {c : FamilyPc n}

def Pending (σ : FamilySys n) (p : Fin n) : Prop := (σ.pc p).pending (σ.state p)

/-- What each process has, and where it is. -/
structure Placed (σ : FamilySys n) : Prop where
  wait : ∀ p, (σ.pc p).hasWait = true → σ.waitLock = some p
  locked : ∀ p q, (σ.pc p).holds p = some q → σ.lock q = some (.thread p)
  fits : ∀ p, (σ.pc p).Fits p (σ.on p) (σ.state p) (σ.chan p)

/-- What a process has established where it is. -/
def Facts (initproc : Fin n) (σ : FamilySys n) (p : Fin n) : FamilyPc n → Prop
  | .allocFound q => σ.state q = .unused
  | .forkFill q | .forkRelease q | .forkWait q | .forkParent q =>
    σ.state q = .used ∧ σ.parent q = none
  | .forkUnwait q | .forkLock q | .forkStart q => σ.state q = .used ∧ σ.parent q = some p
  | .exitWait _ => p ≠ initproc
  | .reparent _ i => p ≠ initproc ∧ ∀ q : Fin n, q < i → σ.parent q ≠ some p
  | .wakeInit _ i _ => p ≠ initproc ∧ ∀ q : Fin n, q < (i : ℕ) + 1 → σ.parent q ≠ some p
  | .wakeParent _ o j => p ≠ initproc ∧ (∀ q, σ.parent q ≠ some p) ∧ o = σ.parent p ∧
      ∀ r : Fin n, σ.parent p = some r → r < j → ¬σ.Pending r
  | .exitLock _ | .exitState _ => p ≠ initproc ∧ (∀ q, σ.parent q ≠ some p) ∧
      ∀ r, σ.parent p = some r → ¬σ.Pending r
  | .waitScan i _ => ∀ q : Fin n, q < i → σ.parent q = some p → σ.state q ≠ .zombie
  | .waitLook i => σ.parent i = some p ∧
      ∀ q : Fin n, q < (i : ℕ) → σ.parent q = some p → σ.state q ≠ .zombie
  | .waitUnlock i => ∀ q : Fin n, q < (i : ℕ) + 1 → σ.parent q = some p → σ.state q ≠ .zombie
  | .waitEnd _ | .sleepLock | .sleepUnwait => ∀ q, σ.parent q = some p → σ.state q ≠ .zombie
  | _ => True

/-- A step that leaves alone what a process at `c` relies on. -/
structure Keeps (σ τ : FamilySys n) (c : FamilyPc n) : Prop where
  unused : ∀ q, c = .allocFound q → σ.state q = .unused → τ.state q = .unused
  used : ∀ q, c.forks = some q → σ.state q = .used → τ.state q = .used ∧ τ.parent q = σ.parent q
  under : c.hasWait = true → (∀ q, τ.parent q = σ.parent q) ∧
    (∀ q, τ.state q = .zombie → σ.state q = .zombie) ∧ ∀ q, τ.Pending q → σ.Pending q

theorem Facts.keep {initproc : Fin n} (h : Facts initproc σ p c) (hk : Keeps σ τ c) :
    Facts initproc τ p c := by
  cases c with
  | allocFound q => exact hk.unused q rfl h
  | forkFill q | forkRelease q | forkWait q | forkParent q | forkUnwait q | forkLock q | forkStart q =>
    obtain ⟨hst, hpar⟩ := hk.used q rfl h.1
    exact ⟨hst, hpar.trans h.2⟩
  | exitWait st => exact h
  | reparent st i | wakeInit st i j =>
    obtain ⟨hpar, -, -⟩ := hk.under rfl
    refine ⟨h.1, fun q hq => ?_⟩
    rw [hpar]
    exact h.2 q hq
  | wakeParent st o j =>
    obtain ⟨hpar, -, hpend⟩ := hk.under rfl
    simp only [Facts, hpar]
    exact ⟨h.1, h.2.1, h.2.2.1, fun r hr hj hp => h.2.2.2 r hr hj (hpend r hp)⟩
  | exitLock st | exitState st =>
    obtain ⟨hpar, -, hpend⟩ := hk.under rfl
    simp only [Facts, hpar]
    exact ⟨h.1, h.2.1, fun r hr hp => h.2.2 r hr (hpend r hp)⟩
  | waitScan i k | waitUnlock i =>
    obtain ⟨hpar, hz, -⟩ := hk.under rfl
    intro q hq hp hzq
    rw [hpar] at hp
    exact h q hq hp (hz q hzq)
  | waitLook i =>
    obtain ⟨hpar, hz, -⟩ := hk.under rfl
    refine ⟨(hpar i).trans h.1, fun q hq hp hzq => ?_⟩
    rw [hpar] at hp
    exact h.2 q hq hp (hz q hzq)
  | waitEnd k | sleepLock | sleepUnwait =>
    obtain ⟨hpar, hz, -⟩ := hk.under rfl
    intro q hp hzq
    rw [hpar] at hp
    exact h q hp (hz q hzq)
  | _ => trivial

/-- The slot of a `fork` in progress is `USED`, without a parent or with the one who forks. -/
theorem Facts.forked {initproc : Fin n} (h : Facts initproc σ p c) (hq : c.forks = some q) :
    σ.state q = .used ∧ ∀ r, σ.parent q = some r → r = p := by
  cases c with
  | forkFill k | forkRelease k | forkWait k | forkParent k =>
    cases hq
    exact ⟨h.1, fun r hr => nomatch h.2.symm.trans hr⟩
  | forkUnwait k | forkLock k | forkStart k =>
    cases hq
    exact ⟨h.1, fun r hr => Option.some.inj (hr.symm.trans h.2)⟩
  | _ => cases hq

/-- Parents and children. -/
structure Kin (initproc : Fin n) (σ : FamilySys n) : Prop where
  alive : ∀ q r, σ.parent q = some r → (σ.state r).alive = true
  parented : ∀ q, q ≠ initproc → σ.state q ≠ .unused → σ.state q ≠ .used → σ.parent q ≠ none
  init : (σ.state initproc).alive = true
  fresh : ∀ q, σ.state q = .unused → σ.parent q = none
  forks : ∀ p p' q, (σ.pc p).forks = some q → (σ.pc p').forks = some q → p = p'
  facts : ∀ p, Facts initproc σ p (σ.pc p)
  /-- Who sleeps in `wait` has no zombie child, or is `initproc` and about to be woken. -/
  covered : ∀ p q, σ.Pending p → σ.parent q = some p → σ.state q = .zombie →
    p = initproc ∧ ∃ r st i j, σ.pc r = .wakeInit st i j ∧ j ≤ (p : ℕ)

/-- What `exit` and `wait` recorded. -/
structure Recorded (σ : FamilySys n) : Prop where
  zombie : ∀ q, σ.state q = .zombie → ⟨q, σ.gen q, σ.pid q, σ.xstate q⟩ ∈ σ.exited
  exited : ∀ w ∈ σ.waited, w.2 ∈ σ.exited
  past : ∀ w ∈ σ.waited, w.2.gen < σ.gen w.2.slot ∨
    w.2.gen = σ.gen w.2.slot ∧ σ.state w.2.slot = .unused
  once : (σ.waited.map fun w => (w.2.slot, w.2.gen)).Nodup

structure Inv (initproc : Fin n) (σ : FamilySys n) : Prop where
  placed : σ.Placed
  kin : σ.Kin initproc
  recorded : σ.Recorded

/-! ## What a step may do -/

theorem Placed.change (h : σ.Placed) (hpc : τ.pc = update σ.pc t c)
    (hwait : c.hasWait = true → τ.waitLock = some t)
    (hwaitOthers : ∀ u, u ≠ t → σ.waitLock = some u → τ.waitLock = some u)
    (hlock : ∀ q, c.holds t = some q → τ.lock q = some (.thread t))
    (hlockOthers : ∀ u q, u ≠ t → σ.lock q = some (.thread u) → τ.lock q = some (.thread u))
    (hself : c.Fits t (τ.on t) (τ.state t) (τ.chan t))
    (hothers : ∀ u, u ≠ t → (σ.pc u).Fits u (τ.on u) (τ.state u) (τ.chan u)) : τ.Placed := by
  constructor <;> rw [hpc]
  case wait =>
    exact (forall_update_iff σ.pc fun u c => c.hasWait = true → τ.waitLock = some u).mpr
      ⟨hwait, fun u hut hu => hwaitOthers u hut (h.wait u hu)⟩
  case locked =>
    exact (forall_update_iff σ.pc fun u c => ∀ q, c.holds u = some q → τ.lock q = some (.thread u)).mpr
      ⟨hlock, fun u hut q hu => hlockOthers u q hut (h.locked u q hu)⟩
  case fits =>
    exact (forall_update_iff σ.pc fun u c => c.Fits u (τ.on u) (τ.state u) (τ.chan u)).mpr ⟨hself, hothers⟩

/-- A process other than `t` does not have `wait_lock` when `t` has it. -/
theorem Placed.not_hasWait (h : σ.Placed) (ht : σ.waitLock = some t) (hpt : p ≠ t) :
    (σ.pc p).hasWait = false := by
  by_contra hc
  rw [Bool.not_eq_false] at hc
  exact hpt (Option.some.inj ((h.wait p hc).symm.trans ht))

/-- Two processes do not have the same lock. -/
theorem Placed.holds_inj (h : σ.Placed) {u : Fin n} (hp : (σ.pc p).holds p = some q)
    (hu : (σ.pc u).holds u = some q) : p = u :=
  FamilyHolder.thread.inj (Option.some.inj ((h.locked p q hp).symm.trans (h.locked u q hu)))

/-- A process whose lock nobody has is not about to switch. -/
theorem Placed.ne_sleepSched (h : σ.Placed) (hfree : σ.lock p = none) : σ.pc p ≠ .sleepSched := by
  intro hc
  have hp := h.locked p p (hc ▸ rfl)
  rw [hfree] at hp
  cases hp

/-- Who pends after a step of `t` pended before, if `t` has not begun to pend. -/
theorem Pending.of_update (hp : τ.Pending p) (hpc : τ.pc = update σ.pc t c)
    (hself : c.pending (τ.state t) → (σ.pc t).pending (σ.state t))
    (hothers : τ.state p = .sleeping → σ.state p = .sleeping) : σ.Pending p := by
  unfold Pending at hp ⊢
  rw [hpc] at hp
  rcases eq_or_ne p t with rfl | hpt
  · rw [update_self] at hp
    exact hself hp
  · rw [update_of_ne hpt] at hp
    revert hp
    cases σ.pc p with
    | asleep => exact hothers
    | _ => exact id

/-- A step that changes no parent, and a state only between those of live processes. -/
structure Mild (σ τ : FamilySys n) : Prop where
  parent : τ.parent = σ.parent
  state : ∀ q, τ.state q = σ.state q ∨ (σ.state q).alive = true ∧ (τ.state q).alive = true

namespace Mild

/-- A state in which a process is not alive stays. -/
theorem keeps {st : ProcState} (h : Mild σ τ) (hq : σ.state q = st) (hst : st.alive = false) :
    τ.state q = st := by
  rcases h.state q with hq' | ⟨hσ, -⟩
  · exact hq'.trans hq
  · rw [hq, hst] at hσ
    cases hσ

/-- A state in which a process is not alive was there before. -/
theorem kept {st : ProcState} (h : Mild σ τ) (hq : τ.state q = st) (hst : st.alive = false) :
    σ.state q = st := by
  rcases h.state q with hq' | ⟨-, hτ⟩
  · exact hq'.symm.trans hq
  · rw [hq, hst] at hτ
    cases hτ

theorem alive (h : Mild σ τ) (hq : (σ.state q).alive = true) : (τ.state q).alive = true := by
  rcases h.state q with hq' | ⟨-, hτ⟩
  · rwa [hq']
  · exact hτ

theorem of_eq (hpar : τ.parent = σ.parent) (hst : τ.state = σ.state) : Mild σ τ :=
  ⟨hpar, fun q => .inl (congrFun hst q)⟩

end Mild

/-- A step of `t` that leaves alone what the others rely on. -/
theorem Kin.change {initproc : Fin n} (h : σ.Kin initproc) (hpc : τ.pc = update σ.pc t c)
    (halive : ∀ q r, τ.parent q = some r → (τ.state r).alive = true)
    (hparented : ∀ q, q ≠ initproc → τ.state q ≠ .unused → τ.state q ≠ .used → τ.parent q ≠ none)
    (hinit : (τ.state initproc).alive = true) (hfresh : ∀ q, τ.state q = .unused → τ.parent q = none)
    (hforks : ∀ q, c.forks = some q → ∀ u, u ≠ t → (σ.pc u).forks ≠ some q)
    (hfacts : Facts initproc τ t c) (hkeep : ∀ u, u ≠ t → Keeps σ τ (σ.pc u))
    (hcov : ∀ p q, τ.Pending p → τ.parent q = some p → τ.state q = .zombie → p = initproc ∧
      ((∃ r st i j, r ≠ t ∧ σ.pc r = .wakeInit st i j ∧ j ≤ (p : ℕ)) ∨
        ∃ st i j, c = .wakeInit st i j ∧ j ≤ (p : ℕ))) : τ.Kin initproc := by
  refine ⟨halive, hparented, hinit, hfresh, fun u v q hu hv => ?_, ?_, fun p q hp hq hz => ?_⟩
  · rw [hpc] at hu hv
    by_cases hut : u = t <;> by_cases hvt : v = t
    · exact hut.trans hvt.symm
    · rw [hut, update_self] at hu
      rw [update_of_ne hvt] at hv
      exact absurd hv (hforks q hu v hvt)
    · rw [hvt, update_self] at hv
      rw [update_of_ne hut] at hu
      exact absurd hu (hforks q hv u hut)
    · rw [update_of_ne hut] at hu
      rw [update_of_ne hvt] at hv
      exact h.forks u v q hu hv
  · rw [hpc]
    exact (forall_update_iff _ (Facts initproc τ)).mpr
      ⟨hfacts, fun u hut => (h.facts u).keep (hkeep u hut)⟩
  · rw [hpc]
    obtain ⟨hinit', ⟨r, st, i, j, hrt, hr, hj⟩ | ⟨st, i, j, hc, hj⟩⟩ := hcov p q hp hq hz
    · exact ⟨hinit', r, st, i, j, (update_of_ne hrt ..).trans hr, hj⟩
    · exact ⟨hinit', t, st, i, j, (update_self ..).trans hc, hj⟩

/-- The steps of `t` that change nobody's family. -/
theorem Kin.mild {initproc : Fin n} (h : σ.Kin initproc) (hP : σ.Placed) (hm : Mild σ τ)
    (hpc : τ.pc = update σ.pc t c)
    (hforks : c.forks = none ∨ c.forks = (σ.pc t).forks) (hfacts : Facts initproc τ t c)
    (hpend : ∀ q, τ.Pending q → σ.Pending q ∨ q = t ∧ σ.waitLock = some t ∧
      ∀ r, σ.parent r = some t → σ.state r ≠ .zombie)
    (hwake : ∀ st i j, σ.pc t = .wakeInit st i j → j ≤ initproc.val → τ.Pending initproc →
      ∃ i' j', c = .wakeInit st i' j' ∧ j' ≤ initproc.val) : τ.Kin initproc := by
  apply h.change hpc
  case halive =>
    intro q r hq
    rw [hm.parent] at hq
    exact hm.alive (h.alive q r hq)
  case hparented =>
    intro q hq hun hus
    rw [hm.parent]
    exact h.parented q hq (fun hc => hun (hm.keeps hc rfl)) fun hc => hus (hm.keeps hc rfl)
  case hinit => exact hm.alive h.init
  case hfresh =>
    intro q hq
    rw [hm.parent]
    exact h.fresh q (hm.kept hq rfl)
  case hforks =>
    intro q hc u hut hu
    rcases hforks with hf | hf
    · exact nomatch hf.symm.trans hc
    · exact hut (h.forks u t q hu (hf.symm.trans hc))
  case hfacts => exact hfacts
  case hkeep =>
    intro u hut
    refine ⟨fun q _ hq => hm.keeps hq rfl, fun q _ hq => ⟨hm.keeps hq rfl, congrFun hm.parent q⟩, fun hu => ?_⟩
    refine ⟨congrFun hm.parent, fun q hq => hm.kept hq rfl, fun q hq => ?_⟩
    rcases hpend q hq with hold | ⟨-, ht, -⟩
    · exact hold
    · exact nomatch hu.symm.trans (hP.not_hasWait ht hut)
  case hcov =>
    intro p q hp hq hz
    rw [hm.parent] at hq
    have hz := hm.kept hz rfl
    rcases hpend p hp with hold | ⟨rfl, -, hnone⟩
    · obtain ⟨rfl, r, st, i, j, hr, hj⟩ := h.covered p q hold hq hz
      refine ⟨rfl, ?_⟩
      rcases eq_or_ne r t with rfl | hrt
      · exact .inr ⟨st, hwake st i j hr hj hp⟩
      · exact .inl ⟨r, st, i, j, hrt, hr, hj⟩
    · exact absurd hz (hnone q hq)

/-- Nobody is a child of a process that is not alive. -/
theorem Kin.of_dead {initproc : Fin n} (h : σ.Kin initproc) (hq : (σ.state q).alive = false) :
    q ≠ initproc ∧ ∀ p, σ.parent p ≠ some q := by
  constructor
  · rintro rfl
    exact nomatch hq.symm.trans h.init
  · exact fun p hp => nomatch hq.symm.trans (h.alive p q hp)

/-- A step that records nothing, frees no zombie and reuses no slot. -/
theorem Recorded.keep (h : σ.Recorded) (hexited : τ.exited = σ.exited) (hwaited : τ.waited = σ.waited)
    (hgen : τ.gen = σ.gen)
    (hzombie : ∀ q, τ.state q = .zombie →
      σ.state q = .zombie ∧ τ.pid q = σ.pid q ∧ τ.xstate q = σ.xstate q)
    (hunused : ∀ q, σ.state q = .unused → τ.state q = .unused) : τ.Recorded := by
  refine ⟨fun q hq => ?_, ?_, ?_, ?_⟩
  · obtain ⟨hz, hpid, hx⟩ := hzombie q hq
    rw [hexited, hgen, hpid, hx]
    exact h.zombie q hz
  · rw [hexited, hwaited]
    exact h.exited
  · rw [hwaited, hgen]
    exact fun w hw => (h.past w hw).imp_right fun hw' => ⟨hw'.1, hunused _ hw'.2⟩
  · rw [hwaited]
    exact h.once

theorem Recorded.mild (h : σ.Recorded) (hm : Mild σ τ) (hexited : τ.exited = σ.exited)
    (hwaited : τ.waited = σ.waited) (hgen : τ.gen = σ.gen) (hpid : τ.pid = σ.pid)
    (hx : τ.xstate = σ.xstate) : τ.Recorded := by
  refine h.keep hexited hwaited hgen (fun q hq => ?_) fun q hq => ?_
  · exact ⟨hm.kept hq rfl, congrFun hpid q, congrFun hx q⟩
  · exact hm.keeps hq rfl

/-! ## Steps that only take and release locks -/

namespace Inv

variable {initproc : Fin n} {c₀ : FamilyPc n}

theorem facts_at (h : σ.Inv initproc) (hpc : σ.pc t = c) : Facts initproc σ t c := hpc ▸ h.kin.facts t

theorem running_at (h : σ.Inv initproc) (hpc : σ.pc t = c) (hon : σ.on t = true)
    (hc : c.busy = true) : σ.state t = .running :=
  (hpc ▸ h.placed.fits t).running hon hc

/-- A running process moves, taking and releasing locks. -/
theorem move (h : σ.Inv initproc) {wl : Option (Fin n)} {lk : Fin n → Option (FamilyHolder n)}
    (hon : σ.on t = true) (hpc₀ : σ.pc t = c₀) (hb₀ : c₀.busy = true) (hb : c.busy = true)
    (hwait : c.hasWait = true → wl = some t)
    (hwaitOthers : ∀ u, u ≠ t → σ.waitLock = some u → wl = some u)
    (hlock : ∀ q, c.holds t = some q → lk q = some (.thread t))
    (hlockOthers : ∀ u q, u ≠ t → σ.lock q = some (.thread u) → lk q = some (.thread u))
    (hforks : c.forks = none ∨ c.forks = c₀.forks) (hfacts : Facts initproc σ t c)
    (hpend : (∀ st, ¬c.pending st) ∨ c = .sleepState ∧ c₀ = .sleepUnwait)
    (hwake : ∀ st i j, c₀ = .wakeInit st i j → j ≤ initproc.val → σ.Pending initproc →
      ∃ i' j', c = .wakeInit st i' j' ∧ j' ≤ initproc.val) :
    Inv initproc { σ.goto t c with waitLock := wl, lock := lk } := by
  have hrun : σ.state t = .running := h.running_at hpc₀ hon hb₀
  have hm : Mild σ { σ.goto t c with waitLock := wl, lock := lk } := .of_eq rfl rfl
  have hshrink : (∀ st, ¬c.pending st) →
      ∀ q, Pending { σ.goto t c with waitLock := wl, lock := lk } q → σ.Pending q :=
    fun hc q hq => hq.of_update rfl (fun hself => absurd hself (hc _)) id
  constructor
  case placed =>
    refine h.placed.change rfl hwait hwaitOthers hlock hlockOthers ?_ fun u _ => h.placed.fits u
    show c.Fits t (σ.on t) (σ.state t) (σ.chan t)
    rw [hon, hrun]
    exact .of_busy hb
  case kin =>
    refine h.kin.mild h.placed hm rfl (hpc₀ ▸ hforks) ?_ ?_ ?_
    · rcases hpend with hc | ⟨rfl, -⟩
      · exact hfacts.keep ⟨fun _ _ hq => hq, fun _ _ hq => ⟨hq, rfl⟩,
          fun _ => ⟨fun _ => rfl, fun _ hq => hq, hshrink hc⟩⟩
      · trivial
    · intro q hq
      rcases hpend with hc | ⟨rfl, rfl⟩
      · exact .inl (hshrink hc q hq)
      · -- the process has looked at all its children under `wait_lock`
        by_cases hqt : q = t
        · have hnone := h.kin.facts t
          rw [hpc₀] at hnone
          exact .inr ⟨hqt, h.placed.wait t (hpc₀ ▸ rfl), hnone⟩
        · unfold Pending goto at hq
          dsimp only at hq
          rw [update_of_ne hqt] at hq
          exact .inl hq
    · intro st i j hc hj hp
      have hc₀ := hpc₀.symm.trans hc
      rcases hpend with hpend | ⟨-, rfl⟩
      · exact hwake st i j hc₀ hj (hshrink hpend initproc hp)
      · cases hc₀
  case recorded => exact h.recorded.mild hm rfl rfl rfl rfl rfl

/-- A running process moves. -/
theorem goto (h : σ.Inv initproc) (hon : σ.on t = true) (hpc₀ : σ.pc t = c₀)
    (hfacts : Facts initproc σ t c)
    (hwake : ∀ st i j, c₀ = .wakeInit st i j → j ≤ initproc.val → σ.Pending initproc →
      ∃ i' j', c = .wakeInit st i' j' ∧ j' ≤ initproc.val := by nofun)
    (hb₀ : c₀.busy = true := by rfl) (hb : c.busy = true := by rfl)
    (hwait : c.hasWait = c₀.hasWait := by rfl) (hlock : c.holds t = c₀.holds t := by rfl)
    (hforks : c.forks = none ∨ c.forks = c₀.forks := by first | exact .inl rfl | exact .inr rfl)
    (hpend : ∀ st, ¬c.pending st := by nofun) : (σ.goto t c).Inv initproc := by
  refine h.move hon hpc₀ hb₀ hb ?_ (fun _ _ hu => hu) ?_ (fun _ _ _ hu => hu) hforks hfacts (.inl hpend)
    hwake
  · exact fun hc => h.placed.wait t (by rw [hpc₀, ← hwait]; exact hc)
  · exact fun q hq => h.placed.locked t q (by rw [hpc₀, ← hlock]; exact hq)

theorem takeWait (h : σ.Inv initproc) (hon : σ.on t = true) (hpc₀ : σ.pc t = c₀)
    (hstep : σ.takeWait t c = some τ) (hfacts : Facts initproc σ t c)
    (hlock : c.holds t = c₀.holds t := by rfl) (hpend : ∀ st, ¬c.pending st := by nofun)
    (hb₀ : c₀.busy = true := by rfl) (hb : c.busy = true := by rfl)
    (hforks : c.forks = none ∨ c.forks = c₀.forks := by first | exact .inl rfl | exact .inr rfl)
    (hwake : ∀ st i j, c₀ ≠ .wakeInit st i j := by nofun) : τ.Inv initproc := by
  obtain ⟨hfree, rfl⟩ := of_guard hstep
  refine h.move hon hpc₀ hb₀ hb (fun _ => rfl) ?_ ?_ (fun _ _ _ hu => hu) hforks hfacts (.inl hpend)
    fun st i j hc => absurd hc (hwake st i j)
  · intro u _ hu
    rw [hfree] at hu
    cases hu
  · exact fun q hq => h.placed.locked t q (by rw [hpc₀, ← hlock]; exact hq)

theorem dropWait (h : σ.Inv initproc) (hon : σ.on t = true) (hpc₀ : σ.pc t = c₀)
    (hfacts : Facts initproc σ t c)
    (hpend : (∀ st, ¬c.pending st) ∨ c = .sleepState ∧ c₀ = .sleepUnwait := by exact .inl nofun)
    (hold : c₀.hasWait = true := by rfl) (hnew : c.hasWait = false := by rfl)
    (hlock : c.holds t = c₀.holds t := by rfl)
    (hb₀ : c₀.busy = true := by rfl) (hb : c.busy = true := by rfl)
    (hforks : c.forks = none ∨ c.forks = c₀.forks := by first | exact .inl rfl | exact .inr rfl)
    (hwake : ∀ st i j, c₀ ≠ .wakeInit st i j := by nofun) : (σ.dropWait t c).Inv initproc := by
  have hwl := h.placed.wait t (by rw [hpc₀]; exact hold)
  refine h.move hon hpc₀ hb₀ hb ?_ ?_ ?_ (fun _ _ _ hu => hu) hforks hfacts hpend
    fun st i j hc => absurd hc (hwake st i j)
  · rw [hnew]
    nofun
  · exact fun u hut hu => absurd (Option.some.inj (hu.symm.trans hwl)) hut
  · exact fun q hq => h.placed.locked t q (by rw [hpc₀, ← hlock]; exact hq)

theorem takeLock (h : σ.Inv initproc) (hon : σ.on t = true) (hpc₀ : σ.pc t = c₀)
    (hstep : σ.takeLock t q c = some τ) (hfacts : Facts initproc σ t c)
    (hwait : c.hasWait = c₀.hasWait := by rfl) (hlock : c.holds t = some q := by rfl)
    (hpend : ∀ st, ¬c.pending st := by nofun)
    (hb₀ : c₀.busy = true := by rfl) (hb : c.busy = true := by rfl)
    (hforks : c.forks = none ∨ c.forks = c₀.forks := by first | exact .inl rfl | exact .inr rfl)
    (hwake : ∀ st i j, c₀ ≠ .wakeInit st i j := by nofun) : τ.Inv initproc := by
  obtain ⟨hfree, rfl⟩ := of_guard hstep
  refine h.move hon hpc₀ hb₀ hb ?_ (fun _ _ hu => hu) ?_ ?_ hforks hfacts (.inl hpend)
    fun st i j hc => absurd hc (hwake st i j)
  · exact fun hc => h.placed.wait t (by rw [hpc₀, ← hwait]; exact hc)
  · intro i hi
    rw [hlock, Option.some.injEq] at hi
    rw [← hi, update_self]
  · intro u i _ hi
    rwa [update_of_ne (ne_of_values hi hfree nofun)]

theorem dropLock (h : σ.Inv initproc) (hon : σ.on t = true) (hpc₀ : σ.pc t = c₀)
    (hfacts : Facts initproc σ t c) (hold : c₀.holds t = some q := by rfl)
    (hwait : c.hasWait = c₀.hasWait := by rfl) (hlock : c.holds t = none := by rfl)
    (hpend : ∀ st, ¬c.pending st := by nofun)
    (hb₀ : c₀.busy = true := by rfl) (hb : c.busy = true := by rfl)
    (hforks : c.forks = none ∨ c.forks = c₀.forks := by first | exact .inl rfl | exact .inr rfl)
    (hwake : ∀ st i j, c₀ ≠ .wakeInit st i j := by nofun) : (σ.dropLock t q c).Inv initproc := by
  have hheld := h.placed.locked t q (by rw [hpc₀]; exact hold)
  refine h.move hon hpc₀ hb₀ hb ?_ (fun _ _ hu => hu) ?_ ?_ hforks hfacts (.inl hpend)
    fun st i j hc => absurd hc (hwake st i j)
  · exact fun hc => h.placed.wait t (by rw [hpc₀, ← hwait]; exact hc)
  · rw [hlock]
    nofun
  · intro u i hut hi
    have hiq : i ≠ q := by
      rintro rfl
      rw [hheld] at hi
      exact hut (FamilyHolder.thread.inj (Option.some.inj hi)).symm
    rwa [update_of_ne hiq]

/-! ## Steps between states of live processes -/

/-- A process is woken if it sleeps and nobody has its lock. -/
theorem wake (h : σ.Inv initproc) {k : Fin n → Bool} {s : Fin n → ProcState}
    (hs : s = σ.state ∨ σ.state q = .sleeping ∧ σ.lock q = none ∧ s = update σ.state q .runnable) :
    Inv initproc { σ with killed := k, state := s } := by
  have hstate : ∀ p, s p = σ.state p ∨
      σ.state p = .sleeping ∧ σ.lock p = none ∧ s p = .runnable := by
    intro p
    rcases hs with rfl | ⟨hq, hfree, rfl⟩
    · exact .inl rfl
    · rcases eq_or_ne p q with rfl | hpq
      · exact .inr ⟨hq, hfree, update_self ..⟩
      · exact .inl (update_of_ne hpq ..)
  have hm : Mild σ { σ with killed := k, state := s } := by
    refine ⟨rfl, fun p => (hstate p).imp_right fun ⟨hp, _, hr⟩ => ?_⟩
    dsimp only
    rw [hp, hr]
    exact ⟨rfl, rfl⟩
  have hsleep : ∀ p, s p = .sleeping → σ.state p = .sleeping := fun p hp =>
    (hstate p).elim (fun hp' => hp'.symm.trans hp) And.left
  have hpc : σ.pc = update σ.pc q (σ.pc q) := (update_eq_self ..).symm
  have hpend : ∀ p, Pending { σ with killed := k, state := s } p → σ.Pending p := by
    intro p hp
    refine hp.of_update hpc (fun hq => ?_) (hsleep p)
    revert hq
    cases σ.pc q with
    | asleep => exact hsleep q
    | _ => exact id
  constructor
  case placed =>
    refine ⟨h.placed.wait, h.placed.locked, fun p => ?_⟩
    have hp := h.placed.fits p
    dsimp only
    rcases hstate p with hp' | ⟨hs, hfree, hr⟩
    · rwa [hp']
    · rw [hs] at hp
      rw [hr]
      exact hp.wake (h.placed.ne_sleepSched hfree)
  case kin =>
    refine h.kin.mild h.placed hm hpc (.inr rfl) ?_ (fun p hp => .inl (hpend p hp)) ?_
    · exact (h.kin.facts q).keep ⟨fun p _ hp => hm.keeps hp rfl, fun p _ hp => ⟨hm.keeps hp rfl, rfl⟩,
        fun _ => ⟨fun _ => rfl, fun p hp => hm.kept hp rfl, hpend⟩⟩
    · exact fun st i j hq hj _ => ⟨i, j, hq, hj⟩
  case recorded => exact h.recorded.mild hm rfl rfl rfl rfl rfl

/-- A process changes its own state, channel and lock, and whether a CPU executes it. -/
theorem own (h : σ.Inv initproc) (hpc₀ : σ.pc t = c₀) (hpc : τ.pc = update σ.pc t c)
    (hothers : ∀ u, u ≠ t → τ.state u = σ.state u ∧ τ.chan u = σ.chan u ∧ τ.on u = σ.on u ∧
      τ.lock u = σ.lock u)
    (hst : τ.state t = σ.state t ∨ (σ.state t).alive = true ∧ (τ.state t).alive = true)
    (hfree : ∀ u, u ≠ t → σ.lock t ≠ some (.thread u))
    (hfits : c.Fits t (τ.on t) (τ.state t) (τ.chan t))
    (hlock : ∀ i, c.holds t = some i → i = t ∧ τ.lock t = some (.thread t) := by nofun)
    (hpend : c.pending (τ.state t) → c₀.pending (σ.state t) := by nofun)
    (hwaitOthers : ∀ u, u ≠ t → σ.waitLock = some u → τ.waitLock = some u := by exact fun _ _ hu => hu)
    (hfacts : Facts initproc σ t c := by trivial)
    (hforks : c.forks = none ∨ c.forks = c₀.forks := by exact .inl rfl)
    (hwake : ∀ st i j, c₀ = .wakeInit st i j → c = c₀ := by nofun)
    (hwait : c.hasWait = true → τ.waitLock = some t := by nofun)
    (hpar : τ.parent = σ.parent := by rfl)
    (hrec : τ.exited = σ.exited ∧ τ.waited = σ.waited ∧ τ.gen = σ.gen ∧ τ.pid = σ.pid ∧
      τ.xstate = σ.xstate := by exact ⟨rfl, rfl, rfl, rfl, rfl⟩) : τ.Inv initproc := by
  have hm : Mild σ τ := by
    refine ⟨hpar, fun p => ?_⟩
    rcases eq_or_ne p t with rfl | hpt
    · exact hst
    · exact .inl (hothers p hpt).1
  have hpendAll : ∀ p, τ.Pending p → σ.Pending p := by
    intro p hp
    rcases eq_or_ne p t with rfl | hpt
    · unfold Pending at hp ⊢
      rw [hpc, update_self] at hp
      rw [hpc₀]
      exact hpend hp
    · refine hp.of_update hpc (fun hself => ?_) fun hs => ?_
      · rw [hpc₀]
        exact hpend hself
      · rwa [(hothers p hpt).1] at hs
  constructor
  case placed =>
    refine h.placed.change hpc hwait hwaitOthers ?_ ?_ hfits ?_
    · intro i hi
      obtain ⟨rfl, hl⟩ := hlock i hi
      exact hl
    · intro u i hut hi
      have hit : i ≠ t := by
        rintro rfl
        exact hfree u hut hi
      rwa [(hothers i hit).2.2.2]
    · intro u hut
      obtain ⟨hs, hc, ho, -⟩ := hothers u hut
      rw [hs, hc, ho]
      exact h.placed.fits u
  case kin =>
    refine h.kin.mild h.placed hm hpc (hpc₀ ▸ hforks) ?_ (fun p hp => .inl (hpendAll p hp)) ?_
    · refine hfacts.keep ⟨?_, ?_, ?_⟩
      · exact fun p _ hp => hm.keeps hp rfl
      · exact fun p _ hp => ⟨hm.keeps hp rfl, congrFun hpar p⟩
      · exact fun _ => ⟨congrFun hpar, fun p hp => hm.kept hp rfl, hpendAll⟩
    · intro st i j hc hj _
      have hc₀ := hpc₀.symm.trans hc
      exact ⟨i, j, (hwake st i j hc₀).trans hc₀, hj⟩
  case recorded => exact h.recorded.mild hm hrec.1 hrec.2.1 hrec.2.2.1 hrec.2.2.2.1 hrec.2.2.2.2

/-! ## Children, from `allocproc` to `wait` -/

/-- Nobody else relies on a slot that `t` is forking or has found. -/
theorem alone (h : σ.Inv initproc) (hused : σ.state q = .used → (σ.pc t).forks = some q)
    (hunused : σ.state q = .unused → (σ.pc t).holds t = some q) (u : Fin n) (hut : u ≠ t) :
    (σ.pc u).forks ≠ some q ∧ σ.pc u ≠ .allocFound q :=
  ⟨fun hu => hut (h.kin.forks u t q hu (hused ((h.kin.facts u).forked hu).1)),
    fun hu => hut (h.placed.holds_inj (hu ▸ rfl) (hunused (h.facts_at hu)))⟩

/-- The state and the parent of `q` change, in `fork` or under `wait_lock`. -/
theorem slot (h : σ.Inv initproc) (q : Fin n) (s : ProcState) (o : Option (Fin n))
    (hpc₀ : σ.pc t = c₀) (hpc : τ.pc = update σ.pc t c)
    (hself : c.Fits t (σ.on t) (τ.state t) (τ.chan t))
    (hfits : q ≠ t → (σ.pc q).Fits q (σ.on q) s (τ.chan q)) (hfacts : Facts initproc τ t c)
    (halone : ∀ u, u ≠ t → (σ.pc u).forks ≠ some q ∧ σ.pc u ≠ .allocFound q)
    (hunder : σ.waitLock = some t ∨ o = σ.parent q ∧ (s = .zombie → σ.state q = .zombie))
    (hlive : (σ.state q).alive = true → s.alive = true ∨ q ≠ initproc ∧ ∀ p, σ.parent p ≠ some q)
    (hsome : ∀ r, o = some r → (τ.state r).alive = true)
    (hnone : o = none → s = .unused ∨ s = .used ∨ q = initproc) (hrec : τ.Recorded)
    (hfresh : s = .unused → o = none)
    (hcov : s = .zombie → ∀ p, o = some p → σ.Pending p →
      p = initproc ∧ ∃ st i j, c = .wakeInit st i j ∧ j ≤ (p : ℕ))
    (hsleep : s = .sleeping → σ.state q = .sleeping) (hforks : c.forks = none ∨ c.forks = some q)
    (hpend : ∀ st, ¬c.pending st) (hwake : ∀ st i j, c₀ ≠ .wakeInit st i j)
    (hwait : c.hasWait = c₀.hasWait) (hlock : c.holds t = c₀.holds t)
    (hstate : τ.state = update σ.state q s) (hparent : τ.parent = update σ.parent q o)
    (hchan : ∀ u, u ≠ q → τ.chan u = σ.chan u)
    (hsame : τ.on = σ.on ∧ τ.lock = σ.lock ∧ τ.waitLock = σ.waitLock) : τ.Inv initproc := by
  have hpendAll : ∀ p, τ.Pending p → σ.Pending p := fun p hp =>
    hp.of_update hpc (fun hc => absurd hc (hpend _)) fun hs => by
      rw [hstate] at hs
      rcases update_cases hs with ⟨rfl, hs'⟩ | ⟨-, hs'⟩
      · exact hsleep hs'
      · exact hs'
  have hlive' : s.alive = true ∨ q ≠ initproc ∧ ∀ p, σ.parent p ≠ some q := by
    cases hq : (σ.state q).alive with
    | true => exact hlive hq
    | false => exact .inr (h.kin.of_dead hq)
  have halive : ∀ r, (σ.state r).alive = true → (r = q → s.alive = true) → (τ.state r).alive = true := by
    rw [hstate]
    refine (forall_update_iff σ.state fun r st => (σ.state r).alive = true →
      (r = q → s.alive = true) → st.alive = true).mpr ⟨fun _ hq => hq rfl, fun _ _ hr _ => hr⟩
  refine ⟨?_, ?_, hrec⟩
  · refine h.placed.change hpc ?_ ?_ ?_ ?_ (hsame.1 ▸ hself) fun u hut => ?_
    · rw [hsame.2.2]
      exact fun hc => h.placed.wait t (by rwa [hpc₀, ← hwait])
    · rw [hsame.2.2]
      exact fun _ _ hu => hu
    · rw [hsame.2.1]
      exact fun i hi => h.placed.locked t i (by rwa [hpc₀, ← hlock])
    · rw [hsame.2.1]
      exact fun _ _ _ hu => hu
    · rw [hsame.1, hstate]
      rcases eq_or_ne u q with rfl | huq
      · rw [update_self]
        exact hfits hut
      · rw [update_of_ne huq, hchan u huq]
        exact h.placed.fits u
  · apply h.kin.change hpc
    case halive =>
      intro p r hp
      rw [hparent] at hp
      rcases update_cases hp with ⟨-, ho⟩ | ⟨-, hp'⟩
      · exact hsome r ho
      · refine halive r (h.kin.alive p r hp') ?_
        rintro rfl
        exact hlive'.resolve_right fun hc => hc.2 p hp'
    case hparented =>
      intro p hp hun hus hno
      rw [hparent] at hno
      rw [hstate] at hun hus
      rcases update_cases hno with ⟨rfl, ho⟩ | ⟨hpq, hno⟩
      · rw [update_self] at hun hus
        rcases hnone ho with hs | hs | hs
        exacts [hun hs, hus hs, hp hs]
      · rw [update_of_ne hpq] at hun hus
        exact h.kin.parented p hp hun hus hno
    case hinit =>
      refine halive _ h.kin.init ?_
      rintro rfl
      exact hlive'.resolve_right fun hc => hc.1 rfl
    case hfresh =>
      intro p hp
      rw [hstate] at hp
      rw [hparent]
      rcases update_cases hp with ⟨rfl, hs⟩ | ⟨hpq, hp⟩
      · rw [update_self, hfresh hs]
      · rw [update_of_ne hpq, h.kin.fresh p hp]
    case hforks =>
      intro i hc u hut
      rcases hforks with hf | hf
      · exact nomatch hf.symm.trans hc
      · rw [← hc, hf]
        exact (halone u hut).1
    case hfacts => exact hfacts
    case hkeep =>
      intro u hut
      refine ⟨fun i hi hun => ?_, fun i hi hus => ?_, fun hu => ?_⟩
      · have hiq : i ≠ q := fun hc => (halone u hut).2 (hc ▸ hi)
        rw [hstate, update_of_ne hiq, hun]
      · have hiq : i ≠ q := fun hc => (halone u hut).1 (hc ▸ hi)
        rw [hstate, hparent, update_of_ne hiq, update_of_ne hiq]
        exact ⟨hus, rfl⟩
      · rcases hunder with hwl | ⟨ho, hz⟩
        · exact nomatch hu.symm.trans (h.placed.not_hasWait hwl hut)
        · refine ⟨fun p => ?_, fun p hp => ?_, hpendAll⟩
          · rw [hparent, ho, update_eq_self]
          · rw [hstate] at hp
            rcases update_cases hp with ⟨rfl, hs⟩ | ⟨-, hp⟩
            · exact hz hs
            · exact hp
    case hcov =>
      intro p r hp hr hz
      rw [hparent] at hr
      rw [hstate] at hz
      rcases update_cases hr with ⟨rfl, ho⟩ | ⟨hrq, hr⟩
      · rw [update_self] at hz
        exact (hcov hz p ho (hpendAll p hp)).imp_right .inr
      · rw [update_of_ne hrq] at hz
        obtain ⟨hinit, u, st, i, j, hu, hj⟩ := h.kin.covered p r (hpendAll p hp) hr hz
        have hut : u ≠ t := by
          rintro rfl
          exact hwake st i j (hpc₀.symm.trans hu)
        exact ⟨hinit, .inl ⟨u, st, i, j, hut, hu, hj⟩⟩

/-- A slot without a thread goes to another state without one. -/
theorem fits_dead (h : σ.Inv initproc) {s : ProcState} (hq : σ.pc q = .gone)
    (ch : Option (FamilyChan n)) (hs : s ≠ .running ∧ s ≠ .sleeping) :
    (σ.pc q).Fits q (σ.on q) s ch := by
  have hfits := h.placed.fits q
  rw [hq] at hfits ⊢
  exact ⟨hfits.1, hs⟩

/-- `np->parent = p` in `fork`. -/
theorem setParent (h : σ.Inv initproc) (hon : σ.on t = true) (hpc₀ : σ.pc t = .forkParent q) :
    Inv initproc { σ.goto t (.forkUnwait q) with parent := update σ.parent q (some t) } := by
  have hrun := h.running_at hpc₀ hon rfl
  obtain ⟨hused, -⟩ : σ.state q = .used ∧ σ.parent q = none := h.facts_at hpc₀
  refine h.slot q (σ.state q) (some t) hpc₀ rfl ⟨hon, hrun⟩ (fun _ => h.placed.fits q) ⟨hused, update_self ..⟩
    (h.alone (fun _ => hpc₀ ▸ rfl) fun hc => nomatch hused.symm.trans hc)
    (.inl (h.placed.wait t (hpc₀ ▸ rfl))) .inl ?_ nofun ?_ (fun hc => nomatch hused.symm.trans hc)
    (fun hc => nomatch hused.symm.trans hc) id (.inr rfl) nofun nofun rfl rfl (update_eq_self ..).symm rfl
    (fun _ _ => rfl) ⟨rfl, rfl, rfl⟩
  · rintro r ⟨⟩
    exact hrun ▸ rfl
  · exact h.recorded.keep rfl rfl rfl (fun _ hq => ⟨hq, rfl, rfl⟩) fun _ hq => hq

/-- `reparent` gives a child to `initproc`. -/
theorem adopt (h : σ.Inv initproc) {st : ℤ} {i : Fin n} (hon : σ.on t = true)
    (hpc₀ : σ.pc t = .reparent st i) (hchild : σ.parent i = some t) :
    Inv initproc { σ.goto t (.wakeInit st i 0) with
      parent := update σ.parent i (some initproc) } := by
  obtain ⟨hne, hbefore⟩ : t ≠ initproc ∧ ∀ q : Fin n, q < (i : ℕ) → σ.parent q ≠ some t :=
    h.facts_at hpc₀
  have hunused : σ.state i ≠ .unused := fun hc => nomatch (h.kin.fresh i hc).symm.trans hchild
  refine h.slot i (σ.state i) (some initproc) hpc₀ rfl ⟨hon, h.running_at hpc₀ hon rfl⟩ (fun _ => h.placed.fits i)
    ⟨hne, fun q hq hc => ?_⟩ (fun u hut => ⟨fun hu => ?_, fun hu => hunused (h.facts_at hu)⟩)
    (.inl (h.placed.wait t (hpc₀ ▸ rfl))) .inl ?_ nofun ?_ (fun hc => absurd hc hunused) ?_ id (.inl rfl) nofun
    nofun rfl rfl (update_eq_self ..).symm rfl (fun _ _ => rfl) ⟨rfl, rfl, rfl⟩
  · rcases update_cases hc with ⟨-, hc⟩ | ⟨hqi, hc⟩
    · exact hne (Option.some.inj hc).symm
    · exact hbefore q (by omega) hc
  · exact hut (((h.kin.facts u).forked hu).2 t hchild).symm
  · rintro r ⟨⟩
    exact h.kin.init
  · exact h.recorded.keep rfl rfl rfl (fun _ hq => ⟨hq, rfl, rfl⟩) fun _ hq => hq
  · rintro - p ⟨⟩ -
    exact ⟨rfl, st, i, 0, rfl, Nat.zero_le _⟩

/-- `p->state = ZOMBIE` in `exit`. -/
theorem becomeZombie (h : σ.Inv initproc) {st : ℤ} (hon : σ.on t = true)
    (hpc₀ : σ.pc t = .exitState st) :
    Inv initproc { σ.goto t .exitUnwait with
      xstate := update σ.xstate t st
      state := update σ.state t .zombie
      exited := ⟨t, σ.gen t, σ.pid t, st⟩ :: σ.exited } := by
  have hrun : σ.state t = .running := h.running_at hpc₀ hon rfl
  obtain ⟨hne, hchildless, hparent⟩ := h.facts_at hpc₀
  refine h.slot t .zombie (σ.parent t) hpc₀ rfl ⟨hon, update_self ..⟩ (fun hc => absurd rfl hc) trivial
    (h.alone (fun hc => nomatch hrun.symm.trans hc) fun hc => nomatch hrun.symm.trans hc)
    (.inl (h.placed.wait t (hpc₀ ▸ rfl))) (fun _ => .inr ⟨hne, hchildless⟩) (fun r hr => ?_) ?_ ?_
    -- the parent was woken before
    nofun (fun _ p hp hpend => absurd hpend (hparent p hp)) nofun (.inl rfl) nofun nofun rfl rfl rfl
    (update_eq_self ..).symm (fun _ _ => rfl) ⟨rfl, rfl, rfl⟩
  · have hrt : r ≠ t := fun hc => hchildless t (hc ▸ hr)
    dsimp only
    rw [update_of_ne hrt]
    exact h.kin.alive t r hr
  · refine fun hc => absurd hc (h.kin.parented t hne ?_ ?_) <;> rw [hrun] <;> nofun
  · refine ⟨fun q hq => ?_, fun w hw => .tail _ (h.recorded.exited w hw), fun w hw => ?_,
      h.recorded.once⟩ <;> dsimp only [FamilySys.goto]
    · rcases update_cases hq with ⟨rfl, -⟩ | ⟨hqt, hq⟩
      · rw [update_self]
        exact .head _
      · rw [update_of_ne hqt]
        exact .tail _ (h.recorded.zombie q hq)
    · refine (h.recorded.past w hw).imp_right fun ⟨hgen, hun⟩ => ⟨hgen, ?_⟩
      rwa [update_of_ne (ne_of_values hun hrun nofun)]

/-- `wait` frees a zombie. -/
theorem reap (h : σ.Inv initproc) {i : Fin n} (hon : σ.on t = true) (hpc₀ : σ.pc t = .waitLook i)
    (hz : σ.state i = .zombie) :
    Inv initproc { (σ.freeproc i).goto t (.waitFound i) with
      waited := (t, ⟨i, σ.gen i, σ.pid i, σ.xstate i⟩) :: σ.waited } := by
  have hrun : σ.state t = .running := h.running_at hpc₀ hon rfl
  have hti : t ≠ i := ne_of_values hrun hz nofun
  -- its lock is with the parent, so the child has switched away for good
  have hgone : σ.pc i = .gone := by
    have hfits := h.placed.fits i
    have hnot : (σ.pc i).holds i ≠ some i := fun hc => hti (h.placed.holds_inj (hpc₀ ▸ rfl) hc)
    rw [hz] at hfits
    revert hfits hnot
    cases σ.pc i <;> simp [FamilyPc.Fits, FamilyPc.holds]
  have hpast : ∀ w ∈ σ.waited, w.2.slot = i → w.2.gen < σ.gen i := by
    intro w hw hslot
    have hold := h.recorded.past w hw
    rw [hslot, hz] at hold
    exact hold.resolve_right nofun
  refine h.slot i .unused none hpc₀ rfl ⟨hon, (update_of_ne hti ..).trans hrun⟩ (fun _ => h.fits_dead hgone _ ⟨nofun, nofun⟩) trivial
    (h.alone (fun hc => nomatch hz.symm.trans hc) fun hc => nomatch hz.symm.trans hc)
    (.inl (h.placed.wait t (hpc₀ ▸ rfl))) (hz ▸ nofun) nofun (fun _ => .inl rfl) ⟨fun q hq => ?_, ?_, ?_, ?_⟩
    (fun _ => rfl) nofun nofun (.inl rfl) nofun nofun rfl rfl rfl rfl (fun _ hu => update_of_ne hu ..)
    ⟨rfl, rfl, rfl⟩ <;> dsimp only [FamilySys.goto, FamilySys.freeproc]
  · obtain ⟨-, ⟨⟩⟩ | ⟨hqi, hq⟩ := update_cases hq
    rw [update_of_ne hqi, update_of_ne hqi]
    exact h.recorded.zombie q hq
  · intro w hw
    rcases List.mem_cons.mp hw with rfl | hw
    · exact h.recorded.zombie i hz
    · exact h.recorded.exited w hw
  · intro w hw
    rcases List.mem_cons.mp hw with rfl | hw
    · exact .inr ⟨rfl, update_self ..⟩
    · by_cases hslot : w.2.slot = i
      · rw [hslot]
        exact .inl (hpast w hw hslot)
      · rw [update_of_ne hslot]
        exact h.recorded.past w hw
  · rw [List.map_cons, List.nodup_cons]
    refine ⟨fun hmem => ?_, h.recorded.once⟩
    obtain ⟨w, hw, heq⟩ := List.mem_map.mp hmem
    have hlt := hpast w hw (congrArg Prod.fst heq)
    have hgen : w.2.gen = σ.gen i := congrArg Prod.snd heq
    omega

/-- `allocproc` takes an unused slot. -/
theorem alloc (h : σ.Inv initproc) (hon : σ.on t = true) (hpc₀ : σ.pc t = .allocFound q) :
    Inv initproc { σ.goto t (.forkFill q) with
      pid := update σ.pid q σ.nextpid
      nextpid := (σ.nextpid + 1).bmod (2 ^ 32)
      state := update σ.state q .used
      gen := update σ.gen q (σ.gen q + 1) } := by
  have hunused : σ.state q = .unused := h.facts_at hpc₀
  have hrun := h.running_at hpc₀ hon rfl
  have htq : t ≠ q := ne_of_values hrun hunused nofun
  have hgone := (hunused ▸ h.placed.fits q).gone rfl nofun
  have hparent := h.kin.fresh q hunused
  refine h.slot q .used (σ.parent q) hpc₀ rfl ⟨hon, (update_of_ne htq ..).trans hrun⟩ (fun _ => h.fits_dead hgone _ ⟨nofun, nofun⟩)
    ⟨update_self .., hparent⟩ (h.alone (fun hc => nomatch hunused.symm.trans hc) fun _ => hpc₀ ▸ rfl)
    (.inr ⟨rfl, nofun⟩) (hunused ▸ nofun) (fun r hr => nomatch hparent.symm.trans hr)
    (fun _ => .inr (.inl rfl)) ⟨fun p hp => ?_, h.recorded.exited, fun w hw => ?_, h.recorded.once⟩ nofun nofun
    nofun (.inr rfl) nofun nofun rfl rfl rfl (update_eq_self ..).symm (fun _ _ => rfl) ⟨rfl, rfl, rfl⟩ <;>
    dsimp only [FamilySys.goto]
  · obtain ⟨-, ⟨⟩⟩ | ⟨hpq, hp⟩ := update_cases hp
    rw [update_of_ne hpq, update_of_ne hpq]
    exact h.recorded.zombie p hp
  · by_cases hslot : w.2.slot = q
    · have hold := h.recorded.past w hw
      rw [hslot] at hold ⊢
      rw [update_self]
      refine .inl ?_
      omega
    · rw [update_of_ne hslot, update_of_ne hslot]
      exact h.recorded.past w hw

/-- `fork` gives the slot back. -/
theorem forkFail (h : σ.Inv initproc) (hon : σ.on t = true) (hpc₀ : σ.pc t = .forkFill q) :
    ((σ.freeproc q).goto t (.forkFail q)).Inv initproc := by
  obtain ⟨hused, hparent⟩ := h.facts_at hpc₀
  have hrun := h.running_at hpc₀ hon rfl
  have htq : t ≠ q := ne_of_values hrun hused nofun
  have hgone := (hused ▸ h.placed.fits q).gone rfl nofun
  refine h.slot q .unused none hpc₀ rfl ⟨hon, (update_of_ne htq ..).trans hrun⟩ (fun _ => h.fits_dead hgone _ ⟨nofun, nofun⟩) trivial
    (h.alone (fun _ => hpc₀ ▸ rfl) fun hc => nomatch hused.symm.trans hc) (.inr ⟨hparent.symm, nofun⟩)
    (hused ▸ nofun) nofun (fun _ => .inl rfl) (h.recorded.keep rfl rfl rfl (fun p hp => ?_) fun p hp => ?_)
    (fun _ => rfl) nofun nofun (.inl rfl) nofun nofun rfl rfl rfl rfl (fun _ hu => update_of_ne hu ..)
    ⟨rfl, rfl, rfl⟩
  · obtain ⟨-, ⟨⟩⟩ | ⟨hpq, hp⟩ := update_cases hp
    exact ⟨hp, update_of_ne hpq .., update_of_ne hpq ..⟩
  · exact (update_of_ne (ne_of_values hp hused nofun) ..).trans hp

/-- `np->state = RUNNABLE`. -/
theorem forkStart (h : σ.Inv initproc) (hon : σ.on t = true) (hpc₀ : σ.pc t = .forkStart q) :
    Inv initproc { σ.goto t (.forkDone q) with
      state := update σ.state q .runnable } := by
  obtain ⟨hused, hparent⟩ := h.facts_at hpc₀
  have hrun := h.running_at hpc₀ hon rfl
  have htq : t ≠ q := ne_of_values hrun hused nofun
  have hgone := (hused ▸ h.placed.fits q).gone rfl nofun
  refine h.slot q .runnable (σ.parent q) hpc₀ rfl ⟨hon, (update_of_ne htq ..).trans hrun⟩ (fun _ => h.fits_dead hgone _ ⟨nofun, nofun⟩) trivial
    (h.alone (fun _ => hpc₀ ▸ rfl) fun hc => nomatch hused.symm.trans hc) (.inr ⟨rfl, nofun⟩)
    (fun _ => .inl rfl) (fun r hr => ?_) (fun hc => nomatch hparent.symm.trans hc)
    (h.recorded.keep rfl rfl rfl (fun p hp => ?_) fun p hp => ?_) nofun nofun nofun (.inl rfl) nofun nofun rfl
    rfl rfl (update_eq_self ..).symm (fun _ _ => rfl) ⟨rfl, rfl, rfl⟩
  · obtain rfl := Option.some.inj (hparent.symm.trans hr)
    dsimp only
    rw [update_of_ne htq, hrun]
    rfl
  · obtain ⟨-, ⟨⟩⟩ | ⟨-, hp⟩ := update_cases hp
    exact ⟨hp, rfl, rfl⟩
  · exact (update_of_ne (ne_of_values hp hused nofun) ..).trans hp

/-- A round of `wakeup`: the process looked at does not pend any more. -/
theorem wakeRound (h : σ.Inv initproc) {j r : Fin n} (hon : σ.on t = true) (hpc₀ : σ.pc t = c₀)
    (hstep : σ.wakeRound t j r c = some τ)
    (hfacts : ∀ ρ : FamilySys n, ρ.Inv initproc → ρ.pc t = c₀ → (r = j → ¬ρ.Pending j) →
      ρ.parent = σ.parent → Facts initproc ρ t c)
    (hwake : ∀ ρ : FamilySys n, (r = j → ¬ρ.Pending j) → ∀ st i k, c₀ = .wakeInit st i k →
      k ≤ initproc.val → ρ.Pending initproc → ∃ i' k', c = .wakeInit st i' k' ∧ k' ≤ initproc.val)
    (hb₀ : c₀.busy = true := by rfl) (hb : c.busy = true := by rfl)
    (hwait : c.hasWait = c₀.hasWait := by rfl) (hlock : c.holds t = c₀.holds t := by rfl)
    (hforks : c.forks = none ∨ c.forks = c₀.forks := by exact .inl rfl)
    (hpend₀ : ∀ st, ¬c₀.pending st := by nofun) (hpend : ∀ st, ¬c.pending st := by nofun) :
    τ.Inv initproc := by
  unfold FamilySys.wakeRound at hstep
  split at hstep
  · rename_i hj
    subst hj
    cases hstep
    have hself : r = j → ¬σ.Pending j := by
      intro _ hp
      unfold Pending at hp
      rw [hpc₀] at hp
      exact hpend₀ _ hp
    exact h.goto hon hpc₀ (hfacts σ h hpc₀ hself rfl) (hwake σ hself) hb₀ hb hwait hlock hforks hpend
  · obtain ⟨hfree, rfl⟩ := of_guard hstep
    obtain ⟨s, hs⟩ : ∃ s, s = if σ.state j = .sleeping ∧ σ.chan j = some (.proc r) then
        update σ.state j .runnable else σ.state := ⟨_, rfl⟩
    rw [← hs]
    have hρ : Inv initproc { σ with killed := σ.killed, state := s } := by
      refine h.wake (q := j) ?_
      split at hs
      case isTrue hc => exact .inr ⟨hc.1, hfree, hs⟩
      case isFalse => exact .inl hs
    have hself : r = j → ¬Pending { σ with killed := σ.killed, state := s } j := by
      rintro rfl hp
      -- its lock is free, so it is asleep, on its own channel
      have hnot : (σ.pc r).holds r ≠ some r := by
        intro hc
        have hown := h.placed.locked r r hc
        rw [hfree] at hown
        cases hown
      have hfits := h.placed.fits r
      unfold Pending at hp
      dsimp only at hp
      revert hp hnot hfits
      cases σ.pc r with
      | asleep =>
        intro hp _ hfits
        change s r = .sleeping at hp
        rw [hs] at hp
        split at hp
        · rw [update_self] at hp
          cases hp
        · rename_i hc
          exact hc ⟨hp, hfits.2.2⟩
      | sleepState => exact fun _ hnot => absurd rfl hnot
      | sleepSched => exact fun _ hnot => absurd rfl hnot
      | _ => exact fun hp => hp.elim
    exact hρ.goto hon hpc₀ (hfacts _ hρ hpc₀ hself rfl) (hwake _ hself) hb₀ hb hwait hlock hforks hpend

/-- A process that has its own lock, and nobody else, when it switches or wakes. -/
theorem own_lock (h : σ.Inv initproc) (hpc₀ : σ.pc t = c₀) (hc₀ : c₀.holds t = some t) (u : Fin n)
    (hut : u ≠ t) : σ.lock t ≠ some (.thread u) := by
  rw [h.placed.locked t t (by rw [hpc₀]; exact hc₀)]
  exact fun hc => hut (FamilyHolder.thread.inj (Option.some.inj hc)).symm

/-- The steps of a process in `fork`, `exit` and `wait`. -/
theorem next (h : σ.Inv initproc) {ok : Bool} (hon : σ.on t = true)
    (hstep : σ.next initproc t ok = some τ) : τ.Inv initproc := by
  unfold FamilySys.next at hstep
  cases hpc : σ.pc t <;> simp only [hpc] at hstep
  case gone | user | asleep => cases hstep
  case allocScan i =>
    split at hstep
    · split at hstep
      · split at hstep
        · rename_i hunused
          exact h.takeLock hon hpc hstep hunused
        · cases hstep
          exact h.goto hon hpc trivial
      · cases hstep
    · cases hstep
      exact h.goto hon hpc trivial
  case allocFound q =>
    cases hstep
    exact h.alloc hon hpc
  case forkFill q =>
    split at hstep
    · cases hstep
      have hfacts := h.facts_at hpc
      exact h.goto hon hpc hfacts
    · cases hstep
      exact h.forkFail hon hpc
  case forkFail | forkDone | waitFound =>
    cases hstep
    exact h.dropLock hon hpc trivial
  case forkRelease | waitUnlock =>
    cases hstep
    have hfacts := h.facts_at hpc
    exact h.dropLock hon hpc hfacts
  case forkLock | exitLock | sleepLock =>
    have hfacts := h.facts_at hpc
    exact h.takeLock hon hpc hstep hfacts
  case forkUnwait =>
    cases hstep
    have hfacts := h.facts_at hpc
    exact h.dropWait hon hpc hfacts
  case forkWait q =>
    have hfacts := h.facts_at hpc
    exact h.takeWait hon hpc hstep hfacts
  case forkParent q =>
    cases hstep
    exact h.setParent hon hpc
  case forkStart q =>
    cases hstep
    exact h.forkStart hon hpc
  case exitWait st =>
    have hne : t ≠ initproc := h.facts_at hpc
    exact h.takeWait hon hpc hstep ⟨hne, nofun⟩
  case reparent st i =>
    obtain ⟨hne, hbefore⟩ := h.facts_at hpc
    split at hstep
    · rename_i hi
      split at hstep
      · rename_i hchild
        cases hstep
        exact h.adopt hon hpc hchild
      · rename_i hchild
        cases hstep
        refine h.goto hon hpc ⟨hne, fun q hq => ?_⟩
        by_cases hqi : q = ⟨i, hi⟩
        · rw [hqi]
          exact hchild
        · refine hbefore q ?_
          have : (q : ℕ) ≠ i := fun hc => hqi (Fin.ext hc)
          omega
    · cases hstep
      refine h.goto hon hpc ⟨hne, fun q => hbefore q ?_, rfl, nofun⟩
      omega
  case wakeInit st i j =>
    obtain ⟨hne, hbefore⟩ := h.facts_at hpc
    split at hstep
    · rename_i hj
      refine h.wakeRound hon hpc hstep ?_ ?_
      · intro ρ hρ hρpc _ _
        have hfacts := hρ.facts_at hρpc
        exact hfacts
      · intro ρ hself st' i' k hc hk hp
        obtain ⟨rfl, rfl, rfl⟩ := FamilyPc.wakeInit.inj hc
        refine ⟨i, j + 1, rfl, ?_⟩
        have hne' : (initproc : ℕ) ≠ j := by
          intro hc'
          have hinit : initproc = ⟨j, hj⟩ := Fin.ext hc'
          exact hself hinit (hinit ▸ hp)
        omega
    · rename_i hj
      cases hstep
      refine h.goto hon hpc ⟨hne, hbefore⟩ ?_
      intro st' i' k hc hk _
      obtain ⟨-, -, rfl⟩ := FamilyPc.wakeInit.inj hc
      omega
  case wakeParent st o j =>
    obtain ⟨hne, hchildless, ho, hwoken⟩ := h.facts_at hpc
    cases o with
    | none =>
      cases hstep
      refine h.goto hon hpc ⟨hne, hchildless, ?_⟩
      rw [← ho]
      nofun
    | some r =>
      dsimp only at hstep
      split at hstep
      · rename_i hj
        refine h.wakeRound hon hpc hstep ?_ nofun
        intro ρ hρ hρpc hself hpar
        obtain ⟨hne', hchildless', ho', hwoken'⟩ := hρ.facts_at hρpc
        refine ⟨hne', hchildless', ho', fun r' hr' hj' => ?_⟩
        obtain rfl := Option.some.inj (ho'.trans hr')
        by_cases hrj : (r : ℕ) = j
        · have hrj' : r = ⟨j, hj⟩ := Fin.ext hrj
          have := hself hrj'
          rwa [← hrj'] at this
        · exact hwoken' r hr' (by omega)
      · cases hstep
        refine h.goto hon hpc ⟨hne, hchildless, fun r' hr' => ?_⟩
        exact hwoken r' hr' (by omega)
  case exitState st =>
    cases hstep
    exact h.becomeZombie hon hpc
  case exitUnwait =>
    cases hstep
    have hfits := h.placed.fits t
    rw [hpc] at hfits
    have hwl := h.placed.wait t (hpc ▸ rfl)
    refine h.own hpc rfl (fun _ _ => ⟨rfl, rfl, rfl, rfl⟩) (.inl rfl) (h.own_lock hpc rfl) hfits ?_ nofun ?_
    · exact fun i hi => ⟨(Option.some.inj hi).symm, h.placed.locked t t (hpc ▸ rfl)⟩
    · exact fun u hut hu => absurd (Option.some.inj (hu.symm.trans hwl)) hut
  case exitSched =>
    cases hstep
    have hfits := h.placed.fits t
    rw [hpc] at hfits
    refine h.own hpc rfl (fun u hu => ⟨rfl, rfl, update_of_ne hu .., update_of_ne hu ..⟩) (.inl rfl)
      (h.own_lock hpc rfl) ⟨update_self .., ?_⟩
    dsimp only [FamilySys.sched, FamilySys.goto]
    rw [hfits.2]
    exact ⟨nofun, nofun⟩
  case waitWait =>
    exact h.takeWait hon hpc hstep nofun
  case waitScan i havekids =>
    have hbefore : ∀ q : Fin n, q < i → σ.parent q = some t → σ.state q ≠ .zombie := h.facts_at hpc
    split at hstep
    · rename_i hi
      split at hstep
      · rename_i hchild
        exact h.takeLock hon hpc hstep ⟨hchild, hbefore⟩
      · rename_i hchild
        cases hstep
        refine h.goto hon hpc (fun q hq hp => ?_)
        refine hbefore q ?_ hp
        have : (q : ℕ) ≠ i := by
          rintro rfl
          exact hchild hp
        omega
    · cases hstep
      exact h.goto hon hpc (fun q => hbefore q (by omega))
  case waitLook i =>
    obtain ⟨hchild, hbefore⟩ := h.facts_at hpc
    split at hstep
    · rename_i hz
      split at hstep
      · cases hstep
        exact h.reap hon hpc hz
      · cases hstep
        exact h.goto hon hpc trivial
    · rename_i hz
      cases hstep
      refine h.goto hon hpc (fun q hq hp => ?_)
      by_cases hqi : q = i
      · rw [hqi]
        exact hz
      · exact hbefore q (by omega) hp
  case waitUnwait =>
    cases hstep
    exact h.dropWait hon hpc trivial
  case waitEnd havekids =>
    have hfacts := h.facts_at hpc
    split at hstep
    · cases hstep
      exact h.goto hon hpc trivial
    · split at hstep
      · split at hstep
        · cases hstep
          exact h.goto hon hpc trivial
        · cases hstep
          exact h.goto hon hpc hfacts
      · cases hstep
  case sleepUnwait =>
    cases hstep
    exact h.dropWait hon hpc trivial (.inr ⟨rfl, rfl⟩)
  case sleepState =>
    cases hstep
    have hrun := h.running_at hpc hon rfl
    refine h.own hpc rfl (fun u hu => ⟨update_of_ne hu .., update_of_ne hu .., rfl, rfl⟩) ?_
      (h.own_lock hpc rfl) ⟨hon, update_self .., update_self ..⟩ ?_ fun _ => trivial
    · refine .inr ⟨?_, ?_⟩
      · rw [hrun]
        rfl
      · dsimp only
        rw [update_self]
        rfl
    · intro i hi
      exact ⟨(Option.some.inj hi).symm, h.placed.locked t t (hpc ▸ rfl)⟩
  case sleepSched =>
    cases hstep
    have hfits := h.placed.fits t
    rw [hpc] at hfits
    exact h.own hpc rfl (fun u hu => ⟨rfl, rfl, update_of_ne hu .., update_of_ne hu ..⟩) (.inl rfl)
      (h.own_lock hpc rfl) ⟨update_self .., .inl hfits.2.1, hfits.2.2⟩ nofun fun _ => trivial
  case woken =>
    cases hstep
    have hrun := h.running_at hpc hon rfl
    exact h.own hpc rfl (fun u hu => ⟨rfl, update_of_ne hu .., rfl, update_of_ne hu ..⟩) (.inl rfl)
      (h.own_lock hpc rfl) (.inl ⟨hon, hrun⟩)

/-- A process that holds no lock leaves the CPU or comes back. -/
theorem toggle (h : σ.Inv initproc) (hpre : (σ.pc t).preemptible = true) (hfree : σ.lock t = none)
    (hothers : ∀ u, u ≠ t → τ.state u = σ.state u ∧ τ.chan u = σ.chan u ∧ τ.on u = σ.on u)
    (hst : (σ.state t).alive = true ∧ (τ.state t).alive = true)
    (hfits : (σ.pc t).Fits t (τ.on t) (τ.state t) (τ.chan t)) (hpc : τ.pc = σ.pc := by rfl)
    (hpar : τ.parent = σ.parent := by rfl)
    (hlocks : τ.lock = σ.lock ∧ τ.waitLock = σ.waitLock := by exact ⟨rfl, rfl⟩)
    (hrec : τ.exited = σ.exited ∧ τ.waited = σ.waited ∧ τ.gen = σ.gen ∧ τ.pid = σ.pid ∧
      τ.xstate = σ.xstate := by exact ⟨rfl, rfl, rfl, rfl, rfl⟩) : τ.Inv initproc := by
  obtain ⟨hwait, hholds, hpend, hwake⟩ := FamilyPc.of_preemptible hpre
  refine h.own rfl (hpc.trans (update_eq_self ..).symm) ?_ (.inr hst) ?_ hfits ?_ (fun hc => absurd hc (hpend _)) ?_ (h.kin.facts t) (.inr rfl)
    (fun st i j hc => absurd hc (hwake st i j)) ?_ hpar hrec
  · exact fun u hu => ⟨(hothers u hu).1, (hothers u hu).2.1, (hothers u hu).2.2, congrFun hlocks.1 u⟩
  · rw [hfree]
    nofun
  · rw [hholds]
    nofun
  · rw [hlocks.2]
    exact fun _ _ hu => hu
  · rw [hwait]
    nofun

theorem step (h : σ.Inv initproc) {a : FamilyAction n} (hstep : FamilySys.step initproc σ a = some τ) :
    τ.Inv initproc := by
  cases a with
  | fork p =>
    obtain ⟨⟨hon, hpc⟩, rfl⟩ := of_guard hstep
    exact h.goto hon hpc trivial
  | exit p st =>
    obtain ⟨⟨hon, hpc, hne⟩, rfl⟩ := of_guard hstep
    exact h.goto hon hpc hne
  | wait p =>
    obtain ⟨⟨hon, hpc⟩, rfl⟩ := of_guard hstep
    exact h.goto hon hpc trivial
  | kill p q =>
    obtain ⟨⟨-, -, hfree⟩, rfl⟩ := of_guard hstep
    refine h.wake (q := q) ?_
    split
    case isTrue hc => exact .inr ⟨hc, hfree, rfl⟩
    case isFalse => exact .inl rfl
  | next p ok =>
    obtain ⟨hon, hτ⟩ := Option.ite_none_right_eq_some.mp hstep
    exact h.next hon hτ
  | yield p =>
    obtain ⟨⟨hon, hpre, hfree⟩, rfl⟩ := of_guard hstep
    have hrun := h.running_at rfl hon (FamilyPc.busy_of_preemptible hpre)
    refine h.toggle hpre hfree
      (fun u hu => ⟨update_of_ne hu .., rfl, update_of_ne hu ..⟩) ?_ ?_ <;> dsimp only
    · rw [hrun, update_self]
      exact ⟨rfl, rfl⟩
    · rw [update_self, update_self]
      exact .preempted hpre
  | sleepOther p =>
    obtain ⟨⟨hon, hpc, hfree⟩, rfl⟩ := of_guard hstep
    have hrun := h.running_at hpc hon rfl
    refine h.toggle (hpc ▸ rfl) hfree
      (fun u hu => ⟨update_of_ne hu .., update_of_ne hu .., update_of_ne hu ..⟩)
      ?_ ?_ <;> dsimp only
    · rw [hrun, update_self]
      exact ⟨rfl, rfl⟩
    · rw [hpc, update_self, update_self, update_self]
      exact .inr ⟨rfl, .inr ⟨rfl, rfl⟩⟩
  | wakeOther p =>
    obtain ⟨⟨hfree, hs, hc⟩, rfl⟩ := of_guard hstep
    exact h.wake (.inr ⟨hs, hfree, rfl⟩)
  | dispatch p =>
    obtain ⟨⟨hfree, hst⟩, hτ⟩ := Option.ite_none_right_eq_some.mp hstep
    have hself : update σ.state p .running p = .running := update_self ..
    split at hτ
    · rename_i hpc
      cases hτ
      refine h.own hpc rfl (fun u hu => ⟨update_of_ne hu .., rfl, update_of_ne hu .., update_of_ne hu ..⟩) ?_ ?_
        ⟨update_self .., hself⟩ ?_
      · dsimp only
        rw [hst, hself]
        exact .inr ⟨rfl, rfl⟩
      · rw [hfree]
        nofun
      · exact fun i hi => ⟨(Option.some.inj hi).symm, update_self ..⟩
    · rename_i hpc
      cases hτ
      refine h.own hpc rfl (fun u hu => ⟨update_of_ne hu .., rfl, update_of_ne hu .., rfl⟩) ?_ ?_
        (.inl ⟨update_self .., hself⟩)
      · dsimp only
        rw [hst, hself]
        exact .inr ⟨rfl, rfl⟩
      · rw [hfree]
        nofun
    · rename_i hasleep hgone
      cases hτ
      have hfits := h.placed.fits p
      rw [hst] at hfits
      have hpre := hfits.preemptible_of_runnable hgone hasleep
      refine h.toggle hpre hfree
        (fun u hu => ⟨update_of_ne hu .., update_of_ne hu ..,
          update_of_ne hu ..⟩) ?_ ?_ <;> dsimp only
      · rw [hst, hself]
        exact ⟨rfl, rfl⟩
      · rw [hself, update_self]
        exact .of_busy (FamilyPc.busy_of_preemptible hpre)
  | schedRelease p =>
    obtain ⟨hlock, rfl⟩ := of_guard hstep
    have hpc : σ.pc = update σ.pc p (σ.pc p) := (update_eq_self ..).symm
    have hm : Mild σ { σ with lock := update σ.lock p none } := .of_eq rfl rfl
    refine ⟨⟨h.placed.wait, fun u q hu => ?_, h.placed.fits⟩, ?_, h.recorded.mild hm rfl rfl rfl rfl rfl⟩
    · have hq := h.placed.locked u q hu
      have hqp : q ≠ p := ne_of_values hq hlock nofun
      dsimp only
      rwa [update_of_ne hqp]
    · refine h.kin.mild h.placed hm hpc (.inr rfl) ?_ (fun q hq => .inl hq) fun st i j hc hj _ => ⟨i, j, hc, hj⟩
      exact (h.kin.facts p).keep ⟨fun _ _ hq => hq, fun _ _ hq => ⟨hq, rfl⟩,
        fun _ => ⟨fun _ => rfl, fun _ hq => hq, fun _ hq => hq⟩⟩

end Inv

/-! ## The results -/

variable {initproc : Fin n}

theorem boot_inv (initproc : Fin n) : (boot initproc).Inv initproc := by
  refine ⟨⟨nofun, nofun, fun p => ?_⟩, ⟨nofun, ?_, ?_, fun _ _ => rfl, nofun, fun _ => trivial, ?_⟩, ?_⟩
  · show false = false ∧ (if p = initproc then ProcState.runnable else .unused) ≠ .running ∧
      (if p = initproc then ProcState.runnable else .unused) ≠ .sleeping
    split <;> exact ⟨rfl, nofun, nofun⟩
  · intro q hq hun
    exact absurd (if_neg hq) hun
  · show (if initproc = initproc then ProcState.runnable else .unused).alive = true
    rw [if_pos rfl]
    rfl
  · exact fun p q hp => hp.elim
  · refine ⟨fun q hq => ?_, nofun, nofun, List.nodup_nil⟩
    change (if q = initproc then ProcState.runnable else .unused) = .zombie at hq
    split at hq <;> cases hq

theorem takeWait_state (h : σ.takeWait t c = some τ) : τ.state = σ.state := by
  obtain ⟨-, rfl⟩ := of_guard h
  rfl

theorem takeLock_state (h : σ.takeLock t p c = some τ) : τ.state = σ.state := by
  obtain ⟨-, rfl⟩ := of_guard h
  rfl

theorem state_of_update {st : ProcState} (hz : σ.state q = .zombie) (hst : st ≠ .unused) :
    update σ.state p st q ≠ .unused := by
  rcases eq_or_ne q p with rfl | hqp
  · rwa [update_self]
  · rw [update_of_ne hqp, hz]
    nofun

theorem wakeRound_state {j r : Fin n} (h : σ.wakeRound t j r c = some τ) (hz : σ.state q = .zombie) :
    τ.state q ≠ .unused := by
  unfold wakeRound at h
  split at h
  · cases h
    show σ.state q ≠ .unused
    rw [hz]
    nofun
  · obtain ⟨-, rfl⟩ := of_guard h
    dsimp only
    split
    · exact state_of_update hz nofun
    · rw [hz]
      nofun

/-- Whose slot a step frees. -/
theorem freed_of_next {ok : Bool} (hstep : σ.next initproc t ok = some τ) (hz : σ.state q = .zombie)
    (hu : τ.state q = .unused) :
    σ.pc t = .forkFill q ∨ σ.pc t = .waitLook q ∧ ok = true ∧
      τ.waited = (t, ⟨q, σ.gen q, σ.pid q, σ.xstate q⟩) :: σ.waited := by
  have hne : τ.state q ≠ σ.state q := by
    rw [hz, hu]
    nofun
  have hfree : ∀ i, update σ.state i .unused q = .unused → i = q := by
    intro i hi
    by_contra hc
    rw [update_of_ne (Ne.symm hc), hz] at hi
    cases hi
  unfold FamilySys.next at hstep
  cases hpc : σ.pc t <;> simp only [hpc] at hstep
  case allocFound | forkStart | exitState | sleepState =>
    cases hstep
    exact absurd hu (state_of_update hz nofun)
  case wakeInit =>
    split at hstep
    · exact absurd hu (wakeRound_state hstep hz)
    · cases hstep
      exact absurd rfl hne
  case wakeParent =>
    split at hstep
    · cases hstep
      exact absurd rfl hne
    · split at hstep
      · exact absurd hu (wakeRound_state hstep hz)
      · cases hstep
        exact absurd rfl hne
  case forkFill i =>
    split at hstep
    · cases hstep
      exact absurd rfl hne
    · cases hstep
      rw [hfree i hu]
      exact .inl rfl
  case waitLook i =>
    split at hstep
    · split at hstep
      · rename_i hok
        cases hstep
        obtain rfl := hfree i hu
        exact .inr ⟨rfl, hok, rfl⟩
      · cases hstep
        exact absurd rfl hne
    · cases hstep
      exact absurd rfl hne
  -- the other steps change no state
  all_goals repeat' split at hstep
  all_goals first
    | exact absurd (congrFun (takeWait_state hstep) q) hne
    | exact absurd (congrFun (takeLock_state hstep) q) hne
    | (obtain rfl := Option.some.inj hstep; exact absurd rfl hne)
    | cases hstep

/-- A zombie is freed only by `wait` of its parent, which returns its pid and exit status. -/
theorem Inv.freed (h : σ.Inv initproc) {a : FamilyAction n} (hstep : FamilySys.step initproc σ a = some τ)
    (hz : σ.state q = .zombie) (hu : τ.state q = .unused) :
    ∃ p, a = .next p true ∧ σ.pc p = .waitLook q ∧ σ.parent q = some p ∧
      τ.waited = (p, ⟨q, σ.gen q, σ.pid q, σ.xstate q⟩) :: σ.waited := by
  have hne : τ.state q ≠ σ.state q := by
    rw [hz, hu]
    nofun
  cases a with
  | next p ok =>
    obtain ⟨-, hτ⟩ := Option.ite_none_right_eq_some.mp hstep
    rcases freed_of_next hτ hz hu with hpc | ⟨hpc, rfl, hw⟩
    · have hused : σ.state q = .used := (h.facts_at hpc).1
      rw [hz] at hused
      cases hused
    · exact ⟨p, rfl, hpc, (h.facts_at hpc).1, hw⟩
  | fork p | exit p st | wait p | schedRelease p =>
    obtain ⟨-, rfl⟩ := of_guard hstep
    exact absurd rfl hne
  | kill p r =>
    obtain ⟨-, rfl⟩ := of_guard hstep
    dsimp only at hu hne
    split at hu
    · exact absurd hu (state_of_update hz nofun)
    · rw [hz] at hu
      cases hu
  | yield p | sleepOther p | wakeOther p =>
    obtain ⟨-, rfl⟩ := of_guard hstep
    exact absurd hu (state_of_update hz nofun)
  | dispatch p =>
    obtain ⟨-, hτ⟩ := Option.ite_none_right_eq_some.mp hstep
    split at hτ <;> obtain rfl := Option.some.inj hτ <;> exact absurd hu (state_of_update hz nofun)

theorem Placed.pending_of_sleeping (h : σ.Placed) (hs : σ.state p = .sleeping)
    (hc : σ.chan p = some (.proc p)) : σ.Pending p := by
  have hfits := h.fits p
  unfold Pending
  rw [hs] at hfits ⊢
  rw [hc] at hfits
  revert hfits
  cases σ.pc p <;> simp [FamilyPc.Fits, FamilyPc.pending]

/-- **Parenthood and reaping**: in every run, while `wait_lock` is free, every process but `initproc`
that is in use has a live parent, a zombie has no children, and who sleeps in `wait` has no zombie
child; a zombie is freed only by `wait` of its parent; `wait` returns only what `exit` recorded, and no
process twice.

While `wait_lock` is held there is one exception: `reparent` gives a zombie to `initproc` and wakes it
right after. -/
theorem parenthood_and_reaping {as : List (FamilyAction n)}
    (hrun : runFrom (step initproc) (boot initproc) as = some σ) :
    (σ.waitLock = none →
      (∀ q, q ≠ initproc → σ.state q ≠ .unused → σ.state q ≠ .used →
        ∃ r, σ.parent q = some r ∧ σ.state r ≠ .unused ∧ σ.state r ≠ .used ∧ σ.state r ≠ .zombie) ∧
      (∀ z q, σ.state z = .zombie → σ.parent q ≠ some z) ∧
      ∀ p q, σ.state p = .sleeping → σ.chan p = some (.proc p) → σ.parent q = some p →
        σ.state q ≠ .zombie) ∧
    (∀ p q, σ.state p = .sleeping → σ.chan p = some (.proc p) → σ.parent q = some p →
      σ.state q = .zombie → p = initproc ∧ ∃ r st i j, σ.pc r = .wakeInit st i j ∧ j ≤ (p : ℕ)) ∧
    (∀ a τ q, step initproc σ a = some τ → σ.state q = .zombie → τ.state q = .unused →
      ∃ p, a = .next p true ∧ σ.pc p = .waitLook q ∧ σ.parent q = some p ∧
        τ.waited = (p, ⟨q, σ.gen q, σ.pid q, σ.xstate q⟩) :: σ.waited) ∧
    (∀ q, σ.state q = .zombie → ⟨q, σ.gen q, σ.pid q, σ.xstate q⟩ ∈ σ.exited) ∧
    (∀ w ∈ σ.waited, w.2 ∈ σ.exited) ∧ (σ.waited.map fun w => (w.2.slot, w.2.gen)).Nodup := by
  have h : σ.Inv initproc :=
    runFrom_invariant (I := Inv initproc) (fun _ _ _ hI hs => hI.step hs) (boot_inv initproc) hrun
  have hcovered : ∀ p q, σ.state p = .sleeping → σ.chan p = some (.proc p) → σ.parent q = some p →
      σ.state q = .zombie → p = initproc ∧ ∃ r st i j, σ.pc r = .wakeInit st i j ∧ j ≤ (p : ℕ) :=
    fun p q hs hc hq hz => h.kin.covered p q (h.placed.pending_of_sleeping hs hc) hq hz
  refine ⟨fun hfree => ⟨fun q hq hun hus => ?_, fun z q hz hq => ?_, fun p q hs hc hq hz => ?_⟩,
    hcovered, fun a τ q hstep hz hu => h.freed hstep hz hu, h.recorded.zombie, h.recorded.exited,
    h.recorded.once⟩
  · obtain ⟨r, hr⟩ := Option.ne_none_iff_exists'.mp (h.kin.parented q hq hun hus)
    have halive := h.kin.alive q r hr
    refine ⟨r, hr, ?_, ?_, ?_⟩ <;> intro hc <;> rw [hc] at halive <;> cases halive
  · have halive := h.kin.alive q z hq
    rw [hz] at halive
    cases halive
  · obtain ⟨-, r, st, i, j, hr, -⟩ := hcovered p q hs hc hq hz
    have hwl := h.placed.wait r (hr ▸ rfl)
    rw [hfree] at hwl
    cases hwl

/-- `initproc` forks a child and sleeps in `wait`; the child exits with status 7. -/
theorem parenthood_and_reaping_child :
    ∃ σ : FamilySys 2,
      runFrom (step 0) (boot 0)
        ([.dispatch 0, .fork 0] ++ List.replicate 11 (.next 0 true) ++ [.wait 0] ++
          List.replicate 11 (.next 0 true) ++ [.schedRelease 0, .dispatch 1, .exit 1 7] ++
          List.replicate 11 (.next 1 true) ++ [.schedRelease 1]) = some σ ∧
      σ.waitLock = none ∧ σ.state 1 = .zombie ∧ σ.state 0 = .runnable ∧
      ⟨1, 1, σ.pid 1, 7⟩ ∈ σ.exited ∧
      ∃ r, σ.parent 1 = some r ∧ σ.state r ≠ .zombie := by
  have hrun : ((runFrom (step 0) (boot (0 : Fin 2))
      ([.dispatch 0, .fork 0] ++ List.replicate 11 (.next 0 true) ++ [.wait 0] ++
        List.replicate 11 (.next 0 true) ++ [.schedRelease 0, .dispatch 1, .exit 1 7] ++
        List.replicate 11 (.next 1 true) ++ [.schedRelease 1])).any fun σ =>
      decide (σ.waitLock = none ∧ σ.state 1 = .zombie ∧ σ.state 0 = .runnable ∧ σ.gen 1 = 1 ∧
        σ.xstate 1 = 7)) = true := by
    decide +kernel
  obtain ⟨σ, hσ, hd⟩ := (Option.any_eq_true _ _).mp hrun
  obtain ⟨hw, hz, h0, hg, hx⟩ := of_decide_eq_true hd
  obtain ⟨hfree, -, -, hexited, -⟩ := parenthood_and_reaping hσ
  have hmem := hexited 1 hz
  rw [hg, hx] at hmem
  obtain ⟨r, hr, -, -, hne⟩ := (hfree hw).1 1 (by decide) (by rw [hz]; nofun) (by rw [hz]; nofun)
  exact ⟨σ, hσ, hw, hz, h0, hmem, r, hr, hne⟩

end FamilySys

end Xv6
