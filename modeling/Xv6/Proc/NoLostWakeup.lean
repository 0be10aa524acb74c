import Xv6.Lib.Update
import Xv6.Proc.Wakeup

/-! # No wakeup is lost

A process that found the condition false holds its `p->lock` from before it releases `lk` until it
is `SLEEPING` and switched away. Whoever makes the condition true does so under `lk` and then locks
every other process in `wakeup`, so it comes to such a process only when that one is asleep. The
invariant is `Inv.covered`: while the condition is true and a process is on its way to sleep or asleep,
some thread has `lk` and will still look at that process. -/

namespace Xv6

open Function (forall_update_iff update update_of_ne update_self)

namespace WaitPc

variable {n : ℕ} {Ch : Type*}

def hasLk : WaitPc n Ch → Bool
  | .crit .. | .scan .. | .look .. | .looked .. | .sleepLock | .sleepRelease => true
  | _ => false

/-- The `p->lock` that a thread has, `me` being its process. -/
def holds (me : Option (Fin n)) : WaitPc n Ch → Option (Fin n)
  | .look i _ | .looked i _ | .killing i _ | .killed i => some i
  | .sleepRelease | .sleepChan | .sleepState | .own .. | .sched _ | .on _ | .tidied => me
  | _ => none

/-- The thread will still look at process `p` in `wakeup`. -/
def covers (p : Fin n) : WaitPc n Ch → Prop
  | .crit owes _ => owes = true
  | .scan i _ => i ≤ p
  | .look i _ => i ≤ p
  | .looked i _ => i < p
  | _ => False

/-- The process found the condition false, released `lk`, and has not been woken. -/
def pending (st : ProcState) : WaitPc n Ch → Prop
  | .sleepChan | .sleepState | .sched .sleep => True
  | .off .sleep => st = .sleeping
  | _ => False

theorem pending.of_sleeping {st st' : ProcState} {c : WaitPc n Ch} (h : c.pending st)
    (hst : st = .sleeping → st' = .sleeping) : c.pending st' := by
  cases c with
  | sched w => cases w <;> exact h
  | off w =>
    cases w with
    | sleep => exact hst h
    | _ => exact h
  | _ => exact h

/-- How the place of a process fits its state, its channel and the condition. -/
def Fits (ch : Ch) (st : ProcState) (chan : Option Ch) (cond : Bool) : WaitPc n Ch → Prop
  | .sleepLock | .sleepRelease => st = .running ∧ chan ≠ some ch ∧ cond = false
  | .sleepState => st = .running ∧ chan = some ch
  | .own w ch' => st = .running ∧ chan ≠ some ch ∧ w ≠ .sleep ∧ ch' ≠ some ch
  | .sched .sleep | .off .sleep => chan = some ch
  | .sched _ | .off _ => chan ≠ some ch
  | .on .sleep => st = .running ∧ chan = some ch
  | _ => st = .running ∧ chan ≠ some ch

theorem Fits.of_plain {ch : Ch} {st : ProcState} {chan : Option Ch} {cond cond' : Bool}
    {c c' : WaitPc n Ch} (h : c.Fits ch st chan cond) (hc : c.plain = true) (hc' : c'.plain = true) :
    c'.Fits ch st chan cond' := by
  have hst : st = .running ∧ chan ≠ some ch := by
    cases c <;> first | exact h | cases hc
  cases c' <;> first | exact hst | cases hc'

/-- The condition matters only to who has `lk`. -/
theorem Fits.of_not_hasLk {ch : Ch} {st : ProcState} {chan : Option Ch} {cond cond' : Bool}
    {c : WaitPc n Ch} (h : c.Fits ch st chan cond) (hc : c.hasLk = false) :
    c.Fits ch st chan cond' := by
  cases c with
  | sched w => cases w <;> exact h
  | off w => cases w <;> exact h
  | on w => cases w <;> exact h
  | sleepLock => cases hc
  | sleepRelease => cases hc
  | _ => exact h

/-- A process that is asleep may be made runnable wherever it is. -/
theorem Fits.wake {ch : Ch} {st : ProcState} {chan : Option Ch} {cond : Bool} {c : WaitPc n Ch}
    (h : c.Fits ch st chan cond) (hst : st = .sleeping) : c.Fits ch .runnable chan cond := by
  subst hst
  cases c with
  | sched w => cases w <;> exact h
  | off w => cases w <;> exact h
  | on w => cases w <;> cases h.1
  | _ => cases h.1

theorem plain_pc (r : Ret) : (r.pc : WaitPc n Ch).plain = true := by
  cases r <;> rfl

end WaitPc

namespace WaitSys

variable {n : ℕ} {C Ch : Type*} {ch : Ch} {σ : WaitSys n C Ch} {t : Thread n C} {p q : Fin n}

/-- Process `p` found the condition false, released `lk`, and has not been woken. -/
def Pending (σ : WaitSys n C Ch) (p : Fin n) : Prop := (σ.pc (.proc p)).pending (σ.state p)

/-- What each thread has, and where each process is. -/
structure Placed (ch : Ch) (σ : WaitSys n C Ch) : Prop where
  lk_eq : ∀ t, (σ.pc t).hasLk = true → σ.lk = some t
  locked : ∀ t q, (σ.pc t).holds t.myproc = some q → σ.lock q = some (.thread t)
  fits : ∀ p, (σ.pc (.proc p)).Fits ch (σ.state p) (σ.chan p) σ.cond

variable [DecidableEq C]

namespace Placed

omit [DecidableEq C] in
theorem lk_at (h : σ.Placed ch) {c : WaitPc n Ch} (hpc : σ.pc t = c) (hc : c.hasLk = true) :
    σ.lk = some t :=
  h.lk_eq t (hpc ▸ hc)

omit [DecidableEq C] in
theorem lock_at (h : σ.Placed ch) {c : WaitPc n Ch} (hpc : σ.pc t = c)
    (hc : c.holds t.myproc = some q) : σ.lock q = some (.thread t) :=
  h.locked t q (hpc ▸ hc)

omit [DecidableEq C] in
theorem fits_at (h : σ.Placed ch) {c : WaitPc n Ch} (hpc : σ.pc (.proc p) = c) :
    c.Fits ch (σ.state p) (σ.chan p) σ.cond :=
  hpc ▸ h.fits p

/-- A thread goes to `c`, taking nothing from the others. -/
theorem change (h : σ.Placed ch) {c : WaitPc n Ch} {st : Fin n → ProcState} {chn : Fin n → Option Ch}
    {lock : Fin n → Option (Holder n C)} {lk : Option (Thread n C)} {cond : Bool}
    (hlk : c.hasLk = true → lk = some t)
    (hlkOthers : ∀ u, u ≠ t → σ.lk = some u → lk = some u)
    (hlock : ∀ q, c.holds t.myproc = some q → lock q = some (.thread t))
    (hlockOthers : ∀ u q, u ≠ t → σ.lock q = some (.thread u) → lock q = some (.thread u))
    (hself : ∀ p, t = .proc p → c.Fits ch (st p) (chn p) cond)
    (hothers : ∀ p, t ≠ .proc p → (σ.pc (.proc p)).Fits ch (st p) (chn p) cond) :
    Placed ch ⟨st, chn, lock, lk, cond, update σ.pc t c⟩ := by
  constructor <;> dsimp only
  case lk_eq =>
    exact (forall_update_iff σ.pc fun u c => c.hasLk = true → lk = some u).mpr
      ⟨hlk, fun u hut hu => hlkOthers u hut (h.lk_eq u hu)⟩
  case locked =>
    exact (forall_update_iff σ.pc fun u c => ∀ q, c.holds u.myproc = some q →
      lock q = some (.thread u)).mpr ⟨hlock, fun u hut q hu => hlockOthers u q hut (h.locked u q hu)⟩
  case fits =>
    intro p
    by_cases hp : t = .proc p
    · rw [← hp, update_self]
      exact hself p hp
    · rw [update_of_ne (Ne.symm hp)]
      exact hothers p hp

/-- A thread moves between places off the way to `sched`. -/
theorem plain (h : σ.Placed ch) {c : WaitPc n Ch} {lock : Fin n → Option (Holder n C)}
    {lk : Option (Thread n C)} (hfrom : (σ.pc t).plain = true) (hto : c.plain = true)
    (hlk : c.hasLk = true → lk = some t)
    (hlkOthers : ∀ u, u ≠ t → σ.lk = some u → lk = some u)
    (hlock : ∀ i, c.holds t.myproc = some i → lock i = some (.thread t))
    (hlockOthers : ∀ u i, u ≠ t → σ.lock i = some (.thread u) → lock i = some (.thread u)) :
    Placed ch ⟨σ.state, σ.chan, lock, lk, σ.cond, update σ.pc t c⟩ := by
  apply h.change hlk hlkOthers hlock hlockOthers
  case hself =>
    rintro p rfl
    exact (h.fits p).of_plain hfrom hto
  case hothers => exact fun p _ => h.fits p

/-- A thread moves, keeping the locks it has. -/
theorem move (h : σ.Placed ch) {c₀ c : WaitPc n Ch} (hpc : σ.pc t = c₀) (hfrom : c₀.plain = true)
    (hto : c.plain = true) (hlk : c.hasLk = c₀.hasLk) (hlock : c.holds t.myproc = c₀.holds t.myproc) :
    Placed ch { σ with pc := update σ.pc t c } := by
  apply h.plain (hpc ▸ hfrom) hto
  case hlk => exact fun hc => h.lk_at hpc (hlk ▸ hc)
  case hlkOthers => exact fun _ _ hu => hu
  case hlock => exact fun i hi => h.lock_at hpc (hlock ▸ hi)
  case hlockOthers => exact fun _ _ _ hu => hu

/-- A thread acquires or releases the lock of `q`, which no other thread has. -/
theorem relock (h : σ.Placed ch) {c₀ c : WaitPc n Ch} {l : Option (Holder n C)} (hpc : σ.pc t = c₀)
    (hfree : ∀ u, u ≠ t → σ.lock q ≠ some (.thread u))
    (hlock : ∀ i, c.holds t.myproc = some i → i = q ∧ l = some (.thread t))
    (hfrom : c₀.plain = true := by rfl) (hto : c.plain = true := by rfl)
    (hlk : c.hasLk = c₀.hasLk := by rfl) :
    Placed ch { σ with
      lock := update σ.lock q l
      pc := update σ.pc t c } := by
  apply h.plain (hpc ▸ hfrom) hto
  case hlk => exact fun hc => h.lk_at hpc (hlk ▸ hc)
  case hlkOthers => exact fun _ _ hu => hu
  case hlock =>
    intro i hi
    obtain ⟨rfl, hl⟩ := hlock i hi
    rw [update_self, hl]
  case hlockOthers =>
    intro u i hu hi
    have hiq : i ≠ q := fun hc => hfree u hu (hc ▸ hi)
    rwa [update_of_ne hiq]

omit [DecidableEq C] in
/-- Nobody else has a lock that the thread has. -/
theorem held (h : σ.Placed ch) {c₀ : WaitPc n Ch} (hpc : σ.pc t = c₀)
    (hq : c₀.holds t.myproc = some q := by rfl) : ∀ u, u ≠ t → σ.lock q ≠ some (.thread u) := by
  intro u hu hc
  rw [h.lock_at hpc hq] at hc
  exact hu (Holder.thread.inj (Option.some.inj hc)).symm

/-- A thread that has the lock of `q` wakes it if it is asleep. -/
theorem wake (h : σ.Placed ch) {c₀ c : WaitPc n Ch} {P : Prop} [Decidable P] (hpc : σ.pc t = c₀)
    (hfrom : c₀.plain = true) (hto : c.plain = true) (hlk : c.hasLk = c₀.hasLk)
    (hlock : c.holds t.myproc = c₀.holds t.myproc) (hasleep : P → σ.state q = .sleeping) :
    Placed ch { σ with
      state := if P then update σ.state q .runnable else σ.state
      pc := update σ.pc t c } := by
  have hfits : ∀ p, (σ.pc (.proc p)).Fits ch
      ((if P then update σ.state q .runnable else σ.state) p) (σ.chan p) σ.cond := by
    intro p
    split
    · rename_i hP
      rcases eq_or_ne p q with rfl | hpq
      · rw [update_self]
        exact (h.fits p).wake (hasleep hP)
      · rw [update_of_ne hpq]
        exact h.fits p
    · exact h.fits p
  apply h.change
  case hlk => exact fun hc => h.lk_at hpc (hlk ▸ hc)
  case hlkOthers => exact fun _ _ hu => hu
  case hlock => exact fun i hi => h.lock_at hpc (hlock ▸ hi)
  case hlockOthers => exact fun _ _ _ hu => hu
  case hself =>
    rintro p rfl
    exact (hfits p).of_plain (hpc ▸ hfrom) hto
  case hothers => exact fun p _ => hfits p

/-- A process changes its own state, channel and lock, which no other thread has. -/
theorem own (h : σ.Placed ch) {c : WaitPc n Ch} {st : Fin n → ProcState} {chn : Fin n → Option Ch}
    {lock : Fin n → Option (Holder n C)} {lk : Option (Thread n C)}
    (hfree : ∀ u, u ≠ .proc p → σ.lock p ≠ some (.thread u))
    (hsame : ∀ q, q ≠ p → st q = σ.state q ∧ chn q = σ.chan q ∧ lock q = σ.lock q)
    (hlock : ∀ i, c.holds (some p) = some i → i = p ∧ lock p = some (.thread (.proc p)))
    (hfits : c.Fits ch (st p) (chn p) σ.cond)
    (hlk : c.hasLk = true → lk = some (.proc p) := by nofun)
    (hlkOthers : ∀ u, u ≠ .proc p → σ.lk = some u → lk = some u := by exact fun _ _ hu => hu) :
    Placed ch ⟨st, chn, lock, lk, σ.cond, update σ.pc (.proc p) c⟩ := by
  apply h.change hlk hlkOthers
  case hlock =>
    intro i hi
    obtain ⟨rfl, hl⟩ := hlock i hi
    exact hl
  case hlockOthers =>
    intro u i hu hi
    rcases eq_or_ne i p with rfl | hip
    · exact absurd hi (hfree u hu)
    · rwa [(hsame i hip).2.2]
  case hself =>
    intro q hq
    obtain rfl := Thread.proc.inj hq
    exact hfits
  case hothers =>
    intro q hq
    have hqp : q ≠ p := fun hc => hq (hc ▸ rfl)
    rw [(hsame q hqp).1, (hsame q hqp).2.1]
    exact h.fits q

/-- A process that has its own lock changes its state and channel under it. -/
theorem ownHeld (h : σ.Placed ch) {c₀ c : WaitPc n Ch} {st : Fin n → ProcState}
    {chn : Fin n → Option Ch} {lk : Option (Thread n C)} (hpc : σ.pc (.proc p) = c₀)
    (hsame : ∀ q, q ≠ p → st q = σ.state q ∧ chn q = σ.chan q)
    (hfits : c.Fits ch (st p) (chn p) σ.cond) (hheld : c₀.holds (some p) = some p := by rfl)
    (hlock : c.holds (some p) = some p := by rfl) (hlk : c.hasLk = true → lk = some (.proc p) := by nofun)
    (hlkOthers : ∀ u, u ≠ .proc p → σ.lk = some u → lk = some u := by exact fun _ _ hu => hu) :
    Placed ch ⟨st, chn, σ.lock, lk, σ.cond, update σ.pc (.proc p) c⟩ := by
  refine h.own (h.held hpc hheld) (fun q hq => ⟨(hsame q hq).1, (hsame q hq).2, rfl⟩) ?_ hfits hlk hlkOthers
  intro i hi
  rw [hlock, Option.some.injEq] at hi
  exact ⟨hi.symm, h.lock_at hpc hheld⟩

omit [DecidableEq C] in
/-- The scheduler takes or releases a lock. -/
theorem sched (h : σ.Placed ch) {l : Option (Holder n C)}
    (hfree : ∀ u, σ.lock p ≠ some (.thread u)) :
    Placed ch { σ with lock := update σ.lock p l } := by
  refine ⟨h.lk_eq, fun u i hu => ?_, h.fits⟩
  have hi := h.locked u i hu
  have hip : i ≠ p := fun hc => hfree u (hc ▸ hi)
  dsimp only
  rwa [update_of_ne hip]

end Placed

section

variable [DecidableEq Ch]

theorem Placed.step {τ : WaitSys n C Ch} (h : σ.Placed ch) (hstep : Step ch σ τ) : τ.Placed ch := by
  cases hstep with
  | acquire t r hpc hlk =>
    apply h.plain hpc rfl (fun _ => rfl)
    case hlkOthers =>
      intro u _ hu
      rw [hlk] at hu
      cases hu
    case hlock => nofun
    case hlockOthers => exact fun _ _ _ hu => hu
  | setCond t b owes r hpc =>
    have hlk := h.lk_at hpc rfl
    apply h.change (fun _ => hlk) (fun _ _ hu => hu)
    case hlock =>
      intro i hi
      cases hi
    case hlockOthers => exact fun _ _ _ hu => hu
    case hself =>
      rintro p rfl
      exact (h.fits p).of_plain (hpc ▸ rfl) rfl
    case hothers =>
      -- a process that has seen the condition false still has `lk`
      intro p hp
      refine (h.fits p).of_not_hasLk ?_
      by_contra hc
      rw [Bool.not_eq_false] at hc
      exact hp (Option.some.inj (hlk.symm.trans (h.lk_eq _ hc)))
  | release t r hpc =>
    have hlk := h.lk_at hpc rfl
    apply h.plain (hpc ▸ rfl) (WaitPc.plain_pc r)
    case hlk =>
      intro hc
      cases r <;> cases hc
    case hlkOthers =>
      intro u hu hlk'
      exact absurd (Option.some.inj (hlk'.symm.trans hlk)) hu
    case hlock =>
      intro i hi
      cases r <;> cases hi
    case hlockOthers => exact fun _ _ _ hu => hu
  | wakeup t owes r hpc => exact h.move hpc rfl rfl rfl rfl
  | scanSelf t i r hpc hme => exact h.move hpc rfl rfl rfl rfl
  | scanLock t i r hpc hlock =>
    exact h.relock hpc (by rw [hlock]; nofun) fun _ hi => ⟨(Option.some.inj hi).symm, rfl⟩
  | scanEnd t i r hpc hi => exact h.move hpc rfl rfl rfl rfl
  | scanAct t i r hpc => exact h.wake hpc rfl rfl rfl rfl fun hc => hc.1
  | scanUnlock t i r hpc => exact h.relock hpc (h.held hpc) nofun
  | wait p hpc hcond =>
    have hfits := h.fits_at hpc
    apply h.change (fun _ => h.lk_at hpc rfl) (fun _ _ hu => hu)
    case hlock =>
      intro i hi
      cases hi
    case hlockOthers => exact fun _ _ _ hu => hu
    case hself =>
      intro q hq
      obtain rfl := Thread.proc.inj hq
      exact ⟨hfits.1, hfits.2, hcond⟩
    case hothers => exact fun q _ => h.fits q
  | sleepLock p hpc hlock =>
    have hfits := h.fits_at hpc
    exact h.own (by rw [hlock]; nofun) (fun _ hq => ⟨rfl, rfl, update_of_ne hq ..⟩)
      (fun _ hi => ⟨(Option.some.inj hi).symm, update_self ..⟩) hfits fun _ => h.lk_at hpc rfl
  | sleepRelease p hpc =>
    have hfits := h.fits_at hpc
    refine h.ownHeld hpc (fun _ _ => ⟨rfl, rfl⟩) ⟨hfits.1, hfits.2.1⟩ rfl rfl nofun fun u hu hlk => ?_
    exact absurd (Option.some.inj (hlk.symm.trans (h.lk_at hpc rfl))) hu
  | sleepChan p hpc =>
    have hfits := h.fits_at hpc
    exact h.ownHeld hpc (fun _ hq => ⟨rfl, update_of_ne hq ..⟩) ⟨hfits.1, update_self ..⟩
  | sleepState p hpc =>
    have hfits := h.fits_at hpc
    exact h.ownHeld hpc (fun _ hq => ⟨update_of_ne hq .., rfl⟩) hfits.2
  | lockOwn p w ch' r hpc hlock hw hch =>
    have hfits : (WaitPc.idle : WaitPc n Ch).Fits ch (σ.state p) (σ.chan p) σ.cond :=
      (h.fits_at hpc).of_plain (WaitPc.plain_pc r) rfl
    exact h.own (by rw [hlock]; nofun) (fun _ hq => ⟨rfl, rfl, update_of_ne hq ..⟩)
      (fun _ hi => ⟨(Option.some.inj hi).symm, update_self ..⟩) ⟨hfits.1, hfits.2, hw, hch⟩
  | ownState p w ch' st hpc =>
    obtain ⟨-, hne, hw, hch⟩ := h.fits_at hpc
    have hchan : ch'.or (σ.chan p) ≠ some ch := by
      cases ch' with
      | none => exact hne
      | some _ => exact hch
    refine h.ownHeld hpc (fun _ hq => ⟨update_of_ne hq .., update_of_ne hq ..⟩) ?_
    rw [update_self, update_self]
    cases w with
    | sleep => exact absurd rfl hw
    | _ => exact hchan
  | swtch p w hpc =>
    refine h.own (h.held hpc) (fun _ hq => ⟨rfl, rfl, update_of_ne hq ..⟩) nofun ?_
    have hfits := h.fits_at hpc
    cases w <;> exact hfits
  | sched p l hlock => exact h.sched hlock
  | run p w hpc hlock =>
    have hfits := h.fits_at hpc
    refine h.own (by rw [hlock]; nofun) (fun _ hq => ⟨update_of_ne hq .., rfl, update_of_ne hq ..⟩)
      (fun _ hi => ⟨(Option.some.inj hi).symm, update_self ..⟩) ?_
    rw [update_self]
    cases w <;> exact ⟨rfl, hfits⟩
  | tidySleep p hpc =>
    have hfits := h.fits_at hpc
    refine h.ownHeld hpc (fun _ hq => ⟨rfl, update_of_ne hq ..⟩) ⟨hfits.1, ?_⟩
    rw [update_self]
    nofun
  | unlockOwn p chn r hpc hchn =>
    have hfits : σ.state p = .running ∧ σ.chan p ≠ some ch := by
      obtain hpc | ⟨w, hw, hpc⟩ := hpc
      · exact h.fits_at hpc
      · have hfits := h.fits_at hpc
        cases w with
        | sleep => exact absurd rfl hw
        | _ => exact hfits
    have hfree : ∀ u, u ≠ .proc p → σ.lock p ≠ some (.thread u) := by
      obtain hpc | ⟨w, -, hpc⟩ := hpc
      · exact h.held hpc
      · exact h.held hpc
    refine h.own hfree (fun _ hq => ⟨rfl, update_of_ne hq .., update_of_ne hq ..⟩)
      (by cases r <;> nofun) ?_ (by cases r <;> nofun)
    have hne : chn ≠ some ch := by
      rcases hchn with rfl | rfl
      · nofun
      · exact hfits.2
    rw [update_self]
    cases r <;> exact ⟨hfits.1, hne⟩
  | kill p q hit hpc hlock =>
    exact h.relock hpc (by rw [hlock]; nofun) fun _ hi => ⟨(Option.some.inj hi).symm, rfl⟩
  | killAct p q hit hpc => exact h.wake hpc rfl rfl rfl rfl fun hc => hc.2
  | killUnlock p q hpc => exact h.relock hpc (h.held hpc) nofun

/-- **The invariant**: while the condition is true, a process on its way to sleep or asleep will still
be looked at by a thread that has `lk`. -/
structure Inv (ch : Ch) (σ : WaitSys n C Ch) : Prop where
  placed : σ.Placed ch
  covered : ∀ p, σ.Pending p → σ.cond = false ∨ ∃ t, σ.lk = some t ∧ (σ.pc t).covers p

omit [DecidableEq Ch] in
/-- Who pends after a step of thread `t` pended before, if `t` has not begun to pend. -/
theorem Pending.of_update {τ : WaitSys n C Ch} {c : WaitPc n Ch} (hp : τ.Pending p)
    (hpc : τ.pc = update σ.pc t c)
    (hself : ∀ q, t = .proc q → c.pending (τ.state q) → (σ.pc t).pending (σ.state q))
    (hothers : ∀ q, t ≠ .proc q → τ.state q = .sleeping → σ.state q = .sleeping) : σ.Pending p := by
  unfold Pending at hp ⊢
  rw [hpc] at hp
  by_cases ht : t = .proc p
  · subst ht
    rw [update_self] at hp
    exact hself p rfl hp
  · rw [update_of_ne (Ne.symm ht)] at hp
    exact hp.of_sleeping (hothers p ht)

omit [DecidableEq C] [DecidableEq Ch] in
/-- A process that pends while another thread has its lock is asleep. -/
theorem Placed.asleep_of_pending (h : σ.Placed ch) (hlock : σ.lock p = some (.thread t))
    (ht : t ≠ .proc p) (hp : σ.Pending p) : σ.pc (.proc p) = .off .sleep ∧ σ.state p = .sleeping := by
  have hheld : (σ.pc (.proc p)).holds (some p) ≠ some p := by
    intro hc
    have hown := h.locked (.proc p) p hc
    rw [hlock] at hown
    exact ht (Holder.thread.inj (Option.some.inj hown))
  unfold Pending at hp
  revert hp hheld
  cases σ.pc (.proc p) with
  | off w =>
    intro hp _
    cases w with
    | sleep => exact ⟨rfl, hp⟩
    | _ => exact hp.elim
  | sleepChan => exact fun _ hheld => absurd rfl hheld
  | sleepState => exact fun _ hheld => absurd rfl hheld
  | sched w => exact fun _ hheld => absurd rfl hheld
  | _ => exact fun hp _ => hp.elim

omit [DecidableEq C] [DecidableEq Ch] in
theorem sleeping_of_wake {st : Fin n → ProcState} {P : Prop} [Decidable P]
    (h : (if P then update st q .runnable else st) p = .sleeping) : st p = .sleeping := by
  split at h
  · rcases eq_or_ne p q with rfl | hpq
    · rw [update_self] at h
      cases h
    · rwa [update_of_ne hpq] at h
  · exact h

omit [DecidableEq C] [DecidableEq Ch] in
theorem sleeping_of_own {st : Fin n → ProcState} {new : ProcState}
    (hne : (.proc q : Thread n C) ≠ .proc p) (h : update st q new p = .sleeping) :
    st p = .sleeping := by
  have hpq : p ≠ q := by
    rintro rfl
    exact hne rfl
  rwa [update_of_ne hpq] at h

namespace Inv

omit [DecidableEq Ch] in
/-- A step of one thread after which no more processes pend, and the thread covers what it did. -/
theorem keep (h : σ.Inv ch) {c₀ c : WaitPc n Ch} {τ : WaitSys n C Ch} (hpc₀ : σ.pc t = c₀)
    (hpc : τ.pc = update σ.pc t c) (hp : τ.Pending p)
    (hcov : ∀ p, σ.Pending p → τ.Pending p → c₀.covers p → c.covers p := by
      exact fun _ _ _ hc => hc.elim)
    (hself : ∀ q, t = .proc q → c.pending (τ.state q) → c₀.pending (σ.state q) := by
      exact fun _ _ hc => hc.elim)
    (hothers : ∀ q, t ≠ .proc q → τ.state q = .sleeping → σ.state q = .sleeping := by
      exact fun _ _ hs => hs)
    (hlk : τ.lk = σ.lk := by rfl) (hcond : τ.cond = σ.cond := by rfl) :
    τ.cond = false ∨ ∃ u, τ.lk = some u ∧ (τ.pc u).covers p := by
  have hpend : σ.Pending p := by
    refine hp.of_update hpc ?_ hothers
    rw [hpc₀]
    exact hself
  rw [hcond, hlk, hpc]
  refine (h.covered p hpend).imp_right ?_
  rintro ⟨u, hu, hc⟩
  refine ⟨u, hu, ?_⟩
  rcases eq_or_ne u t with rfl | hut
  · rw [update_self]
    rw [hpc₀] at hc
    exact hcov p hpend hp hc
  · rwa [update_of_ne hut]

theorem step (h : σ.Inv ch) {τ : WaitSys n C Ch} (hstep : Step ch σ τ) : τ.Inv ch := by
  refine ⟨h.placed.step hstep, fun p hp => ?_⟩
  have hplaced := h.placed
  cases hstep with
  | acquire t r hpc hlk =>
    -- nobody had `lk`, so the condition is false if a process pends
    refine (h.covered p ?_).imp_right ?_
    · exact hp.of_update rfl (fun _ _ hc => hc.elim) (fun _ _ hs => hs)
    · rintro ⟨u, hu, -⟩
      rw [hlk] at hu
      cases hu
  | setCond t b owes r hpc =>
    have hlk := hplaced.lk_at hpc rfl
    cases b with
    | false => exact .inl rfl
    | true =>
      refine .inr ⟨t, hlk, ?_⟩
      dsimp only
      rw [update_self]
      have hpend : σ.Pending p := hp.of_update rfl (fun _ _ hc => hc.elim) (fun _ _ hs => hs)
      -- either it becomes true now, or the thread owed a wakeup already
      obtain hfalse | ⟨u, hu, hc⟩ := h.covered p hpend
      · show (owes || (true && !σ.cond)) = true
        rw [hfalse, Bool.not_false, Bool.and_true, Bool.or_true]
      · obtain rfl := Option.some.inj (hlk.symm.trans hu)
        rw [hpc] at hc
        show (owes || (true && !σ.cond)) = true
        rw [show owes = true from hc, Bool.true_or]
  | release t r hpc =>
    have hlk := hplaced.lk_at hpc rfl
    refine .inl ?_
    have hpend : σ.Pending p := by
      refine hp.of_update rfl (fun _ _ hc => ?_) (fun _ _ hs => hs)
      cases r <;> exact hc.elim
    obtain hfalse | ⟨u, hu, hc⟩ := h.covered p hpend
    · exact hfalse
    · obtain rfl := Option.some.inj (hlk.symm.trans hu)
      rw [hpc] at hc
      cases hc
  | wakeup t owes r hpc =>
    exact h.keep hpc rfl hp fun _ _ _ _ => Nat.zero_le _
  | scanSelf t i r hpc hme =>
    -- the caller of `wakeup` does not pend itself
    refine h.keep hpc rfl hp ?_
    intro q hq _ (hi : (i : ℕ) ≤ q)
    have hne : i ≠ q := by
      rintro rfl
      cases t with
      | intr c => cases hme
      | proc j =>
        cases hme
        unfold Pending at hq
        rw [hpc] at hq
        exact hq
    show (i : ℕ) + 1 ≤ q
    omega
  | scanLock t i r hpc hlock =>
    exact h.keep hpc rfl hp fun _ _ _ hc => hc
  | scanEnd t i r hpc hi =>
    refine h.keep hpc rfl hp ?_
    intro q _ _ (hq : i ≤ q)
    omega
  | scanAct t i r hpc =>
    -- `p->lock` is with the thread, so a process that pends is asleep, and is woken now
    refine h.keep hpc rfl hp ?_ (fun _ _ hc => hc.elim) fun q _ => sleeping_of_wake
    intro q hq hq' (hi : (i : ℕ) ≤ q)
    have hne : i ≠ q := by
      rintro rfl
      have ht : t ≠ .proc i := by
        rintro rfl
        unfold Pending at hq
        rw [hpc] at hq
        exact hq
      obtain ⟨hoff, hst⟩ := hplaced.asleep_of_pending (hplaced.lock_at hpc rfl) ht hq
      have hchan : σ.chan i = some ch := hplaced.fits_at hoff
      unfold Pending at hq'
      dsimp only at hq'
      rw [if_pos ⟨hst, hchan⟩, update_self, update_of_ne (Ne.symm ht), hoff] at hq'
      cases hq'
    show (i : ℕ) < q
    omega
  | scanUnlock t i r hpc =>
    exact h.keep hpc rfl hp fun _ _ _ hc => hc
  | wait q hpc hcond => exact .inl hcond
  | sleepLock q hpc hlock => exact .inl (hplaced.fits_at hpc).2.2
  | sleepRelease q hpc => exact .inl (hplaced.fits_at hpc).2.2
  | sleepChan q hpc =>
    exact h.keep hpc rfl hp (fun _ _ _ hc => hc) fun _ _ _ => trivial
  | sleepState q hpc =>
    exact h.keep hpc rfl hp (fun _ _ _ hc => hc) (fun _ _ _ => trivial) fun _ hi => sleeping_of_own hi
  | lockOwn q w ch' r hpc hlock hw hch =>
    refine h.keep hpc rfl hp fun _ _ _ hc => ?_
    cases r <;> exact hc.elim
  | ownState q w ch' st hpc =>
    refine h.keep hpc rfl hp (fun _ _ _ hc => hc.elim) (fun i hi hc => ?_) fun _ hi => sleeping_of_own hi
    have hw := (hplaced.fits_at hpc).2.2.1
    cases w with
    | sleep => exact absurd rfl hw
    | _ => exact hc.elim
  | swtch q w hpc =>
    refine h.keep hpc rfl hp (fun _ _ _ hc => hc.elim) fun i hi hc => ?_
    cases w with
    | sleep => trivial
    | _ => exact hc
  | sched q l hlock => exact h.covered p hp
  | run q w hpc hlock =>
    exact h.keep hpc rfl hp (fun _ _ _ hc => hc.elim) (fun _ _ hc => hc.elim) fun _ hi => sleeping_of_own hi
  | tidySleep q hpc =>
    exact h.keep hpc rfl hp
  | unlockOwn q chn r hpc hchn =>
    refine h.keep rfl rfl hp (fun _ _ _ hc => ?_) fun _ _ hc => ?_
    · obtain hpc | ⟨w, -, hpc⟩ := hpc
      · rw [hpc] at hc
        exact hc.elim
      · rw [hpc] at hc
        exact hc.elim
    · cases r <;> exact hc.elim
  | kill q i hit hpc hlock =>
    exact h.keep hpc rfl hp
  | killAct q i hit hpc =>
    exact h.keep hpc rfl hp (fun _ _ _ hc => hc.elim) (fun _ _ hc => hc.elim) fun q _ => sleeping_of_wake
  | killUnlock q i hpc =>
    exact h.keep hpc rfl hp

end Inv

omit [DecidableEq C] [DecidableEq Ch] in
theorem boot_inv (ch : Ch) (cond : Bool) : (boot n C Ch cond).Inv ch := by
  refine ⟨⟨?_, ?_, fun p => nofun⟩, fun p hp => hp.elim⟩
  · intro t ht
    cases t <;> cases ht
  · intro t q ht
    cases t <;> cases ht

omit [DecidableEq C] [DecidableEq Ch] in
/-- A process that is `SLEEPING` on the channel pends. -/
theorem Placed.pending_of_sleeping (h : σ.Placed ch) (hst : σ.state p = .sleeping)
    (hchan : σ.chan p = some ch) : σ.Pending p := by
  have hfits := h.fits p
  rw [hst, hchan] at hfits
  unfold Pending
  rw [hst]
  revert hfits
  cases σ.pc (.proc p) with
  | sched w =>
    intro hfits
    cases w with
    | sleep => trivial
    | _ => exact hfits rfl
  | off w =>
    intro hfits
    cases w with
    | sleep => rfl
    | _ => exact hfits rfl
  | on w =>
    intro hfits
    cases w <;> cases hfits.1
  | _ =>
    intro hfits
    cases hfits.1

/-- **No lost wakeup**: for any number of processes and CPUs and in every interleaving, when `lk` is
free and the condition is true, no process is `SLEEPING` on the channel. -/
theorem no_lost_wakeup (ch : Ch) (cond : Bool) (as : List (WaitAction n C Ch)) (σ : WaitSys n C Ch)
    (hrun : runFrom (WaitSys.step ch) (boot n C Ch cond) as = some σ) (hlk : σ.lk = none)
    (hcond : σ.cond = true) (p : Fin n) : ¬(σ.state p = .sleeping ∧ σ.chan p = some ch) := by
  rintro ⟨hst, hchan⟩
  have h : σ.Inv ch :=
    runFrom_invariant (I := Inv ch) (fun _ _ _ hI hstep => hI.step (step_inv hstep)) (boot_inv ch cond)
      hrun
  obtain hfalse | ⟨t, ht, -⟩ := h.covered p (h.placed.pending_of_sleeping hst hchan)
  · rw [hcond] at hfalse
    cases hfalse
  · rw [hlk] at ht
    cases ht

end

/-- A process waits, and an interrupt handler makes the condition true and wakes it. -/
def handlerWakes : List (WaitAction 2 (Fin 1) (Fin 1)) :=
  [.pick 0, .run 0, .resume 0, .acquire (.proc 0), .wait 0, .sleepLock 0, .sleepRelease 0, .sleepChan 0,
    .sleepState 0, .swtch 0, .schedRelease 0, .acquire (.intr 0), .setCond (.intr 0) true,
    .wakeup (.intr 0), .scanNext (.intr 0), .scanAct (.intr 0), .scanUnlock (.intr 0),
    .scanNext (.intr 0), .scanAct (.intr 0), .scanUnlock (.intr 0), .scanNext (.intr 0),
    .release (.intr 0)]

theorem no_lost_wakeup_handler : ∃ σ, runFrom (WaitSys.step 0) (boot 2 (Fin 1) (Fin 1) false)
    handlerWakes = some σ ∧ σ.lk = none ∧ σ.cond = true ∧ σ.pc (.proc 0) = .off .sleep ∧
      ¬(σ.state 0 = .sleeping ∧ σ.chan 0 = some 0) := by
  have hany : ((runFrom (WaitSys.step 0) (boot 2 (Fin 1) (Fin 1) false) handlerWakes).any fun σ =>
      decide (σ.lk = none ∧ σ.cond = true ∧ σ.pc (.proc 0) = .off .sleep)) = true := by
    decide +kernel
  obtain ⟨σ, hrun, hσ⟩ := (Option.any_eq_true _ _).mp hany
  obtain ⟨hlk, hcond, hpc⟩ := of_decide_eq_true hσ
  exact ⟨σ, hrun, hlk, hcond, hpc, no_lost_wakeup 0 false handlerWakes σ hrun hlk hcond 0⟩

end WaitSys

end Xv6
