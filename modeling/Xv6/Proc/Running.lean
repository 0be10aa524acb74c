import Xv6.Lib.Update
import Xv6.Proc.Sched

/-! # A running process is on one CPU

The lock of a process is held exactly by the CPU that is at a place where it should be, `c->proc` is
the process whose thread the CPU executes or has just left, and no process is on two CPUs. A state
other than `RUNNING` can be seen together with `c->proc` only inside the hand-over, that is by the
CPU that holds the lock. -/

namespace Xv6

open Function

namespace Exec

variable {P Ch : Type*}

/-- The process whose lock a CPU at this place holds. -/
def holds : Exec P Ch → Option P
  | .sched .scan => none
  | .sched (.locked q) | .sched (.back q) | .sched (.waking q) | .sched (.unlocking q) => some q
  | .proc _ .free => none
  | .proc p (.resumed _) | .proc p (.own _) | .proc p .leaving => some p
  | .proc _ (.other q _) | .proc _ (.done q) => some q

/-- What `c->proc` is at this place. -/
def current : Exec P Ch → Option P
  | .sched (.back q) => some q
  | .sched _ => none
  | .proc p _ => some p

/-- The process that is `RUNNING` at this place: not one that has already changed its state. -/
def runs : Exec P Ch → Option P
  | .sched _ => none
  | .proc _ .leaving => none
  | .proc p _ => some p

variable {e : Exec P Ch} {p : P}

theorem current_of_runs (h : e.runs = some p) : e.current = some p := by
  unfold runs at h
  split at h
  · cases h
  · cases h
  · exact h

/-- In the hand-over the lock is held. -/
theorem holds_of_current (h : e.current = some p) (hr : e.runs ≠ some p) : e.holds = some p := by
  unfold current at h
  split at h
  · exact h
  · cases h
  · cases h
    unfold runs at hr
    split at hr
    · rename_i heq
      cases heq
    · rename_i heq
      cases heq
      rfl
    · rename_i heq
      cases heq
      exact absurd rfl hr

end Exec

/-- The changes of state that the code makes. -/
inductive ProcState.Next : ProcState → ProcState → Prop
  | alloc : Next .unused .used
  | start : Next .used .runnable
  | abandon : Next .used .unused
  | dispatch : Next .runnable .running
  | yield : Next .running .runnable
  | sleep : Next .running .sleeping
  | exit : Next .running .zombie
  | wakeup : Next .sleeping .runnable
  | reap : Next .zombie .unused

namespace Procs

variable {P C Ch : Type*} {s t : Procs P C Ch} {p q : P} {c : C}

/-- What is known of a child that `fork` is making. -/
structure Forks (s : Procs P C Ch) : Prop where
  np_used : ∀ p q, s.np p = some q → s.state q = .used
  np_inj : ∀ p p' q, s.np p = some q → s.np p' = some q → p = p'
  filling : ∀ c p q, s.exec c = .proc p (.other q .fill) →
    s.state q = .used ∧ ∀ p', s.np p' ≠ some q
  starting : ∀ c p q, s.exec c = .proc p (.other q .start) → s.np p = some q

/-- Who holds which lock and who is where. -/
structure Inv (s : Procs P C Ch) : Prop extends s.Forks where
  lock_iff : ∀ q c, s.lock q = some c ↔ (s.exec c).holds = some q
  proc_eq : ∀ c, s.proc c = (s.exec c).current
  one : ∀ c c' p, (s.exec c).current = some p → (s.exec c').current = some p → c = c'
  running : ∀ p, s.state p = .running ↔ ∃ c, (s.exec c).runs = some p

/-- A CPU that still has a process which is not running is in the hand-over, with the lock. -/
theorem Inv.lock_of_current (h : s.Inv) (hc : (s.exec c).current = some p)
    (hst : s.state p ≠ .running) : s.lock p = some c := by
  rw [h.lock_iff]
  refine Exec.holds_of_current hc fun hr => hst ?_
  rw [h.running]
  exact ⟨c, hr⟩

/-- A process that another CPU has locked, and that is not running, is on no CPU. -/
theorem Inv.not_current (h : s.Inv) (hlock : s.lock p = some c) (hc : (s.exec c).current ≠ some p)
    (hst : s.state p ≠ .running) (c' : C) : (s.exec c').current ≠ some p := by
  intro hc'
  have := h.lock_of_current hc' hst
  rw [hlock] at this
  obtain rfl := Option.some.inj this
  exact hc hc'

theorem boot_inv [DecidableEq P] (initproc : P) : (boot initproc : Procs P C Ch).Inv where
  np_used := fun _ _ => nofun
  np_inj := fun _ _ _ => nofun
  filling := fun _ _ _ => nofun
  starting := fun _ _ _ => nofun
  lock_iff := fun _ _ => ⟨nofun, nofun⟩
  proc_eq := fun _ => rfl
  one := fun _ _ _ => nofun
  running := fun p => by
    constructor
    · intro h
      simp only [boot] at h
      split at h <;> cases h
    · rintro ⟨c, hc⟩
      cases hc

/-! ## One step -/

section Step

variable [DecidableEq C] {e e₀ : Exec P Ch}

theorem exec_self (hexec : t.exec = update s.exec c e) : t.exec c = e := by
  rw [hexec, update_self]

theorem exec_of_ne (hexec : t.exec = update s.exec c e) {c' : C} (hc : c' ≠ c) :
    t.exec c' = s.exec c' := by
  rw [hexec, update_of_ne hc]

theorem exec_congr (f : Exec P Ch → Option P) (he : s.exec c = e₀)
    (hexec : t.exec = update s.exec c e) (hf : f e = f e₀) (c' : C) :
    f (t.exec c') = f (s.exec c') := by
  by_cases hc : c' = c
  · rw [hc, exec_self hexec, he, hf]
  · rw [exec_of_ne hexec hc]

theorem Inv.lock_same (h : s.Inv) (he : s.exec c = e₀) (hexec : t.exec = update s.exec c e)
    (hlock : t.lock = s.lock := by rfl) (hholds : e.holds = e₀.holds := by rfl) (q : P) (c' : C) :
    t.lock q = some c' ↔ (t.exec c').holds = some q := by
  rw [hlock, h.lock_iff, exec_congr Exec.holds he hexec hholds]

/-- Only the lock of `q` and only the CPU `c` change. -/
theorem Inv.relock [DecidableEq P] (h : s.Inv) {l : Option C} (he : s.exec c = e₀)
    (hexec : t.exec = update s.exec c e) (hlock : t.lock = update s.lock q l)
    (hq : ∀ c', c' ≠ c → s.lock q ≠ some c' ∧ l ≠ some c')
    (hc : ∀ q', q' ≠ q → e₀.holds ≠ some q' ∧ e.holds ≠ some q')
    (hl : l = some c ↔ e.holds = some q) (q' : P) (c' : C) :
    t.lock q' = some c' ↔ (t.exec c').holds = some q' := by
  rw [hlock, hexec]
  rcases eq_or_ne q' q with rfl | hqq <;> rcases eq_or_ne c' c with rfl | hcc
  · rw [update_self, update_self, hl]
  · rw [update_self, update_of_ne hcc, ← h.lock_iff]
    exact iff_of_false (hq c' hcc).2 (hq c' hcc).1
  · rw [update_self, update_of_ne hqq, h.lock_iff, he]
    exact iff_of_false (hc q' hqq).1 (hc q' hqq).2
  · rw [update_of_ne hqq, update_of_ne hcc, h.lock_iff]

theorem Inv.lock_take [DecidableEq P] (h : s.Inv) (he : s.exec c = e₀)
    (hexec : t.exec = update s.exec c e) (hfree : s.lock q = none)
    (hlock : t.lock = update s.lock q (some c) := by rfl) (hbefore : e₀.holds = none := by rfl)
    (hholds : e.holds = some q := by rfl) :
    ∀ q' c', t.lock q' = some c' ↔ (t.exec c').holds = some q' := by
  refine h.relock he hexec hlock (fun c' hc => ⟨?_, ?_⟩) (fun q' hq => ⟨?_, ?_⟩)
    (iff_of_true rfl hholds)
  · rw [hfree]
    nofun
  · exact fun hl => hc (Option.some.inj hl).symm
  · rw [hbefore]
    nofun
  · rw [hholds]
    exact fun hl => hq (Option.some.inj hl).symm

theorem Inv.lock_drop [DecidableEq P] (h : s.Inv) (he : s.exec c = e₀)
    (hexec : t.exec = update s.exec c e) (hlock : t.lock = update s.lock q none := by rfl)
    (hbefore : e₀.holds = some q := by rfl) (hholds : e.holds = none := by rfl) :
    ∀ q' c', t.lock q' = some c' ↔ (t.exec c').holds = some q' := by
  refine h.relock he hexec hlock (fun c' hc => ⟨?_, nofun⟩) (fun q' hq => ⟨?_, ?_⟩) ?_
  · rw [(h.lock_iff q c).mpr (he ▸ hbefore)]
    exact fun hl => hc (Option.some.inj hl).symm
  · rw [hbefore]
    exact fun hl => hq (Option.some.inj hl).symm
  · rw [hholds]
    nofun
  · rw [hholds]
    exact ⟨nofun, nofun⟩

/-- A CPU whose process is on no other CPU keeps processes apart. -/
theorem Inv.one_of (h : s.Inv) (hexec : t.exec = update s.exec c e)
    (hnew : ∀ p, e.current = some p → ∀ c', c' ≠ c → (s.exec c').current ≠ some p) (c₁ c₂ : C)
    (p : P) (h₁ : (t.exec c₁).current = some p) (h₂ : (t.exec c₂).current = some p) : c₁ = c₂ := by
  by_cases hc₁ : c₁ = c <;> by_cases hc₂ : c₂ = c
  · rw [hc₁, hc₂]
  · rw [hc₁, exec_self hexec] at h₁
    rw [exec_of_ne hexec hc₂] at h₂
    exact absurd h₂ (hnew p h₁ c₂ hc₂)
  · rw [hc₂, exec_self hexec] at h₂
    rw [exec_of_ne hexec hc₁] at h₁
    exact absurd h₁ (hnew p h₂ c₁ hc₁)
  · rw [exec_of_ne hexec hc₁] at h₁
    rw [exec_of_ne hexec hc₂] at h₂
    exact h.one c₁ c₂ p h₁ h₂

theorem Inv.proc_of (h : s.Inv) (hexec : t.exec = update s.exec c e)
    (hproc : t.proc = update s.proc c e.current) (c' : C) : t.proc c' = (t.exec c').current := by
  rw [hproc, hexec]
  rcases eq_or_ne c' c with rfl | hc
  · rw [update_self, update_self]
  · rw [update_of_ne hc, update_of_ne hc, h.proc_eq]

/-- A step of a CPU that makes no child: processes that are `USED` stay so. -/
theorem Forks.same (h : s.Forks) (hexec : t.exec = update s.exec c e) (hnp : t.np = s.np)
    (hstate : ∀ q, s.state q = .used → t.state q = .used)
    (hfill : ∀ p q, e ≠ .proc p (.other q .fill) := by nofun)
    (hstart : ∀ p q, e = .proc p (.other q .start) → s.np p = some q := by nofun) : t.Forks where
  np_used := fun p q hp => by
    rw [hnp] at hp
    exact hstate q (h.np_used p q hp)
  np_inj := by
    rw [hnp]
    exact h.np_inj
  filling := fun c' p q he => by
    by_cases hc : c' = c
    · rw [hc, exec_self hexec] at he
      exact absurd he (hfill p q)
    · rw [exec_of_ne hexec hc] at he
      rw [hnp]
      exact ⟨hstate q (h.filling c' p q he).1, (h.filling c' p q he).2⟩
  starting := fun c' p q he => by
    rw [hnp]
    by_cases hc : c' = c
    · rw [hc, exec_self hexec] at he
      exact hstart p q he
    · rw [exec_of_ne hexec hc] at he
      exact h.starting c' p q he

/-- A step after which the CPU has the same process. -/
theorem Inv.stay (h : s.Inv) (he : s.exec c = e₀) (hexec : t.exec = update s.exec c e)
    (hlock : ∀ q c', t.lock q = some c' ↔ (t.exec c').holds = some q) (hproc : t.proc = s.proc)
    (hcur : e.current = e₀.current) (hforks : t.Forks)
    (hrun : ∀ p, t.state p = .running ↔ ∃ c, (t.exec c).runs = some p) : t.Inv where
  toForks := hforks
  lock_iff := hlock
  proc_eq := fun c' => by rw [hproc, h.proc_eq, exec_congr Exec.current he hexec hcur]
  one := by
    simp only [exec_congr Exec.current he hexec hcur]
    exact h.one
  running := hrun

/-- A step that changes neither a state nor which process is where. -/
theorem Inv.quiet (h : s.Inv) (he : s.exec c = e₀) (hexec : t.exec = update s.exec c e)
    (hlock : ∀ q c', t.lock q = some c' ↔ (t.exec c').holds = some q)
    (hproc : t.proc = s.proc := by rfl) (hstate : t.state = s.state := by rfl)
    (hnp : t.np = s.np := by rfl) (hcur : e.current = e₀.current := by rfl)
    (hruns : e.runs = e₀.runs := by rfl)
    (hfill : ∀ p q, e ≠ .proc p (.other q .fill) := by nofun)
    (hstart : ∀ p q, e = .proc p (.other q .start) → s.np p = some q := by nofun) : t.Inv := by
  refine h.stay he hexec hlock hproc hcur
    (h.toForks.same hexec hnp (fun q hq => by rw [hstate, hq]) hfill hstart) fun p => ?_
  simp only [hstate, h.running, exec_congr Exec.runs he hexec hruns]

/-- `c->proc = 0`. -/
theorem Inv.clear (h : s.Inv) (he : s.exec c = .sched (.back q)) :
    ((s.setProc c none).goto c (.sched (.unlocking q))).Inv := by
  have hexec : ((s.setProc c none).goto c (.sched (.unlocking q))).exec =
      update s.exec c (.sched (.unlocking q)) := rfl
  refine ⟨h.toForks.same hexec rfl fun _ hq => hq, h.lock_same he hexec, h.proc_of hexec rfl,
    h.one_of hexec nofun, fun p => ?_⟩
  simp only [exec_congr Exec.runs he hexec rfl]
  exact h.running p

variable [DecidableEq P] {st : ProcState}

omit [DecidableEq C] in
theorem used_of (hstate : t.state = update s.state q st) (hq : s.state q ≠ .used) (q' : P)
    (hq' : s.state q' = .used) : t.state q' = .used := by
  rw [hstate, update_of_ne, hq']
  rintro rfl
  exact hq hq'

/-- Only the state of `q` changes, and only `q` begins or stops to run. -/
theorem Inv.running_of (h : s.Inv) (he : s.exec c = e₀) (hexec : t.exec = update s.exec c e)
    (hstate : t.state = update s.state q st)
    (hq : st = .running ↔ ∃ c', (t.exec c').runs = some q)
    (hruns : ∀ p, p ≠ q → (e₀.runs = some p ↔ e.runs = some p)) (p : P) :
    t.state p = .running ↔ ∃ c', (t.exec c').runs = some p := by
  rw [hstate]
  rcases eq_or_ne p q with rfl | hp
  · rw [update_self, hq]
  · rw [update_of_ne hp, h.running]
    refine exists_congr fun c' => ?_
    by_cases hc : c' = c
    · rw [hc, exec_self hexec, he, hruns p hp]
    · rw [exec_of_ne hexec hc]

/-- `swtch` to a runnable process that this CPU has locked. -/
theorem Inv.dispatch (h : s.Inv) (he : s.exec c = .sched (.locked q)) (hst : s.state q = .runnable)
    {r : Resume} (hexec : t.exec = update s.exec c (.proc q (.resumed r)))
    (hlock : t.lock = s.lock) (hproc : t.proc = update s.proc c (some q))
    (hstate : t.state = update s.state q .running) (hnp : t.np = s.np) : t.Inv := by
  have hheld : s.lock q = some c := (h.lock_iff q c).mpr (he ▸ rfl)
  -- nobody has the process: it is not running and its lock is held here
  have hnot := h.not_current hheld (by rw [he]; nofun) (by rw [hst]; nofun)
  refine ⟨h.toForks.same hexec hnp (used_of hstate (by rw [hst]; nofun)),
    h.lock_same he hexec hlock, h.proc_of hexec hproc, h.one_of hexec ?_,
    h.running_of he hexec hstate (iff_of_true rfl ⟨c, ?_⟩) fun p hp => ⟨nofun, ?_⟩⟩
  · rintro _ ⟨⟩ c' -
    exact hnot c'
  · rw [exec_self hexec]
    rfl
  · exact fun hr => absurd (Option.some.inj hr).symm hp

/-- A process gives up the CPU: from here to `swtch` it is on the CPU but not `RUNNING`. -/
theorem Inv.leave (h : s.Inv) {op : OwnOp Ch} (he : s.exec c = .proc p (.own op))
    (hexec : t.exec = update s.exec c (.proc p .leaving)) (hlock : t.lock = s.lock)
    (hproc : t.proc = s.proc) (hstate : t.state = update s.state p st)
    (hto : st ≠ .running) (hnp : t.np = s.np) : t.Inv := by
  have hfrom : s.state p = .running := (h.running p).mpr ⟨c, by rw [he]; rfl⟩
  refine h.stay he hexec (h.lock_same he hexec hlock) hproc rfl
    (h.toForks.same hexec hnp (used_of hstate (by rw [hfrom]; nofun)))
    (h.running_of he hexec hstate (iff_of_false hto ?_) fun q hq => ⟨?_, nofun⟩)
  · rintro ⟨c', hr⟩
    by_cases hc : c' = c
    · rw [hc, exec_self hexec] at hr
      cases hr
    · rw [exec_of_ne hexec hc] at hr
      exact hc (h.one c' c p (Exec.current_of_runs hr) (he ▸ rfl))
  · exact fun hr => absurd (Option.some.inj hr).symm hq

/-- A CPU that holds the lock of `q` changes its state, neither from nor to `RUNNING`. -/
theorem Inv.change (h : s.Inv) (he : s.exec c = e₀) (hexec : t.exec = update s.exec c e)
    (hstate : t.state = update s.state q st) (hfrom : s.state q ≠ .running) (hforks : t.Forks)
    (hlock : t.lock = s.lock := by rfl) (hholds : e.holds = e₀.holds := by rfl)
    (hproc : t.proc = s.proc := by rfl) (hcur : e.current = e₀.current := by rfl)
    (hruns : e.runs = e₀.runs := by rfl) (hto : st ≠ .running := by nofun) : t.Inv := by
  refine h.stay he hexec (h.lock_same he hexec hlock hholds) hproc hcur hforks
    (h.running_of he hexec hstate (iff_of_false hto ?_) fun p _ => by rw [hruns])
  simpa only [exec_congr Exec.runs he hexec hruns, ← h.running] using hfrom

/-- The process on a CPU makes, remembers or forgets the child `q`, whose lock it holds. -/
theorem Inv.forks_change (h : s.Inv) (hexec : t.exec = update s.exec c e)
    (hbefore : (s.exec c).holds = some q) (hstate : t.state = update s.state q st)
    (hused : ∀ p q', t.np p = some q' → t.state q' = .used)
    (hinj : ∀ p p' q', t.np p = some q' → t.np p' = some q' → p = p')
    (hnew : ∀ p q', t.np p = some q' → s.np p = some q' ∨ q' = q)
    (hkeep : ∀ p, (s.exec c).current ≠ some p → t.np p = s.np p)
    (hfill : ∀ p q', e = .proc p (.other q' .fill) →
      t.state q' = .used ∧ ∀ p', t.np p' ≠ some q' := by nofun)
    (hstart : ∀ p q', e ≠ .proc p (.other q' .start) := by nofun) : t.Forks where
  np_used := hused
  np_inj := hinj
  filling := fun c' p q' he => by
    by_cases hc : c' = c
    · rw [hc, exec_self hexec] at he
      exact hfill p q' he
    · rw [exec_of_ne hexec hc] at he
      -- both CPUs hold the lock of the process they work on
      have hq : q' ≠ q := by
        rintro rfl
        have h₁ := (h.lock_iff q' c').mpr (he ▸ rfl)
        have h₂ := (h.lock_iff q' c).mpr hbefore
        exact hc (Option.some.inj (h₁.symm.trans h₂))
      obtain ⟨hst, hnp⟩ := h.filling c' p q' he
      refine ⟨by rw [hstate, update_of_ne hq, hst], fun p' hp' => ?_⟩
      rcases hnew p' q' hp' with hold | rfl
      · exact hnp p' hold
      · exact hq rfl
  starting := fun c' p q' he => by
    by_cases hc : c' = c
    · rw [hc, exec_self hexec] at he
      exact absurd he (hstart p q')
    · rw [exec_of_ne hexec hc] at he
      rw [hkeep p fun hp => hc (h.one c' c p (he ▸ rfl) hp)]
      exact h.starting c' p q' he

variable [DecidableEq Ch]

/-- The steps of one process on another, under the other one's lock. -/
theorem Inv.act (h : s.Inv) {op : OtherOp Ch} (he : s.exec c = .proc p (.other q op)) (ok : Bool) :
    (s.otherOp c p q ok op).Inv := by
  have hbefore : (s.exec c).holds = some q := he ▸ rfl
  have hcur : (s.exec c).current = some p := he ▸ rfl
  -- a change that is not from `USED` leaves children in the making alone
  have plain : ∀ {t : Procs P C Ch} {st}, t.exec = update s.exec c (.proc p (.done q)) →
      t.lock = s.lock → t.proc = s.proc → t.state = update s.state q st → t.np = s.np →
      s.state q ≠ .running → s.state q ≠ .used → st ≠ .running → t.Inv := by
    intro t st hexec hlock hproc hstate hnp hfrom hused hto
    exact h.change he hexec hstate hfrom (h.toForks.same hexec hnp (used_of hstate hused)) hlock rfl
      hproc rfl rfl hto
  have stays : ∀ {t : Procs P C Ch}, t.exec = update s.exec c (.proc p (.done q)) →
      t.lock = s.lock → t.proc = s.proc → t.state = s.state → t.np = s.np → t.Inv :=
    fun hexec hlock hproc hstate hnp =>
      h.quiet he hexec (h.lock_same he hexec hlock) hproc hstate hnp
  cases op with
  | wakeup ch =>
    simp only [otherOp]
    split
    · rename_i hst
      exact plain rfl rfl rfl rfl rfl (by rw [hst.1]; nofun) (by rw [hst.1]; nofun) nofun
    · exact stays rfl rfl rfl rfl rfl
  | kill pid =>
    simp only [otherOp]
    split
    · split
      · rename_i hst
        exact plain rfl rfl rfl rfl rfl (by rw [hst]; nofun) (by rw [hst]; nofun) nofun
      · exact stays rfl rfl rfl rfl rfl
    · exact stays rfl rfl rfl rfl rfl
  | alloc =>
    simp only [otherOp]
    split
    · rename_i hst
      have hfree : ∀ p', s.np p' ≠ some q := fun p' hp' => by
        have := h.np_used p' q hp'
        rw [hst] at this
        cases this
      refine h.change he rfl rfl (by rw [hst]; nofun)
        (h.forks_change rfl hbefore rfl ?_ h.np_inj (fun _ _ => .inl) (fun _ _ => rfl) ?_)
      · exact fun p' q' hp' => used_of rfl (by rw [hst]; nofun) q' (h.np_used p' q' hp')
      · rintro _ _ ⟨⟩
        exact ⟨update_self .., hfree⟩
    · exact stays rfl rfl rfl rfl rfl
  | fill =>
    obtain ⟨hst, hfree⟩ := h.filling c p q he
    have hself : s.state = update s.state q (s.state q) :=
      (update_eq_self q s.state).symm
    simp only [otherOp]
    split
    · refine h.change he rfl hself (by rw [hst]; nofun) (h.forks_change rfl hbefore hself ?_ ?_ ?_ ?_)
        rfl rfl rfl rfl rfl (by rw [hst]; nofun)
      · intro p' q' hp'
        obtain ⟨-, ⟨⟩⟩ | ⟨-, hp'⟩ := update_cases hp'
        · exact hst
        · exact h.np_used p' q' hp'
      · intro p₁ p₂ q' h₁ h₂
        obtain ⟨rfl, ⟨⟩⟩ | ⟨-, h₁⟩ := update_cases h₁ <;>
          obtain ⟨h₂, ⟨⟩⟩ | ⟨-, h₂⟩ := update_cases h₂
        · exact h₂.symm
        · exact absurd h₂ (hfree p₂)
        · exact absurd h₁ (hfree p₁)
        · exact h.np_inj p₁ p₂ q' h₁ h₂
      · intro p' q' hp'
        obtain ⟨-, ⟨⟩⟩ | ⟨-, hp'⟩ := update_cases hp'
        · exact .inr rfl
        · exact .inl hp'
      · intro p' hp'
        refine update_of_ne ?_ ..
        rintro rfl
        exact hp' hcur
    · refine h.change he rfl rfl (by rw [hst]; nofun)
        (h.forks_change rfl hbefore rfl ?_ h.np_inj (fun _ _ => .inl) fun _ _ => rfl)
      intro p' q' hp'
      refine (update_of_ne ?_ ..).trans (h.np_used p' q' hp')
      rintro rfl
      exact hfree p' hp'
  | start =>
    have hnp := h.starting c p q he
    have hst := h.np_used p q hnp
    have hrest : ∀ p' q', update s.np p none p' = some q' →
        s.np p' = some q' ∧ p' ≠ p := by
      intro p' q' hp'
      obtain ⟨-, ⟨⟩⟩ | ⟨hne, hp'⟩ := update_cases hp'
      exact ⟨hp', hne⟩
    refine h.change he rfl rfl (by rw [hst]; nofun) (h.forks_change rfl hbefore rfl ?_ ?_ ?_ ?_)
    · intro p' q' hp'
      obtain ⟨hold, hne⟩ := hrest p' q' hp'
      refine (update_of_ne ?_ ..).trans (h.np_used p' q' hold)
      rintro rfl
      exact hne (h.np_inj p' p q' hold hnp)
    · intro p₁ p₂ q' h₁ h₂
      exact h.np_inj p₁ p₂ q' (hrest p₁ q' h₁).1 (hrest p₂ q' h₂).1
    · intro p' q' hp'
      exact .inl (hrest p' q' hp').1
    · intro p' hp'
      refine update_of_ne ?_ ..
      rintro rfl
      exact hp' hcur
  | wait =>
    simp only [otherOp]
    split
    · rename_i hst
      exact plain rfl rfl rfl rfl rfl (by rw [hst.1]; nofun) (by rw [hst.1]; nofun) nofun
    · exact stays rfl rfl rfl rfl rfl

omit [DecidableEq C] [DecidableEq Ch] in
theorem ownOp_eq (s : Procs P C Ch) (p : P) (op : OwnOp Ch) :
    ∃ st, (s.ownOp p op).state = update s.state p st ∧ ProcState.Next .running st := by
  cases op with
  | yield => exact ⟨_, rfl, .yield⟩
  | sleep ch => exact ⟨_, rfl, .sleep⟩
  | exit => exact ⟨_, rfl, .exit⟩

/-- Every step keeps the locks, `c->proc` and the states in line. -/
theorem Inv.step {a : ProcAction P C Ch} (h : s.Inv) (hs : Step s a t) : t.Inv := by
  cases hs with
  | acquire c q he hl => exact h.quiet he rfl (h.lock_take he rfl hl)
  | dispatch c q he hst => exact h.dispatch he hst rfl rfl rfl rfl rfl
  | skip c q he => exact h.quiet he rfl (h.lock_same he rfl)
  | clear c q he => exact h.clear he
  | unlock c q he => exact h.quiet he rfl (h.lock_drop he rfl)
  | interrupt c q he hl => exact h.quiet he rfl (h.lock_take he rfl hl)
  | wake c q ch he hst =>
    exact h.change he rfl rfl (by rw [hst]; nofun)
      (h.toForks.same rfl rfl (used_of rfl (by rw [hst]; nofun)))
  | pass c q ch he => exact h.quiet he rfl (h.lock_same he rfl)
  | lockOwn c p op parent he hl => exact h.quiet he rfl (h.lock_take he rfl hl)
  | setState c p op he =>
    obtain ⟨st, hst, hnext⟩ := s.ownOp_eq p op
    refine h.leave he (t := (s.ownOp p op).goto c (.proc p .leaving)) ?_ ?_ ?_ hst ?_ ?_
    · cases op <;> rfl
    · cases op <;> rfl
    · cases op <;> rfl
    · rintro rfl
      cases hnext
    · cases op <;> rfl
  | swtch c p he => exact h.quiet he rfl (h.lock_same he rfl)
  | resume c p r chan he => exact h.quiet he rfl (h.lock_drop he rfl)
  | lockOther c p q op parent he hl hmay =>
    refine h.quiet he rfl (h.lock_take he rfl hl) rfl rfl rfl rfl rfl ?_ ?_
    · -- `fill` is only reached through `alloc`
      rintro _ _ ⟨⟩
      cases hmay
    · rintro _ _ ⟨⟩
      exact of_decide_eq_true hmay
  | act c p q op ok he => exact h.act he ok
  | unlockOther c p q he => exact h.quiet he rfl (h.lock_drop he rfl)

omit [DecidableEq C] [DecidableEq Ch] in
theorem next_update (hstate : t.state = update s.state q st) (hq : (s.state q).Next st)
    (x : P) : t.state x = s.state x ∨ (s.state x).Next (t.state x) := by
  rw [hstate]
  rcases eq_or_ne x q with rfl | hx
  · rw [update_self]
    exact .inr hq
  · exact .inl (update_of_ne hx ..)

theorem Inv.next_act (h : s.Inv) {op : OtherOp Ch} (he : s.exec c = .proc p (.other q op)) (ok : Bool)
    (x : P) : (s.otherOp c p q ok op).state x = s.state x ∨
      (s.state x).Next ((s.otherOp c p q ok op).state x) := by
  cases op with
  | wakeup ch =>
    simp only [otherOp]
    split
    · rename_i hst
      exact next_update rfl (by rw [hst.1]; exact .wakeup) x
    · exact .inl rfl
  | kill pid =>
    simp only [otherOp]
    split
    · split
      · rename_i hst
        exact next_update rfl (by rw [hst]; exact .wakeup) x
      · exact .inl rfl
    · exact .inl rfl
  | alloc =>
    simp only [otherOp]
    split
    · rename_i hst
      exact next_update rfl (by rw [hst]; exact .alloc) x
    · exact .inl rfl
  | fill =>
    simp only [otherOp]
    split
    · exact .inl rfl
    · exact next_update rfl (by rw [(h.filling c p q he).1]; exact .abandon) x
  | start =>
    exact next_update rfl (by rw [h.np_used p q (h.starting c p q he)]; exact .start) x
  | wait =>
    simp only [otherOp]
    split
    · rename_i hst
      exact next_update rfl (by rw [hst.1]; exact .reap) x
    · exact .inl rfl

/-- Every step leaves the state of a process or changes it along `ProcState.Next`. -/
theorem Inv.next {a : ProcAction P C Ch} (h : s.Inv) (hs : Step s a t) (x : P) :
    t.state x = s.state x ∨ (s.state x).Next (t.state x) := by
  cases hs with
  | dispatch c q he hst => exact next_update rfl (by rw [hst]; exact .dispatch) x
  | wake c q ch he hst => exact next_update rfl (by rw [hst]; exact .wakeup) x
  | setState c p op he =>
    obtain ⟨st, hst, hnext⟩ := s.ownOp_eq p op
    have hrun : s.state p = .running := (h.running p).mpr ⟨c, by rw [he]; rfl⟩
    exact next_update hst (by rw [hrun]; exact hnext) x
  | act c p q op ok he => exact h.next_act he ok x
  | _ => exact .inl rfl

omit [DecidableEq P] [DecidableEq C] [DecidableEq Ch] in
/-- While its lock is free, a process is `RUNNING` exactly when one CPU has it. -/
theorem Inv.running_iff (h : s.Inv) (hlock : s.lock p = none) :
    s.state p = .running ↔ ∃! c, s.proc c = some p := by
  simp only [h.proc_eq]
  constructor
  · intro hst
    obtain ⟨c, hc⟩ := (h.running p).mp hst
    exact ⟨c, Exec.current_of_runs hc, fun c' hc' => h.one c' c p hc' (Exec.current_of_runs hc)⟩
  · rintro ⟨c, hc, -⟩
    by_contra hst
    rw [h.lock_of_current hc hst] at hlock
    cases hlock

omit [DecidableEq P] [DecidableEq C] [DecidableEq Ch] in
/-- The zombie that `wait` finds is on no CPU: not in its kernel thread, and no CPU is in the
hand-over from it, since the lock is with `wait`. -/
theorem Inv.zombie_off (h : s.Inv) (he : s.exec c = .proc p (.other q .wait))
    (hst : s.state q = .zombie) (c' : C) : (s.exec c').current ≠ some q := by
  refine h.not_current ((h.lock_iff q c).mpr (he ▸ rfl)) ?_ (by rw [hst]; nofun) c'
  intro hc
  rw [he] at hc
  cases hc
  -- the process that calls `wait` is running
  rw [(h.running p).mpr ⟨c, by rw [he]; rfl⟩] at hst
  cases hst

/-- **Processes and CPUs.** After any run from boot: a process whose lock is free is `RUNNING` iff
exactly one CPU has it; no process is on two CPUs; the next step changes states only along
`ProcState.Next`; and a zombie that `wait` is about to free is neither any CPU's process nor
executing. -/
theorem on_one_cpu {initproc : P} {as : List (ProcAction P C Ch)}
    (hrun : runFrom (step initproc) (boot initproc) as = some s) :
    (∀ p, s.lock p = none → (s.state p = .running ↔ ∃! c, s.proc c = some p)) ∧
    (∀ c c' p, s.proc c = some p → s.proc c' = some p → c = c') ∧
    (∀ a t, step initproc s a = some t →
      ∀ p, t.state p = s.state p ∨ (s.state p).Next (t.state p)) ∧
    (∀ c p q, s.exec c = .proc p (.other q .wait) → s.state q = .zombie →
      ∀ c', s.proc c' ≠ some q ∧ ∀ pc, s.exec c' ≠ .proc q pc) := by
  have h : s.Inv :=
    runFrom_invariant (fun _ _ _ h hs => h.step (step_inv hs)) (boot_inv initproc) hrun
  refine ⟨fun p => h.running_iff, fun c c' p hc hc' => ?_, fun a t hs => h.next (step_inv hs),
    fun c p q he hst c' => ?_⟩
  · rw [h.proc_eq] at hc hc'
    exact h.one c c' p hc hc'
  · have hoff := h.zombie_off he hst c'
    refine ⟨by rwa [h.proc_eq], fun pc hpc => hoff ?_⟩
    rw [hpc]
    rfl

end Step

/-- On CPU 0, process 0 forks process 1, which exits on CPU 1; then process 0 is in `wait` and has
the lock of the zombie. -/
def forkExitWait : List (ProcAction (Fin 2) (Fin 2) (Fin 1)) :=
  [.acquire 0 0, .dispatch 0, .resume 0,
    .lockOther 0 1 .alloc, .act 0 true, .act 0 true, .unlockOther 0,
    .lockOther 0 1 .start, .act 0 true, .unlockOther 0,
    .acquire 1 1, .dispatch 1, .resume 1, .lockOwn 1 .exit, .setState 1, .swtch 1, .clear 1, .unlock 1,
    .lockOther 0 1 .wait]

theorem on_one_cpu_forkExitWait : ∃ s : Procs (Fin 2) (Fin 2) (Fin 1),
    runFrom (step 0) (boot 0) forkExitWait = some s ∧ s.state 1 = .zombie ∧
      (s.state 0 = .running ↔ ∃! c, s.proc c = some 0) ∧ ∀ c, s.proc c ≠ some 1 := by
  have h : (runFrom (step 0) (boot 0) forkExitWait).any fun s =>
      decide (s.state 1 = .zombie ∧ s.lock 0 = none ∧ s.exec 0 = .proc 0 (.other 1 .wait)) := by decide
  obtain ⟨s, hrun, hs⟩ := (Option.any_eq_true _ _).mp h
  rw [decide_eq_true_eq] at hs
  obtain ⟨hiff, -, -, hoff⟩ := on_one_cpu hrun
  refine ⟨s, hrun, hs.1, hiff 0 hs.2.1, fun c => (hoff 0 0 1 hs.2.2 hs.1 c).1⟩

end Procs

end Xv6
