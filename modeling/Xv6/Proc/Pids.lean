import Xv6.Proc.Running

/-! # Process ids

What the steps of the process table do to `pid`, `killed` and `nextpid`, and two consequences. Slots
that are not in use have pid 0, so `kill(0)` hits one of them and leaves it killed for the process that
`allocproc` makes of it later; no other call does (`kill_live_iff`). The pids in use are positive and
distinct until `nextpid`, an `int`, wraps (`pids_distinct_iff`). -/

namespace Xv6

open Function

namespace Procs

variable {P C Ch : Type*} [DecidableEq P] [DecidableEq C] [DecidableEq Ch] {s t : Procs P C Ch}
  {initproc p q : P} {c : C} {a : ProcAction P C Ch} {as bs : List (ProcAction P C Ch)}

/-- What a step does to the fields a slot is identified by. -/
inductive Marks (s t : Procs P C Ch) : ProcAction P C Ch → Prop
  | keep {b : ProcAction P C Ch} (hpid : t.pid = s.pid) (hkilled : t.killed = s.killed) (hnext : t.nextpid = s.nextpid)
      (hun : ∀ x, t.state x = .unused ↔ s.state x = .unused) : Marks s t b
  | kill {c : C} {ok : Bool} (p q : P) (hexec : s.exec c = .proc p (.other q (.kill (s.pid q))))
      (hpid : t.pid = s.pid) (hkilled : t.killed = update s.killed q true)
      (hnext : t.nextpid = s.nextpid) (hun : ∀ x, t.state x = .unused ↔ s.state x = .unused) :
      Marks s t (.act c ok)
  | alloc {c : C} {ok : Bool} (p q : P) (hexec : s.exec c = .proc p (.other q .alloc))
      (hunused : s.state q = .unused) (hstate : t.state = update s.state q .used)
      (hpid : t.pid = update s.pid q s.nextpid) (hkilled : t.killed = s.killed)
      (hnext : t.nextpid = (s.nextpid + 1).bmod (2 ^ 32)) : Marks s t (.act c ok)
  | free {c : C} {ok : Bool} (q : P) (hstate : t.state = update s.state q .unused)
      (hpid : t.pid = update s.pid q 0) (hkilled : t.killed = update s.killed q false)
      (hnext : t.nextpid = s.nextpid) : Marks s t (.act c ok)

omit [DecidableEq C] [DecidableEq Ch] in
/-- A change of state that neither takes nor frees the slot. -/
theorem unused_update {st : ProcState} (hstate : t.state = update s.state q st)
    (hq : s.state q ≠ .unused) (hst : st ≠ .unused) (x : P) :
    t.state x = .unused ↔ s.state x = .unused := by
  rw [hstate]
  rcases eq_or_ne x q with rfl | hx
  · simp [hq, hst]
  · rw [update_of_ne hx]

theorem Inv.marks_act (h : s.Inv) {op : OtherOp Ch} (he : s.exec c = .proc p (.other q op))
    (ok : Bool) : Marks s (s.otherOp c p q ok op) (.act c ok) := by
  cases op with
  | wakeup ch =>
    simp only [otherOp]
    split
    · rename_i hst
      exact .keep rfl rfl rfl (unused_update rfl (by simp [hst.1]) (by simp))
    · exact .keep rfl rfl rfl fun _ => Iff.rfl
  | kill pid =>
    simp only [otherOp]
    split
    · rename_i hpid
      subst hpid
      split
      · rename_i hst
        exact .kill p q he rfl rfl rfl (unused_update rfl (by simp [hst]) (by simp))
      · exact .kill p q he rfl rfl rfl fun _ => Iff.rfl
    · exact .keep rfl rfl rfl fun _ => Iff.rfl
  | alloc =>
    simp only [otherOp]
    split
    · exact .alloc p q he ‹_› rfl rfl rfl rfl
    · exact .keep rfl rfl rfl fun _ => Iff.rfl
  | fill =>
    simp only [otherOp]
    split
    · exact .keep rfl rfl rfl fun _ => Iff.rfl
    · exact .free q rfl rfl rfl rfl
  | start =>
    exact .keep rfl rfl rfl
      (unused_update rfl (by simp [h.np_used p q (h.starting c p q he)]) (by simp))
  | wait =>
    simp only [otherOp]
    split
    · exact .free q rfl rfl rfl rfl
    · exact .keep rfl rfl rfl fun _ => Iff.rfl

theorem Inv.marks (h : s.Inv) (hs : Step s a t) : Marks s t a := by
  cases hs with
  | dispatch c q he hst => exact .keep rfl rfl rfl (unused_update rfl (by rw [hst]; nofun) nofun)
  | wake c q ch he hst => exact .keep rfl rfl rfl (unused_update rfl (by rw [hst]; nofun) nofun)
  | setState c p op he =>
    obtain ⟨st, hst, hnext⟩ := s.ownOp_eq p op
    have hrun : s.state p = .running := (h.running p).mpr ⟨c, by rw [he]; rfl⟩
    refine .keep ?_ ?_ ?_ (unused_update hst (by rw [hrun]; nofun) ?_)
    · cases op <;> rfl
    · cases op <;> rfl
    · cases op <;> rfl
    · rintro rfl
      cases hnext
  | act c p q op ok he => exact h.marks_act he ok
  | _ => exact .keep rfl rfl rfl fun _ => Iff.rfl

/-! ## `kill` -/

/-- What is asked of `kill` and `allocproc` in one step: a round of `kill` that finds its pid, upon
which `kill` returns 0, finds it in a slot that is in use; a round changes no other slot, and none if
the pid is another one; slots that are not in use are not killed, nor is the one that `allocproc`
takes. -/
structure KillSafe (s : Procs P C Ch) (a : ProcAction P C Ch) (t : Procs P C Ch) : Prop where
  live : ∀ c ok p q, a = .act c ok → s.exec c = .proc p (.other q (.kill (s.pid q))) →
    s.state q ≠ .unused
  others : ∀ c ok p q pid, a = .act c ok → s.exec c = .proc p (.other q (.kill pid)) → ∀ x,
    x ≠ q ∨ s.pid q ≠ pid → t.state x = s.state x ∧ t.killed x = s.killed x ∧ t.pid x = s.pid x
  unkilled : ∀ x, t.state x = .unused → t.killed x = false
  fresh : ∀ c ok p q, a = .act c ok → s.exec c = .proc p (.other q .alloc) → s.state q = .unused →
    t.killed q = false

/-- The step is a round of `kill(0)` for a slot that is not in use. -/
def KillsUnused (s : Procs P C Ch) (a : ProcAction P C Ch) : Prop :=
  ∃ c ok p q, a = .act c ok ∧ s.exec c = .proc p (.other q (.kill 0)) ∧ s.state q = .unused

/-- Slots that are not in use have pid 0 and are not killed. -/
structure Idle (s : Procs P C Ch) : Prop extends s.Inv where
  pid : ∀ x, s.state x = .unused → s.pid x = 0
  killed : ∀ x, s.state x = .unused → s.killed x = false

theorem Idle.keep (h : s.Idle) (hs : Step s a t) (hk : ¬ s.KillsUnused a) : t.Idle := by
  refine ⟨h.toInv.step hs, fun x hx => ?_, fun x hx => ?_⟩
  · cases h.marks hs with
    | keep hpid _ _ hun | kill _ _ _ hpid _ _ hun =>
      rw [hpid]
      exact h.pid x ((hun x).mp hx)
    | alloc _ q _ _ hst hpid | free q hst hpid =>
      rw [hst] at hx
      rw [hpid]
      rcases eq_or_ne x q with rfl | hxq
      · simp_all
      · rw [update_of_ne hxq] at hx ⊢
        exact h.pid x hx
  · cases h.marks hs with
    | keep _ hkilled _ hun =>
      rw [hkilled]
      exact h.killed x ((hun x).mp hx)
    | kill p q hexec _ hkilled _ hun =>
      have hx' := (hun x).mp hx
      -- a slot that is not in use has pid 0
      have hne : x ≠ q := by
        rintro rfl
        rw [h.pid x hx'] at hexec
        exact hk ⟨_, _, p, x, rfl, hexec, hx'⟩
      rw [hkilled, update_of_ne hne]
      exact h.killed x hx'
    | alloc _ q _ _ hst _ hkilled | free q hst _ hkilled =>
      rw [hst] at hx
      rw [hkilled]
      rcases eq_or_ne x q with rfl | hxq
      · simp_all
      · simp only [update_of_ne hxq] at hx ⊢
        exact h.killed x hx

theorem Idle.killSafe_iff (h : s.Idle) (hstep : step initproc s a = some t) :
    KillSafe s a t ↔ ¬ s.KillsUnused a := by
  have hs := step_inv hstep
  constructor
  · rintro hsafe ⟨c, ok, p, q, rfl, hexec, hun⟩
    refine hsafe.live c ok p q rfl ?_ hun
    rw [hexec, h.pid q hun]
  · intro hk
    have ht := h.keep hs hk
    refine ⟨fun c ok p q ha hexec hun => ?_, fun c ok p q pid ha hexec x hx => ?_, ht.killed,
      fun c ok p q ha hexec hun => ?_⟩
    · rw [h.pid q hun] at hexec
      exact hk ⟨c, ok, p, q, ha, hexec, hun⟩
    · subst ha
      simp only [step, hexec, otherOp] at hstep
      cases hstep
      by_cases hpid : s.pid q = pid
      · have hxq := hx.resolve_right (not_not.mpr hpid)
        rw [if_pos hpid]
        split <;> simp [goto, setState, hxq]
      · rw [if_neg hpid]
        exact ⟨rfl, rfl, rfl⟩
    · subst ha
      simp only [step, hexec, otherOp, if_pos hun] at hstep
      cases hstep
      exact h.killed q hun

/-- **`kill` reaches only processes that exist**, and a new process is not killed, exactly in the runs
in which no round of `kill(0)` looks at a slot that is not in use. -/
theorem kill_live_iff (initproc : P) (as : List (ProcAction P C Ch)) :
    AllSteps (step initproc) KillSafe (boot initproc) as ↔
      AllSteps (step initproc) (fun s a _ => ¬ s.KillsUnused a) (boot initproc) as := by
  refine allSteps_iff (I := Idle) (fun _ _ _ h hs => h.killSafe_iff hs)
    (fun _ _ _ h hs hsafe => h.keep (step_inv hs) ((h.killSafe_iff hs).mp hsafe)) ?_
  refine ⟨boot_inv initproc, fun x hx => ?_, fun _ _ => rfl⟩
  simp only [boot] at hx ⊢
  split at hx
  · cases hx
  · exact if_neg ‹_›

/-- `initproc` calls `kill(0)` and then forks: `allocproc` makes a process that is killed already. -/
theorem kill_zero_unused :
    ∃ s : Procs (Fin 2) (Fin 1) (Fin 1), runFrom (step 0) (boot 0) [.acquire 0 0, .dispatch 0, .resume 0,
      .lockOther 0 0 (.kill 0), .act 0 true, .unlockOther 0, .lockOther 0 1 (.kill 0), .act 0 true,
      .unlockOther 0, .lockOther 0 0 .alloc, .act 0 true, .unlockOther 0, .lockOther 0 1 .alloc,
      .act 0 true] = some s ∧ s.exec 0 = .proc 0 (.other 1 .fill) ∧ s.killed 1 = true := by
  have h : (runFrom (step 0) (boot 0) [.acquire 0 0, .dispatch 0, .resume 0, .lockOther 0 0 (.kill 0),
      .act 0 true, .unlockOther 0, .lockOther 0 1 (.kill 0), .act 0 true, .unlockOther 0,
      .lockOther 0 0 .alloc, .act 0 true, .unlockOther 0, .lockOther 0 1 .alloc,
      .act 0 true]).any fun s : Procs (Fin 2) (Fin 1) (Fin 1) =>
        decide (s.exec 0 = .proc 0 (.other 1 .fill) ∧ s.killed 1 = true) := by
    decide
  obtain ⟨s, hrun, hs⟩ := (Option.any_eq_true _ _).mp h
  exact ⟨s, hrun, of_decide_eq_true hs⟩

/-! ## `allocpid` -/

/-- The pids in use are positive and distinct. -/
structure Identified (s : Procs P C Ch) : Prop where
  pos : ∀ x, s.state x ≠ .unused → 0 < s.pid x
  inj : ∀ x y, s.state x ≠ .unused → s.state y ≠ .unused → s.pid x = s.pid y → x = y

/-- `allocproc` looks at a free slot. -/
def finds (s : Procs P C Ch) : Exec P Ch → Bool
  | .proc _ (.other q .alloc) => s.state q = .unused
  | _ => false

/-- The step takes a slot and a pid for a new process. -/
def allocates (s : Procs P C Ch) : ProcAction P C Ch → Bool
  | .act c _ => s.finds (s.exec c)
  | _ => false

/-- How many pids the steps of a run take. -/
def allocs (initproc : P) : Procs P C Ch → List (ProcAction P C Ch) → ℕ
  | _, [] => 0
  | s, a :: as =>
    match step initproc s a with
    | none => 0
    | some t => (s.allocates a).toNat + allocs initproc t as

/-- The state when `k` pids have been taken after the one of `initproc`. -/
structure Numbered (s : Procs P C Ch) (k : ℕ) : Prop extends s.Inv, s.Identified where
  next : s.nextpid = ((k : ℤ) + 2).bmod (2 ^ 32)
  lt : ∀ x, s.state x ≠ .unused → s.pid x < k + 2

theorem bmod_next {k : ℕ} (h : k + 2 < 2 ^ 31) : ((k : ℤ) + 2).bmod (2 ^ 32) = k + 2 :=
  Int.bmod_eq_of_le (by omega) (by omega)

/-- A step that takes no pid. -/
theorem Numbered.keep {k : ℕ} (h : s.Numbered k) (hs : Step s a t) (ha : s.allocates a = false) :
    t.Numbered k := by
  -- who is in use was before, with the same pid
  have hold : t.nextpid = s.nextpid ∧
      ∀ x, t.state x ≠ .unused → s.state x ≠ .unused ∧ t.pid x = s.pid x := by
    cases h.marks hs with
    | keep hpid _ hnext hun | kill _ _ _ hpid _ hnext hun =>
      exact ⟨hnext, fun x hx => ⟨fun hc => hx ((hun x).mpr hc), by rw [hpid]⟩⟩
    | alloc p q hexec hun =>
      simp [allocates, finds, hexec, hun] at ha
    | free q hst hpid _ hnext =>
      refine ⟨hnext, fun x hx => ?_⟩
      rw [hst] at hx
      rw [hpid]
      have hxq : x ≠ q := by
        rintro rfl
        exact hx (update_self ..)
      rw [update_of_ne hxq] at hx ⊢
      exact ⟨hx, rfl⟩
  refine ⟨h.toInv.step hs, ⟨fun x hx => ?_, fun x y hx hy hxy => ?_⟩, hold.1.trans h.next, fun x hx => ?_⟩
  · rw [(hold.2 x hx).2]
    exact h.pos x (hold.2 x hx).1
  · rw [(hold.2 x hx).2, (hold.2 y hy).2] at hxy
    exact h.inj x y (hold.2 x hx).1 (hold.2 y hy).1 hxy
  · rw [(hold.2 x hx).2]
    exact h.lt x (hold.2 x hx).1

/-- A step that takes a pid: it is a new one, until `nextpid` wraps. -/
theorem Numbered.take {k : ℕ} (h : s.Numbered k) (hs : Step s a t) (ha : s.allocates a = true)
    (hk : k + 1 < 2 ^ 31) : if k + 2 < 2 ^ 31 then t.Numbered (k + 1) else ¬ t.Identified := by
  obtain ⟨q, hst, hpid, hnext⟩ : ∃ q, t.state = update s.state q .used ∧
      t.pid = update s.pid q s.nextpid ∧ t.nextpid = (s.nextpid + 1).bmod (2 ^ 32) := by
    cases hs with
    | act c p q op ok he =>
      cases op with
      | alloc =>
        have hun : s.state q = .unused := by simpa [allocates, finds, he] using ha
        refine ⟨q, ?_⟩
        simp only [otherOp, if_pos hun]
        exact ⟨rfl, rfl, rfl⟩
      | _ => simp [allocates, finds, he] at ha
    | _ => cases ha
  split
  · rename_i hlt
    have hq : s.nextpid = k + 2 := h.next.trans (bmod_next hlt)
    have hcase : ∀ x, t.state x ≠ .unused →
        x = q ∧ t.pid x = k + 2 ∨ x ≠ q ∧ s.state x ≠ .unused ∧ t.pid x = s.pid x := by
      intro x hx
      rw [hst] at hx
      rw [hpid]
      rcases eq_or_ne x q with rfl | hxq
      · exact .inl ⟨rfl, by rw [update_self, hq]⟩
      · rw [update_of_ne hxq] at hx ⊢
        exact .inr ⟨hxq, hx, rfl⟩
    refine ⟨h.toInv.step hs, ⟨fun x hx => ?_, fun x y hx hy hxy => ?_⟩, ?_, fun x hx => ?_⟩
    · rcases hcase x hx with ⟨-, hp⟩ | ⟨-, hu, hp⟩
      · omega
      · rw [hp]
        exact h.pos x hu
    · rcases hcase x hx with ⟨rfl, hp⟩ | ⟨-, hu, hp⟩ <;> rcases hcase y hy with ⟨rfl, hp'⟩ | ⟨-, hu', hp'⟩
      · rfl
      · have := h.lt y hu'
        omega
      · have := h.lt x hu
        omega
      · exact h.inj x y hu hu' (by rw [← hp, ← hp', hxy])
    · rw [hnext, hq, show ((k + 1 : ℕ) : ℤ) + 2 = k + 2 + 1 by omega]
    · rcases hcase x hx with ⟨-, hp⟩ | ⟨-, hu, hp⟩
      · omega
      · have := h.lt x hu
        omega
  · intro hid
    have hpos := hid.pos q (by simp [hst])
    obtain rfl : k = 2 ^ 31 - 2 := by omega
    rw [hpid, update_self, h.next] at hpos
    exact absurd hpos (by decide)

theorem Numbered.allSteps_iff {k : ℕ} (h : s.Numbered k) (hk : k + 1 < 2 ^ 31) :
    AllSteps (step initproc) (fun _ _ t => t.Identified) s as ↔
      k + allocs initproc s as + 1 < 2 ^ 31 := by
  induction as generalizing s k with
  | nil => exact iff_of_true trivial hk
  | cons a as ih =>
    rw [AllSteps, allocs]
    cases hstep : step initproc s a with
    | none => exact iff_of_true (by simp) hk
    | some t =>
      have hs := step_inv hstep
      simp only [Option.some.injEq, forall_eq']
      cases ha : s.allocates a with
      | false =>
        have ht := h.keep hs ha
        rw [ih ht hk]
        simp only [Bool.toNat_false, Nat.zero_add, and_iff_right_iff_imp]
        exact fun _ => ht.toIdentified
      | true =>
        have ht := h.take hs ha hk
        split at ht
        · rename_i hlt
          rw [ih ht (by omega), Bool.toNat_true, show k + 1 + allocs initproc t as = k + (1 + allocs initproc t as)
            by omega]
          simp only [and_iff_right_iff_imp]
          exact fun _ => ht.toIdentified
        · constructor
          · exact fun hc => absurd hc.1 ht
          · rw [Bool.toNat_true]
            omega

omit [DecidableEq C] [DecidableEq Ch] in
theorem boot_numbered (initproc : P) : (boot initproc : Procs P C Ch).Numbered 0 := by
  have hinit : ∀ x : P, (boot initproc : Procs P C Ch).state x ≠ .unused → x = initproc := by
    intro x hx
    by_contra hne
    exact hx (if_neg hne)
  have hpid : (boot initproc : Procs P C Ch).pid initproc = 1 := if_pos rfl
  refine ⟨boot_inv initproc, ⟨fun x hx => ?_, fun x y hx hy _ => ?_⟩, rfl, fun x hx => ?_⟩
  · rw [hinit x hx, hpid]
    decide
  · rw [hinit x hx, hinit y hy]
  · rw [hinit x hx, hpid]
    decide

/-- **Pids are positive and distinct** in every state of a run exactly if it takes fewer than `2 ^ 31`
of them, with the one of `initproc`. -/
theorem pids_distinct_iff (initproc : P) (as : List (ProcAction P C Ch)) :
    AllSteps (step initproc) (fun _ _ t => t.Identified) (boot initproc) as ↔
      allocs initproc (boot initproc) as + 1 < 2 ^ 31 := by
  rw [(boot_numbered initproc).allSteps_iff (by decide), Nat.zero_add]

theorem allocs_append (h : runFrom (step initproc) s as = some t) :
    allocs initproc s (as ++ bs) = allocs initproc s as + allocs initproc t bs := by
  induction as generalizing s with
  | nil =>
    cases h
    rw [allocs, Nat.zero_add]
    rfl
  | cons a as ih =>
    obtain ⟨u, hu, hrest⟩ := runFrom_cons_eq_some.mp h
    rw [List.cons_append, allocs, allocs, hu]
    simp only
    rw [ih hrest, Nat.add_assoc]

/-- A `fork` of process 0 that finds slot 1 and no memory. -/
def failedFork : List (ProcAction (Fin 2) (Fin 1) (Fin 1)) :=
  [.lockOther 0 0 .alloc, .act 0 true, .unlockOther 0, .lockOther 0 1 .alloc, .act 0 true, .act 0 false,
    .unlockOther 0]

/-- Each of them takes a pid. -/
theorem allocs_failedForks (k : ℕ) {s : Procs (Fin 2) (Fin 1) (Fin 1)} (he : s.exec 0 = .proc 0 .free)
    (h0 : s.lock 0 = none) (h1 : s.lock 1 = none) (hnp : s.np 0 = none) (hrun : s.state 0 = .running)
    (hun : s.state 1 = .unused) : allocs 0 s (List.replicate k failedFork).flatten = k := by
  induction k generalizing s with
  | zero => rfl
  | succ k ih =>
    obtain ⟨t, ht, hone, he, h0, h1, hnp, hrun, hun⟩ : ∃ t, runFrom (step 0) s failedFork = some t ∧
        allocs 0 s failedFork = 1 ∧ t.exec 0 = .proc 0 .free ∧ t.lock 0 = none ∧ t.lock 1 = none ∧
        t.np 0 = none ∧ t.state 0 = .running ∧ t.state 1 = .unused := by
      simp [failedFork, runFrom, allocs, allocates, finds, step, otherOp, mayLock, goto, setLock, setState,
        freeproc, he, h0, h1, hnp, hrun, hun]
    rw [List.replicate_succ, List.flatten_cons, allocs_append ht, hone, ih he h0 h1 hnp hrun hun,
      Nat.add_comm]

/-- After enough `fork`s that fail, a process has a negative pid. -/
theorem pids_wrap : ¬ AllSteps (step 0) (fun _ _ t => t.Identified)
    (boot 0 : Procs (Fin 2) (Fin 1) (Fin 1))
    ([.acquire 0 0, .dispatch 0, .resume 0] ++ (List.replicate (2 ^ 31 - 1) failedFork).flatten) := by
  rw [(boot_numbered 0).allSteps_iff (by decide)]
  obtain ⟨t, ht, he, h0, h1, hnp, hrun, hun⟩ : ∃ t : Procs (Fin 2) (Fin 1) (Fin 1),
      runFrom (step 0) (boot 0) [.acquire 0 0, .dispatch 0, .resume 0] = some t ∧
      t.exec 0 = .proc 0 .free ∧ t.lock 0 = none ∧ t.lock 1 = none ∧ t.np 0 = none ∧
      t.state 0 = .running ∧ t.state 1 = .unused :=
    ⟨_, rfl, rfl, rfl, rfl, rfl, rfl, rfl⟩
  rw [allocs_append ht, allocs_failedForks (2 ^ 31 - 1) he h0 h1 hnp hrun hun]
  omega

end Procs

end Xv6
