import Xv6.Param
import Xv6.Panic
import Xv6.Lib.Run

/-! # Group commit

The admission side of `kernel/log.c`: `begin_op`, `log_write` and `end_op` of any number of
processes, interleaved at the granularity of the critical sections under `log.lock`, together with
`commit`, which runs without the lock. A ghost history records which operation did what, so that
the group property can be stated: each operation's writes are in the header of the one commit that
follows its `end_op` (`group_commit_atomic`). -/

namespace Xv6

open Function

/-- The fields of `struct log` that `log.lock` protects, with the log size. -/
structure Log where
  /-- `log.size`, the number of blocks of the on-disk log. -/
  size : ℤ
  /-- How many FS system calls are executing. -/
  outstanding : ℤ
  /-- In `commit()`, please wait. -/
  committing : Bool
  /-- `lh.block[0..n)`, with `lh.n` its length. -/
  lh : List ℕ
  deriving DecidableEq

/-- The absorption loop of `log_write`: find `b` in the header or append it. -/
def absorb (b : ℕ) : List ℕ → List ℕ
  | [] => [b]
  | c :: cs => if c = b then b :: cs else c :: absorb b cs

namespace Log

/-- One pass through the loop of `begin_op`: `none` when the process goes to sleep, the log with one
more outstanding operation when it is admitted. -/
def beginOp (l : Log) : Option Log :=
  if l.committing then none
  else if (l.lh.length : ℤ) + (l.outstanding + 1) * MAXOPBLOCKS > LOGSIZE then none
  else some { l with outstanding := l.outstanding + 1 }

/-- The first critical section of `end_op`, with `do_commit`. -/
def endOp (l : Log) : Except Panic (Log × Bool) :=
  let l := { l with outstanding := l.outstanding - 1 }
  if l.committing then .error .logCommitting
  else if l.outstanding = 0 then .ok ({ l with committing := true }, true)
  else .ok (l, false)

/-- `log_write` of a buffer of block `b`. -/
def logWrite (l : Log) (b : ℕ) : Except Panic Log :=
  if (l.lh.length : ℤ) ≥ LOGSIZE ∨ (l.lh.length : ℤ) ≥ l.size - 1 then .error .tooBigTransaction
  else if l.outstanding < 1 then .error .logWriteOutsideTrans
  else .ok { l with lh := absorb b l.lh }

end Log

/-! ## The system -/

/-- Where a process is with respect to the log. -/
inductive Pc
  /-- Outside any FS operation. -/
  | idle
  /-- In `begin_op`, sleeping on `&log`. -/
  | sleeping
  /-- Between `begin_op` and `end_op` of the operation `o`. -/
  | inOp (o : ℕ)
  /-- `end_op` has set `committing`; `commit` is about to log and write the header. -/
  | commit
  /-- In `commit`, the header is written; about to install and set `lh.n = 0`. -/
  | install
  /-- `commit` has returned; about to clear `committing`. -/
  | release
  deriving DecidableEq

/-- Between the two critical sections of an `end_op` that commits. -/
def Pc.Committing : Pc → Prop
  | .commit | .install | .release => True
  | _ => False

/-- An entry of the history. -/
inductive Event
  | began (o : ℕ)
  | wrote (o b : ℕ)
  | ended (o : ℕ)
  /-- `commit` ran with this header. -/
  | committed (lh : List ℕ)
  deriving DecidableEq

/-- The operation an event belongs to. -/
def Event.op : Event → Option ℕ
  | .began o => some o
  | .wrote o _ => some o
  | .ended o => some o
  | .committed _ => none

/-- The log with its users. -/
structure Group (P : Type*) where
  log : Log
  pc : P → Pc
  /-- The number of the next operation. -/
  nextOp : ℕ
  /-- The history, newest event first. -/
  hist : List Event
  panicked : Option Panic

/-- The atomic steps of a process. -/
inductive Action (P : Type*)
  | beginOp (p : P)
  | logWrite (p : P) (b : ℕ)
  | endOp (p : P)
  | writeHead (p : P)
  | install (p : P)
  | release (p : P)

namespace Group

variable {P : Type*}

/-- The initial state: no operation, an empty header. -/
def init (size : ℤ) : Group P where
  log := ⟨size, 0, false, []⟩
  pc := fun _ => .idle
  nextOp := 0
  hist := []
  panicked := none

/-- Record an event. -/
def record (s : Group P) (e : Event) : Group P := { s with hist := e :: s.hist }

@[simp] theorem record_log (s : Group P) (e : Event) : (s.record e).log = s.log := rfl

@[simp] theorem record_pc (s : Group P) (e : Event) : (s.record e).pc = s.pc := rfl

@[simp] theorem record_hist (s : Group P) (e : Event) : (s.record e).hist = e :: s.hist := rfl

@[simp] theorem record_nextOp (s : Group P) (e : Event) : (s.record e).nextOp = s.nextOp := rfl

@[simp] theorem record_panicked (s : Group P) (e : Event) :
    (s.record e).panicked = s.panicked := rfl

variable [DecidableEq P]

/-- Move process `p` to `c`. -/
def goto (s : Group P) (p : P) (c : Pc) : Group P := { s with pc := update s.pc p c }

@[simp] theorem goto_log (s : Group P) (p : P) (c : Pc) : (s.goto p c).log = s.log := rfl

@[simp] theorem goto_hist (s : Group P) (p : P) (c : Pc) : (s.goto p c).hist = s.hist := rfl

@[simp] theorem goto_nextOp (s : Group P) (p : P) (c : Pc) : (s.goto p c).nextOp = s.nextOp := rfl

@[simp] theorem goto_panicked (s : Group P) (p : P) (c : Pc) :
    (s.goto p c).panicked = s.panicked := rfl

@[simp] theorem goto_pc (s : Group P) (p q : P) (c : Pc) :
    (s.goto p c).pc q = if q = p then c else s.pc q := update_apply ..

/-- One atomic step; `none` when the process is not at that point of its program, or the kernel has
panicked. -/
def step (s : Group P) (a : Action P) : Option (Group P) :=
  if s.panicked.isSome then none else
  match a with
  | .beginOp p =>
    if s.pc p = .idle ∨ s.pc p = .sleeping then
      match s.log.beginOp with
      | none => some (s.goto p .sleeping)
      | some l =>
        some (({ s with log := l, nextOp := s.nextOp + 1 }.goto p (.inOp s.nextOp)).record
          (.began s.nextOp))
    else none
  | .logWrite p b =>
    match s.pc p with
    | .inOp o =>
      match s.log.logWrite b with
      | .error e => some ({ s with panicked := some e }.record (.wrote o b))
      | .ok l => some ({ s with log := l }.record (.wrote o b))
    | _ => none
  | .endOp p =>
    match s.pc p with
    | .inOp o =>
      match s.log.endOp with
      | .error e => some ({ s with panicked := some e }.record (.ended o))
      | .ok (l, doCommit) =>
        some (({ s with log := l }.goto p (if doCommit then .commit else .idle)).record
          (.ended o))
    | _ => none
  | .writeHead p =>
    if s.pc p = .commit then some ((s.goto p .install).record (.committed s.log.lh)) else none
  | .install p =>
    if s.pc p = .install then
      some ({ s with log := { s.log with lh := [] } }.goto p .release)
    else none
  | .release p =>
    if s.pc p = .release then
      some ({ s with log := { s.log with committing := false } }.goto p .idle)
    else none

/-- What one step can do, guards included. -/
inductive Step (s : Group P) : Action P → Group P → Prop
  | sleep (p : P) (hp : s.pc p = .idle ∨ s.pc p = .sleeping) :
      Step s (.beginOp p) (s.goto p .sleeping)
  | enter (p : P) (hp : s.pc p = .idle ∨ s.pc p = .sleeping) (hc : s.log.committing = false)
      (hroom : (s.log.lh.length : ℤ) + (s.log.outstanding + 1) * 10 ≤ 30) :
      Step s (.beginOp p)
        (({ s with log := { s.log with outstanding := s.log.outstanding + 1 },
                   nextOp := s.nextOp + 1 }.goto p (.inOp s.nextOp)).record (.began s.nextOp))
  | full (p : P) (b o : ℕ) (hp : s.pc p = .inOp o)
      (hfull : (s.log.lh.length : ℤ) ≥ 30 ∨ (s.log.lh.length : ℤ) ≥ s.log.size - 1) :
      Step s (.logWrite p b)
        ({ s with panicked := some .tooBigTransaction }.record (.wrote o b))
  | outside (p : P) (b o : ℕ) (hp : s.pc p = .inOp o) (hout : s.log.outstanding < 1) :
      Step s (.logWrite p b)
        ({ s with panicked := some .logWriteOutsideTrans }.record (.wrote o b))
  | write (p : P) (b o : ℕ) (hp : s.pc p = .inOp o)
      (hroom : (s.log.lh.length : ℤ) < 30 ∧ (s.log.lh.length : ℤ) < s.log.size - 1)
      (hout : 1 ≤ s.log.outstanding) :
      Step s (.logWrite p b)
        ({ s with log := { s.log with lh := absorb b s.log.lh } }.record (.wrote o b))
  | endPanic (p : P) (o : ℕ) (hp : s.pc p = .inOp o) (hc : s.log.committing = true) :
      Step s (.endOp p) ({ s with panicked := some .logCommitting }.record (.ended o))
  | endCommit (p : P) (o : ℕ) (hp : s.pc p = .inOp o) (hc : s.log.committing = false)
      (hlast : s.log.outstanding = 1) :
      Step s (.endOp p)
        (({ s with log := { s.log with outstanding := 0, committing := true } }.goto p
          .commit).record (.ended o))
  | endOther (p : P) (o : ℕ) (hp : s.pc p = .inOp o) (hc : s.log.committing = false)
      (hmore : s.log.outstanding ≠ 1) :
      Step s (.endOp p)
        (({ s with log := { s.log with outstanding := s.log.outstanding - 1 } }.goto p
          .idle).record (.ended o))
  | writeHead (p : P) (hp : s.pc p = .commit) :
      Step s (.writeHead p) ((s.goto p .install).record (.committed s.log.lh))
  | install (p : P) (hp : s.pc p = .install) :
      Step s (.install p) ({ s with log := { s.log with lh := [] } }.goto p .release)
  | release (p : P) (hp : s.pc p = .release) :
      Step s (.release p) ({ s with log := { s.log with committing := false } }.goto p .idle)

variable {s t : Group P} {a : Action P}

/-- **Inversion of a step.** -/
theorem step_inv (h : s.step a = some t) : s.panicked = none ∧ Step s a t := by
  unfold step at h
  split at h
  · cases h
  · rename_i hpan
    refine ⟨by simpa using hpan, ?_⟩
    cases a with
    | beginOp p =>
      obtain ⟨hp, h⟩ := Option.ite_none_right_eq_some.mp h
      rw [Log.beginOp] at h
      by_cases hc : s.log.committing = true
      · rw [if_pos hc] at h
        cases h
        exact .sleep p hp
      · rw [if_neg hc] at h
        by_cases hroom : (s.log.lh.length : ℤ) + (s.log.outstanding + 1) * MAXOPBLOCKS > LOGSIZE
        · rw [if_pos hroom] at h
          cases h
          exact .sleep p hp
        · rw [if_neg hroom] at h
          cases h
          exact .enter p hp (by simpa using hc) (by simpa using hroom)
    | logWrite p b =>
      simp only at h
      split at h
      · rename_i o hp
        rw [Log.logWrite] at h
        by_cases hfull : (s.log.lh.length : ℤ) ≥ LOGSIZE ∨ (s.log.lh.length : ℤ) ≥ s.log.size - 1
        · rw [if_pos hfull] at h
          cases h
          exact .full p b o hp hfull
        · rw [if_neg hfull] at h
          by_cases hout : s.log.outstanding < 1
          · rw [if_pos hout] at h
            cases h
            exact .outside p b o hp hout
          · rw [if_neg hout] at h
            cases h
            exact .write p b o hp ((not_or.mp hfull).imp not_le.mp not_le.mp) (not_lt.mp hout)
      · cases h
    | endOp p =>
      simp only at h
      split at h
      · rename_i o hp
        rw [Log.endOp] at h
        simp only at h
        by_cases hc : s.log.committing = true
        · rw [if_pos hc] at h
          cases h
          exact .endPanic p o hp hc
        · rw [if_neg hc] at h
          by_cases hlast : s.log.outstanding - 1 = 0
          · rw [if_pos hlast] at h
            cases h
            rw [hlast]
            exact .endCommit p o hp (by simpa using hc) (by omega)
          · rw [if_neg hlast] at h
            cases h
            exact .endOther p o hp (by simpa using hc) (by omega)
      · cases h
    | writeHead p =>
      obtain ⟨hp, rfl⟩ := of_guard h
      exact .writeHead p hp
    | install p =>
      obtain ⟨hp, rfl⟩ := of_guard h
      exact .install p hp
    | release p =>
      obtain ⟨hp, rfl⟩ := of_guard h
      exact .release p hp

end Group

/-! ## Histories -/

/-- The events since the last commit. -/
def since (h : List Event) : List Event := h.takeWhile fun e => e.op.isSome

/-- Some event of `l` belongs to operation `o`. -/
def Touches (o : ℕ) (l : List Event) : Prop := ∃ e ∈ l, e.op = some o

@[simp] theorem since_cons_committed (H : List ℕ) (h : List Event) :
    since (.committed H :: h) = [] := rfl

theorem since_cons {e : Event} {o : ℕ} (he : e.op = some o) (h : List Event) :
    since (e :: h) = e :: since h := by
  simp [since, he]

theorem mem_of_mem_since {e : Event} {h : List Event} (he : e ∈ since h) : e ∈ h :=
  List.takeWhile_subset _ he

/-- What happened since the last commit is newer than any commit of the history. -/
theorem since_append_committed (newer : List Event) (H : List ℕ) (older : List Event) :
    since (newer ++ .committed H :: older) = since newer := by
  induction newer with
  | nil => rfl
  | cons e newer ih =>
    unfold since at ih ⊢
    rw [List.cons_append, List.takeWhile_cons, List.takeWhile_cons, ih]

/-- Either nothing was committed yet, or the events since the last commit follow that commit. -/
theorem since_split (h : List Event) :
    since h = h ∨ ∃ H older, h = since h ++ .committed H :: older := by
  induction h with
  | nil => exact Or.inl rfl
  | cons e h ih =>
    cases ho : e.op with
    | none =>
      cases e with
      | committed H => exact Or.inr ⟨H, h, rfl⟩
      | began => cases ho
      | wrote => cases ho
      | ended => cases ho
    | some o =>
      rw [since_cons ho]
      rcases ih with ih | ⟨H, older, ih⟩
      · exact Or.inl (by rw [ih])
      · refine Or.inr ⟨H, older, ?_⟩
        rw [List.cons_append, ← ih]

theorem Touches.mono {o : ℕ} {l l' : List Event} (h : Touches o l) (hl : l ⊆ l') :
    Touches o l' := by
  obtain ⟨e, he, ho⟩ := h
  exact ⟨e, hl he, ho⟩

theorem touches_cons {o o' : ℕ} {e : Event} {l : List Event} (he : e.op = some o') :
    Touches o (e :: l) ↔ o = o' ∨ Touches o l := by
  constructor
  · rintro ⟨e', he', ho⟩
    rcases List.mem_cons.mp he' with rfl | hmem
    · exact Or.inl (Option.some.inj (ho.symm.trans he))
    · exact Or.inr ⟨e', hmem, ho⟩
  · rintro (rfl | ⟨e', he', ho⟩)
    · exact ⟨e, List.mem_cons_self, he⟩
    · exact ⟨e', List.mem_cons_of_mem _ he', ho⟩

theorem touches_cons_committed {o : ℕ} {H : List ℕ} {l : List Event} :
    Touches o (.committed H :: l) ↔ Touches o l := by
  constructor
  · rintro ⟨e, he, ho⟩
    rcases List.mem_cons.mp he with rfl | hmem
    · cases ho
    · exact ⟨e, hmem, ho⟩
  · exact fun h => h.mono (List.subset_cons_self _ _)

/-- A commit with header `H` groups the operations of the history `older` before it: all of them
that did something since the previous commit began and ended in between, and `H` lists exactly the
blocks they wrote. -/
structure Groups (H : List ℕ) (older : List Event) : Prop where
  whole : ∀ o, Touches o (since older) → .began o ∈ since older ∧ .ended o ∈ since older
  exact : ∀ b, b ∈ H ↔ ∃ o, .wrote o b ∈ since older

/-- Every commit of the history groups the operations before it, and no operation is on both sides
of a commit. -/
def Grouped (h : List Event) : Prop := ∀ newer H older, h = newer ++ .committed H :: older →
  Groups H older ∧ ∀ o, Touches o newer → ¬ Touches o older

/-- An event of an operation that is not older than the last commit keeps the history grouped. -/
theorem Grouped.cons {h : List Event} (hg : Grouped h) {e : Event} {o : ℕ} (he : e.op = some o)
    (ho : Touches o (since h) ∨ ¬ Touches o h) : Grouped (e :: h) := by
  intro newer H older hsplit
  cases newer with
  | nil =>
    rw [List.nil_append, List.cons.injEq] at hsplit
    obtain ⟨rfl, -⟩ := hsplit
    cases he
  | cons e' newer =>
    rw [List.cons_append, List.cons.injEq] at hsplit
    obtain ⟨rfl, rfl⟩ := hsplit
    obtain ⟨hgroups, hsep⟩ := hg newer H older rfl
    refine ⟨hgroups, fun o' ho' hold => ?_⟩
    rcases (touches_cons he).mp ho' with rfl | ho'
    · rcases ho with ho | ho
      · rw [since_append_committed] at ho
        exact hsep _ (ho.mono fun _ => mem_of_mem_since) hold
      · exact ho (hold.mono (by simp))
    · exact hsep o' ho' hold

/-- A commit that groups the operations before it keeps the history grouped. -/
theorem Grouped.cons_committed {h : List Event} (hg : Grouped h) {H : List ℕ}
    (hH : Groups H h) : Grouped (.committed H :: h) := by
  intro newer H' older hsplit
  cases newer with
  | nil =>
    rw [List.nil_append, List.cons.injEq] at hsplit
    obtain ⟨h1, rfl⟩ := hsplit
    cases h1
    refine ⟨hH, fun o ho => ?_⟩
    obtain ⟨e, he, -⟩ := ho
    cases he
  | cons e newer =>
    rw [List.cons_append, List.cons.injEq] at hsplit
    obtain ⟨rfl, rfl⟩ := hsplit
    obtain ⟨hgroups, hsep⟩ := hg newer H' older rfl
    exact ⟨hgroups, fun o ho => hsep o (touches_cons_committed.mp ho)⟩

/-! ## The absorption loop -/

theorem mem_absorb {b c : ℕ} {l : List ℕ} : c ∈ absorb b l ↔ c = b ∨ c ∈ l := by
  induction l with
  | nil => simp [absorb]
  | cons d l ih =>
    rw [absorb]
    split
    · rename_i hd
      subst hd
      simp
    · simp only [List.mem_cons, ih]
      tauto

theorem absorb_of_mem {b : ℕ} {l : List ℕ} (h : b ∈ l) : absorb b l = l := by
  induction l with
  | nil => cases h
  | cons c l ih =>
    rw [absorb]
    split
    · rename_i hc
      rw [hc]
    · rename_i hc
      rw [ih ((List.mem_cons.mp h).resolve_left fun hb => hc hb.symm)]

theorem length_absorb_of_notMem {b : ℕ} {l : List ℕ} (h : b ∉ l) :
    (absorb b l).length = l.length + 1 := by
  induction l with
  | nil => rfl
  | cons c l ih =>
    simp only [List.mem_cons, not_or] at h
    rw [absorb, if_neg fun hc => h.1 hc.symm, List.length_cons, ih h.2, List.length_cons]

/-- Absorption keeps the header free of duplicates. -/
theorem nodup_absorb {b : ℕ} {l : List ℕ} (h : l.Nodup) : (absorb b l).Nodup := by
  induction l with
  | nil => simp [absorb]
  | cons c l ih =>
    rw [List.nodup_cons] at h
    rw [absorb]
    split
    · rename_i hc
      subst hc
      exact List.nodup_cons.mpr h
    · rename_i hc
      refine List.nodup_cons.mpr ⟨fun hmem => ?_, ih h.2⟩
      rcases mem_absorb.mp hmem with rfl | hmem
      · exact hc rfl
      · exact h.1 hmem

/-! ## The invariant -/

namespace Group

variable {P : Type*} {s t : Group P} {a : Action P}

/-- Process `p` is inside an operation. -/
def Running (s : Group P) (p : P) : Prop := ∃ o, s.pc p = .inOp o

/-- The invariant of the log protocol. -/
structure Inv (s : Group P) : Prop where
  nodup : s.log.lh.Nodup
  outstanding : ∃ S : Finset P, (∀ p, p ∈ S ↔ s.Running p) ∧ s.log.outstanding = S.card
  committer : s.log.committing = true → ∃ p, (s.pc p).Committing
  alone : ∀ p, (s.pc p).Committing →
    s.log.committing = true ∧ ∀ q, q ≠ p → s.pc q = .idle ∨ s.pc q = .sleeping
  header : s.panicked = none → (∀ p, s.pc p ≠ .install) →
    ∀ b, b ∈ s.log.lh ↔ ∃ o, .wrote o b ∈ since s.hist
  emptied : ∀ p, s.pc p = .install ∨ s.pc p = .release → since s.hist = []
  fresh : ∀ o, Touches o s.hist → o < s.nextOp
  running : ∀ p o, s.pc p = .inOp o → Touches o (since s.hist)
  injective : ∀ p q o, s.pc p = .inOp o → s.pc q = .inOp o → p = q
  whole : ∀ o, Touches o (since s.hist) →
    .began o ∈ since s.hist ∧ (.ended o ∈ since s.hist ∨ ∃ p, s.pc p = .inOp o)
  grouped : Grouped s.hist
  panics : s.panicked = none ∨ s.panicked = some .tooBigTransaction

theorem inv_init (size : ℤ) : (init size : Group P).Inv where
  nodup := List.nodup_nil
  outstanding := ⟨∅, by simp [Running, init], by simp [init]⟩
  committer := by simp [init]
  alone := by simp [init, Pc.Committing]
  header := by simp [init, since]
  emptied := by simp [init]
  fresh := by simp [init, Touches]
  running := by simp [init]
  injective := by simp [init]
  whole := by simp [init, Touches, since]
  grouped := by
    intro newer H older h
    simp [init] at h
  panics := Or.inl rfl

/-- At least one operation is outstanding while a process is inside one. -/
theorem Inv.one_le_outstanding (h : s.Inv) {p : P} {o : ℕ} (hp : s.pc p = .inOp o) :
    1 ≤ s.log.outstanding := by
  obtain ⟨S, hS, hcard⟩ := h.outstanding
  have : 0 < S.card := Finset.card_pos.mpr ⟨p, (hS p).mpr ⟨o, hp⟩⟩
  omega

variable [DecidableEq P]

/-- While a process is inside an operation no process is committing. -/
theorem Inv.not_committing (h : s.Inv) {p : P} {o : ℕ} (hp : s.pc p = .inOp o) (q : P) :
    ¬ (s.pc q).Committing := by
  intro hq
  by_cases hpq : p = q
  · rw [← hpq, hp] at hq
    exact hq
  · rcases (h.alone q hq).2 p hpq with h' | h' <;> simp [hp] at h'

/-- `committing` is clear while a process is inside an operation. -/
theorem Inv.committing_eq_false (h : s.Inv) {p : P} {o : ℕ} (hp : s.pc p = .inOp o) :
    s.log.committing = false := by
  by_contra hc
  obtain ⟨q, hq⟩ := h.committer (by simpa using hc)
  exact h.not_committing hp q hq

/-- **`commit` runs alone**: no operation is outstanding while a process is committing. -/
theorem Inv.outstanding_eq_zero (h : s.Inv) {p : P} (hp : (s.pc p).Committing) :
    s.log.outstanding = 0 ∧ ∀ q, ¬ s.Running q := by
  have hnone : ∀ q, ¬ s.Running q := fun q ⟨o, hq⟩ => h.not_committing hq p hp
  obtain ⟨S, hS, hcard⟩ := h.outstanding
  have hempty : S = ∅ := Finset.eq_empty_of_forall_notMem fun q hq => hnone q ((hS q).mp hq)
  exact ⟨by rw [hcard, hempty]; rfl, hnone⟩

/-- Moving a process between points outside operations does not change who is running. -/
theorem goto_inOp_iff {p : P} {c : Pc} (hp : ∀ o, s.pc p ≠ .inOp o) (hc : ∀ o, c ≠ .inOp o)
    (q : P) (o : ℕ) : (s.goto p c).pc q = .inOp o ↔ s.pc q = .inOp o := by
  rw [goto_pc]
  split
  · rename_i hq
    subst hq
    exact ⟨fun h => absurd h (hc o), fun h => absurd h (hp o)⟩
  · exact Iff.rfl

/-- **Going to sleep** in `begin_op` keeps the invariant. -/
theorem Inv.sleep (h : s.Inv) {p : P} (hp : s.pc p = .idle ∨ s.pc p = .sleeping) :
    (s.goto p .sleeping).Inv := by
  have hrun := @goto_inOp_iff P s _ p .sleeping (by rcases hp with hp | hp <;> simp [hp]) (by simp)
  have hcom : ∀ q, ((s.goto p .sleeping).pc q).Committing ↔ (s.pc q).Committing := by
    intro q
    rw [goto_pc]
    split
    · rename_i hq
      subst hq
      rcases hp with hp | hp <;> simp [hp, Pc.Committing]
    · exact Iff.rfl
  obtain ⟨S, hS, hcard⟩ := h.outstanding
  refine ⟨h.nodup, ⟨S, fun q => ?_, hcard⟩, fun hc => ?_, fun q hq => ?_, fun hn hi => ?_,
    fun q hq => ?_, h.fresh, fun q o hq => h.running q o ((hrun q o).mp hq),
    fun q r o hq hr => h.injective q r o ((hrun q o).mp hq) ((hrun r o).mp hr), fun o ho => ?_,
    h.grouped, h.panics⟩
  · rw [hS q]
    exact exists_congr fun o => (hrun q o).symm
  · obtain ⟨q, hq⟩ := h.committer hc
    exact ⟨q, (hcom q).mpr hq⟩
  · obtain ⟨hc, hrest⟩ := h.alone q ((hcom q).mp hq)
    refine ⟨hc, fun r hr => ?_⟩
    rw [goto_pc]
    split
    · exact Or.inr rfl
    · exact hrest r hr
  · refine h.header hn fun q hq => ?_
    have := hi q
    rw [goto_pc] at this
    split at this
    · rename_i hqp
      rcases hp with hp | hp <;> simp [hqp, hp] at hq
    · exact this hq
  · rw [goto_pc] at hq
    split at hq
    · simp at hq
    · exact h.emptied q hq
  · obtain ⟨hb, he⟩ := h.whole o ho
    exact ⟨hb, he.imp id fun ⟨q, hq⟩ => ⟨q, (hrun q o).mpr hq⟩⟩

/-- **Admission** by `begin_op` keeps the invariant: the new operation is fresh. -/
theorem Inv.enter (h : s.Inv) {p : P} (hp : s.pc p = .idle ∨ s.pc p = .sleeping)
    (hc : s.log.committing = false) :
    (({ s with log := { s.log with outstanding := s.log.outstanding + 1 },
               nextOp := s.nextOp + 1 }.goto p (.inOp s.nextOp)).record (.began s.nextOp)).Inv := by
  have hpno : ∀ o, s.pc p ≠ .inOp o := by rcases hp with hp | hp <;> simp [hp]
  have hnc : ∀ q, ¬ (s.pc q).Committing := fun q hq => by
    have := (h.alone q hq).1
    simp [hc] at this
  have hnew : ¬ Touches s.nextOp s.hist := fun ht => lt_irrefl _ (h.fresh _ ht)
  have hsince : since (.began s.nextOp :: s.hist) = .began s.nextOp :: since s.hist :=
    since_cons rfl s.hist
  obtain ⟨S, hS, hcard⟩ := h.outstanding
  refine ⟨h.nodup, ⟨insert p S, fun q => ?_, ?_⟩, fun hc' => ?_, fun q hq => ?_, fun hn _ b => ?_,
    fun q hq => ?_, fun o ho => ?_, fun q o hq => ?_, fun q r o hq hr => ?_, fun o ho => ?_,
    h.grouped.cons rfl (Or.inr hnew), h.panics⟩
  · simp only [Finset.mem_insert, Running, record_pc, goto_pc]
    by_cases hqp : q = p
    · simp [hqp]
    · simpa [hqp, Running] using hS q
  · have hpS : p ∉ S := fun hmem => by
      obtain ⟨o, ho⟩ := (hS p).mp hmem
      exact hpno o ho
    simp only [record_log, goto_log, Finset.card_insert_of_notMem hpS, hcard]
    push_cast
    rfl
  · simp [hc] at hc'
  · simp only [record_pc, goto_pc] at hq
    split at hq
    · exact absurd hq (by simp [Pc.Committing])
    · exact absurd hq (hnc q)
  · rw [record_hist, goto_hist, hsince]
    have hni : ∀ q, s.pc q ≠ .install := fun q hq => hnc q (by simp [hq, Pc.Committing])
    simpa using h.header hn hni b
  · simp only [record_pc, goto_pc] at hq
    split at hq
    · simp at hq
    · exact absurd (by rcases hq with hq | hq <;> simp [hq, Pc.Committing]) (hnc q)
  · rw [record_hist, touches_cons rfl] at ho
    simp only [record_nextOp, goto_nextOp]
    rcases ho with rfl | ho
    · omega
    · have := h.fresh o ho
      omega
  · rw [record_hist, goto_hist, hsince, touches_cons rfl]
    simp only [record_pc, goto_pc] at hq
    split at hq
    · exact Or.inl (Pc.inOp.inj hq).symm
    · exact Or.inr (h.running q o hq)
  · -- an operation that is already running is older than the new one
    have hold : ∀ r, s.pc r ≠ .inOp s.nextOp := fun r hr =>
      hnew ((h.running r _ hr).mono fun _ => mem_of_mem_since)
    simp only [record_pc, goto_pc] at hq hr
    split at hq <;> split at hr
    · rename_i h1 h2
      rw [h1, h2]
    · rw [← Pc.inOp.inj hq] at hr
      exact absurd hr (hold r)
    · rw [← Pc.inOp.inj hr] at hq
      exact absurd hq (hold q)
    · exact h.injective q r o hq hr
  · rw [record_hist, goto_hist, hsince, touches_cons rfl] at ho
    rw [record_hist, goto_hist, hsince]
    rcases ho with rfl | ho
    · exact ⟨List.mem_cons_self, Or.inr ⟨p, by simp⟩⟩
    · obtain ⟨hb, he⟩ := h.whole o ho
      refine ⟨List.mem_cons_of_mem _ hb, he.imp (List.mem_cons_of_mem _) fun ⟨q, hq⟩ => ⟨q, ?_⟩⟩
      have hqp : q ≠ p := fun hqp => hpno o (hqp ▸ hq)
      simp [hqp, hq]

/-- **A `log_write`** inside an operation keeps the invariant, whether the block enters the header
or the call panics. -/
theorem Inv.wrote (h : s.Inv) {p : P} {o b : ℕ} (hp : s.pc p = .inOp o) (hnp : s.panicked = none)
    {lh : List ℕ} {e : Option Panic} (hnodup : lh.Nodup)
    (hlh : e = none → ∀ c, c ∈ lh ↔ c = b ∨ c ∈ s.log.lh)
    (he : e = none ∨ e = some .tooBigTransaction) :
    ({ s with log := { s.log with lh := lh }, panicked := e }.record (.wrote o b)).Inv := by
  have hsince : since (.wrote o b :: s.hist) = .wrote o b :: since s.hist := since_cons rfl s.hist
  have ho := h.running p o hp
  refine ⟨hnodup, h.outstanding, h.committer, h.alone, fun hn hi c => ?_, fun q hq => ?_,
    fun o' ho' => ?_, fun q o' hq => ?_, h.injective, fun o' ho' => ?_,
    h.grouped.cons rfl (Or.inl ho), he⟩
  · rw [record_hist, hsince]
    have hold := h.header hnp hi c
    simp only [record_log, List.mem_cons, Event.wrote.injEq]
    rw [hlh hn c, hold]
    constructor
    · rintro (rfl | ⟨o', ho'⟩)
      · exact ⟨o, Or.inl ⟨rfl, rfl⟩⟩
      · exact ⟨o', Or.inr ho'⟩
    · rintro ⟨o', ⟨-, rfl⟩ | ho'⟩
      · exact Or.inl rfl
      · exact Or.inr ⟨o', ho'⟩
  · exact absurd (by rcases hq with hq | hq <;> simp only [record_pc] at hq <;>
      simp [hq, Pc.Committing]) (h.not_committing hp q)
  · rw [record_hist, touches_cons rfl] at ho'
    rcases ho' with rfl | ho'
    · exact h.fresh _ (ho.mono fun _ => mem_of_mem_since)
    · exact h.fresh o' ho'
  · rw [record_hist, hsince, touches_cons rfl]
    exact Or.inr (h.running q o' hq)
  · rw [record_hist, hsince] at ho' ⊢
    have hmem : Touches o' (since s.hist) := by
      rcases (touches_cons rfl).mp ho' with rfl | ho'
      · exact ho
      · exact ho'
    obtain ⟨hb, he'⟩ := h.whole o' hmem
    exact ⟨List.mem_cons_of_mem _ hb, he'.imp (List.mem_cons_of_mem _) id⟩

/-- **The first critical section of `end_op`** keeps the invariant: the process leaves its operation
and starts to commit only if it was the last one. -/
theorem Inv.ended (h : s.Inv) {p : P} {o : ℕ} (hp : s.pc p = .inOp o) {c : Pc} {com : Bool}
    (hc : c = .idle ∧ com = false ∨ c = .commit ∧ com = true ∧ s.log.outstanding = 1) :
    (({ s with log := { s.log with outstanding := s.log.outstanding - 1, committing := com } }.goto p
      c).record (.ended o)).Inv := by
  have hsince : since (.ended o :: s.hist) = .ended o :: since s.hist := since_cons rfl s.hist
  have ho := h.running p o hp
  have hcno : ∀ o', c ≠ .inOp o' := by
    rcases hc with ⟨rfl, -⟩ | ⟨rfl, -⟩ <;> simp
  have hnc := h.not_committing hp
  obtain ⟨S, hS, hcard⟩ := h.outstanding
  have hpS : p ∈ S := (hS p).mpr ⟨o, hp⟩
  have hinOp : ∀ q o', q ≠ p → s.pc q = .inOp o' → 1 < s.log.outstanding := by
    intro q o' hqp hq
    have hsub : ({p, q} : Finset P) ⊆ S := by
      intro r hr
      rcases Finset.mem_insert.mp hr with rfl | hr
      · exact hpS
      · exact Finset.mem_singleton.mp hr ▸ (hS q).mpr ⟨o', hq⟩
    have := Finset.card_le_card hsub
    rw [Finset.card_pair fun hpq => hqp hpq.symm] at this
    omega
  refine ⟨h.nodup, ⟨S.erase p, fun q => ?_, ?_⟩, fun hcom => ?_, fun q hq => ?_, fun hn hi b => ?_,
    fun q hq => ?_, fun o' ho' => ?_, fun q o' hq => ?_, fun q r o' hq hr => ?_, fun o' ho' => ?_,
    h.grouped.cons rfl (Or.inl ho), h.panics⟩
  · simp only [Finset.mem_erase, Running, record_pc, goto_pc]
    by_cases hqp : q = p
    · simp [hqp, hcno]
    · simpa [hqp, Running] using hS q
  · simp only [record_log, goto_log, Finset.card_erase_of_mem hpS, hcard]
    have := Finset.card_pos.mpr ⟨p, hpS⟩
    omega
  · rcases hc with ⟨-, rfl⟩ | ⟨rfl, -, -⟩
    · simp at hcom
    · exact ⟨p, by simp [Pc.Committing]⟩
  · -- only `p` can be committing, and then every other process is outside operations
    simp only [record_pc, goto_pc] at hq
    split at hq
    · rename_i hqp
      subst hqp
      rcases hc with ⟨rfl, -⟩ | ⟨rfl, rfl, hone⟩
      · exact absurd hq (by simp [Pc.Committing])
      · refine ⟨rfl, fun r hr => ?_⟩
        simp only [record_pc, goto_pc, if_neg hr]
        cases hrpc : s.pc r with
        | idle => exact Or.inl rfl
        | sleeping => exact Or.inr rfl
        | inOp o' =>
          have := hinOp r o' hr hrpc
          omega
        | commit => exact absurd (by simp [hrpc, Pc.Committing]) (hnc r)
        | install => exact absurd (by simp [hrpc, Pc.Committing]) (hnc r)
        | release => exact absurd (by simp [hrpc, Pc.Committing]) (hnc r)
    · exact absurd hq (hnc q)
  · rw [record_hist, goto_hist, hsince]
    have hni : ∀ q, s.pc q ≠ .install := fun q hq => hnc q (by simp [hq, Pc.Committing])
    simpa using h.header hn hni b
  · simp only [record_pc, goto_pc] at hq
    split at hq
    · rcases hc with ⟨rfl, -⟩ | ⟨rfl, -⟩ <;> simp at hq
    · exact absurd (by rcases hq with hq | hq <;> simp [hq, Pc.Committing]) (hnc q)
  · rw [record_hist, touches_cons rfl] at ho'
    rcases ho' with rfl | ho'
    · exact h.fresh _ (ho.mono fun _ => mem_of_mem_since)
    · exact h.fresh o' ho'
  · rw [record_hist, goto_hist, hsince, touches_cons rfl]
    simp only [record_pc, goto_pc] at hq
    split at hq
    · exact absurd hq (hcno o')
    · exact Or.inr (h.running q o' hq)
  · simp only [record_pc, goto_pc] at hq hr
    split at hq
    · exact absurd hq (hcno o')
    · split at hr
      · exact absurd hr (hcno o')
      · exact h.injective q r o' hq hr
  · rw [record_hist, goto_hist, hsince] at ho' ⊢
    rcases eq_or_ne o' o with rfl | hoo
    · exact ⟨List.mem_cons_of_mem _ (h.whole o' ho).1, Or.inl List.mem_cons_self⟩
    · obtain ⟨hb, he⟩ := h.whole o' (((touches_cons rfl).mp ho').resolve_left hoo)
      refine ⟨List.mem_cons_of_mem _ hb, he.imp (List.mem_cons_of_mem _) fun ⟨q, hq⟩ => ⟨q, ?_⟩⟩
      have hqp : q ≠ p := fun hqp => hoo (Pc.inOp.inj (hq.symm.trans (hqp ▸ hp)))
      simp [hqp, hq]

/-- **The committing process moves on** with nothing logged since the last commit: every other
process is outside operations, so the invariant asks little. -/
theorem Inv.moved (h : s.Inv) {p : P} (hp : (s.pc p).Committing) {c : Pc} {lh : List ℕ} {com : Bool}
    {hist : List Event} (hcno : ∀ o, c ≠ .inOp o) (hcom : c.Committing ↔ com = true)
    (hnodup : lh.Nodup) (hlh : c ≠ .install → lh = []) (hsince : since hist = [])
    (hfresh : ∀ o, Touches o hist → Touches o s.hist) (hgrouped : Grouped hist) :
    ({ s with log := { s.log with lh := lh, committing := com }, hist := hist }.goto p c).Inv := by
  obtain ⟨-, hrest⟩ := h.alone p hp
  have hother : ∀ q, q ≠ p → ¬ (s.pc q).Committing ∧ ∀ o, s.pc q ≠ .inOp o := by
    intro q hq
    rcases hrest q hq with hq | hq <;> simp [hq, Pc.Committing]
  have hrun : ∀ q o, update s.pc p c q ≠ .inOp o := by
    intro q o
    rw [update_apply]
    split
    · exact hcno o
    · rename_i hq
      exact (hother q hq).2 o
  obtain ⟨S, hS, hcard⟩ := h.outstanding
  have hpno : ∀ o, s.pc p ≠ .inOp o := fun o ho => h.not_committing ho p hp
  refine ⟨hnodup, ⟨S, fun q => ?_, hcard⟩, fun hc => ⟨p, ?_⟩, fun q hq => ?_, fun _ hi b => ?_,
    fun _ _ => hsince, fun o ho => h.fresh o (hfresh o ho), fun q o hq => absurd hq (hrun q o),
    fun q _ o hq => absurd hq (hrun q o), fun o ho => ?_, hgrouped, h.panics⟩
  · rw [hS q]
    exact exists_congr fun o => (goto_inOp_iff hpno hcno q o).symm
  · rw [goto_pc, if_pos rfl]
    exact hcom.mpr hc
  · rw [goto_pc] at hq
    split at hq
    · rename_i hqp
      subst hqp
      refine ⟨hcom.mp hq, fun r hr => ?_⟩
      rw [goto_pc, if_neg hr]
      exact hrest r hr
    · rename_i hqp
      exact absurd hq (hother q hqp).1
  · have hc : c ≠ .install := by
      have := hi p
      rwa [goto_pc, if_pos rfl] at this
    simp [hlh hc, hsince]
  · obtain ⟨e, he, -⟩ := ho
    simp [hsince] at he

/-- **Every step keeps the invariant.** -/
theorem Inv.step (h : s.Inv) (hs : s.step a = some t) : t.Inv := by
  obtain ⟨hnp, hs⟩ := step_inv hs
  cases hs with
  | sleep p hp => exact h.sleep hp
  | enter p hp hc _ => exact h.enter hp hc
  | full p b o hp _ => exact h.wrote hp hnp h.nodup (by simp) (Or.inr rfl)
  | outside p b o hp hout =>
    have := h.one_le_outstanding hp
    omega
  | write p b o hp _ _ =>
    have := @Inv.wrote P s _ h p o b hp hnp (absorb b s.log.lh) none (nodup_absorb h.nodup)
      (fun _ c => mem_absorb) (Or.inl rfl)
    rwa [← hnp] at this
  | endPanic p o hp hc => simp [h.committing_eq_false hp] at hc
  | endCommit p o hp _ hlast =>
    have := @Inv.ended P s _ h p o hp .commit true (Or.inr ⟨rfl, rfl, hlast⟩)
    rwa [hlast] at this
  | endOther p o hp hc _ =>
    have := @Inv.ended P s _ h p o hp .idle false (Or.inl ⟨rfl, rfl⟩)
    rwa [← hc] at this
  | writeHead p hp =>
    have hcom : (s.pc p).Committing := by simp [hp, Pc.Committing]
    have hnorun : ∀ q o, s.pc q ≠ .inOp o := fun q o hq =>
      (h.outstanding_eq_zero hcom).2 q ⟨o, hq⟩
    have hni : ∀ q, s.pc q ≠ .install := by
      intro q hq
      by_cases hqp : q = p
      · simp [hqp, hp] at hq
      · rcases (h.alone p hcom).2 q hqp with h' | h' <;> simp [h'] at hq
    have hgroups : Groups s.log.lh s.hist := by
      refine ⟨fun o ho => ?_, h.header hnp hni⟩
      obtain ⟨hb, he⟩ := h.whole o ho
      exact ⟨hb, he.resolve_right fun ⟨q, hq⟩ => hnorun q o hq⟩
    exact @Inv.moved P s _ h p hcom .install s.log.lh s.log.committing _ (by simp)
      (by simp [Pc.Committing, (h.alone p hcom).1]) h.nodup (by simp)
      (since_cons_committed s.log.lh s.hist) (fun o => touches_cons_committed.mp)
      (h.grouped.cons_committed hgroups)
  | install p hp =>
    have hcom : (s.pc p).Committing := by simp [hp, Pc.Committing]
    exact @Inv.moved P s _ h p hcom .release [] s.log.committing s.hist (by simp)
      (by simp [Pc.Committing, (h.alone p hcom).1]) List.nodup_nil (fun _ => rfl)
      (h.emptied p (Or.inl hp)) (fun _ => id) h.grouped
  | release p hp =>
    have hcom : (s.pc p).Committing := by simp [hp, Pc.Committing]
    have hni : ∀ q, s.pc q ≠ .install := by
      intro q hq
      by_cases hqp : q = p
      · simp [hqp, hp] at hq
      · rcases (h.alone p hcom).2 q hqp with h' | h' <;> simp [h'] at hq
    have hsince := h.emptied p (Or.inr hp)
    have hlh : s.log.lh = [] := by
      refine List.eq_nil_iff_forall_not_mem.mpr fun b hb => ?_
      obtain ⟨o, ho⟩ := (h.header hnp hni b).mp hb
      simp [hsince] at ho
    exact @Inv.moved P s _ h p hcom .idle s.log.lh false s.hist (by simp)
      (by simp [Pc.Committing]) h.nodup (fun _ => hlh) hsince (fun _ => id) h.grouped

/-- The invariant holds after every run. -/
theorem inv_of_run {size : ℤ} {as : List (Action P)}
    (hrun : runFrom Group.step (init size) as = some s) : s.Inv :=
  runFrom_invariant (fun _ _ _ h hs => h.step hs) (inv_init size) hrun

/-- **Group-commit atomicity.** In every state that any interleaving of any number of processes
reaches: while a process commits no operation is outstanding; `begin_op` admits no operation while
`committing` is set; the header never lists a block twice; the panics `log.committing` and
`log_write outside of trans` have not happened; and for every commit of the history, with the
operations of the history before it since the previous commit, (a) each of them that did anything
has ended, (b) an operation that ended there has all its `log_write`s there, and all their blocks
are in the header of this commit, and (c) the header lists no other block. -/
theorem group_commit_atomic {size : ℤ} {as : List (Action P)}
    (hrun : runFrom Group.step (init size) as = some s) :
    (∀ p, (s.pc p).Committing → s.log.outstanding = 0 ∧ ∀ q, ¬ s.Running q) ∧
    (∀ p t, s.step (.beginOp p) = some t → t.Running p →
      s.log.committing = false ∧ ∀ q, ¬ (s.pc q).Committing) ∧
    s.log.lh.Nodup ∧
    s.panicked ≠ some .logCommitting ∧ s.panicked ≠ some .logWriteOutsideTrans ∧
    (∀ newer H older, s.hist = newer ++ .committed H :: older →
      (∀ o b, .wrote o b ∈ since older → .ended o ∈ since older) ∧
      (∀ o b, .ended o ∈ since older → .wrote o b ∈ s.hist →
        .wrote o b ∈ since older ∧ b ∈ H) ∧
      (∀ b ∈ H, ∃ o, .wrote o b ∈ since older)) := by
  have h := inv_of_run hrun
  refine ⟨fun p hp => h.outstanding_eq_zero hp, fun p t ht hrunning => ?_, h.nodup, ?_, ?_,
    fun newer H older hsplit => ?_⟩
  · obtain ⟨-, hstep⟩ := step_inv ht
    cases hstep with
    | sleep _ hp =>
      obtain ⟨o, ho⟩ := hrunning
      simp at ho
    | enter _ hp hc _ =>
      refine ⟨hc, fun q hq => ?_⟩
      have := (h.alone q hq).1
      simp [hc] at this
  · rcases h.panics with hp | hp <;> simp [hp]
  · rcases h.panics with hp | hp <;> simp [hp]
  · obtain ⟨hgroups, hsep⟩ := h.grouped newer H older hsplit
    refine ⟨fun o b hb => (hgroups.whole o ⟨_, hb, rfl⟩).2, fun o b hend hb => ?_,
      fun b hb => (hgroups.exact b).mp hb⟩
    have hold : Touches o older := ⟨_, mem_of_mem_since hend, rfl⟩
    have hmem : .wrote o b ∈ since older := by
      rw [hsplit] at hb
      rcases List.mem_append.mp hb with hb | hb
      · exact absurd hold (hsep o ⟨_, hb, rfl⟩)
      · have hb : .wrote o b ∈ older := (List.mem_cons.mp hb).resolve_left (by simp)
        rcases since_split older with heq | ⟨H', older', heq⟩
        · rwa [heq]
        · -- a write before the previous commit would put the operation on both sides of it
          rw [heq] at hb
          rcases List.mem_append.mp hb with hb | hb
          · exact hb
          · have hsplit' : s.hist = (newer ++ .committed H :: since older) ++
                .committed H' :: older' := by
              rw [hsplit, List.append_assoc, List.cons_append, ← heq]
            have hb : .wrote o b ∈ older' := (List.mem_cons.mp hb).resolve_left (by simp)
            exact absurd ⟨_, hb, rfl⟩
              ((h.grouped _ _ _ hsplit').2 o ⟨.ended o, by simp [hend], rfl⟩)
    exact ⟨hmem, (hgroups.exact b).mpr ⟨o, hmem⟩⟩

/-- The theorem on a run of two processes that log the same block and commit together. -/
theorem group_commit_atomic_two_processes : ∃ s : Group ℕ,
    runFrom Group.step (init 31) [.beginOp 0, .beginOp 1, .logWrite 0 50, .logWrite 1 50, .endOp 0,
      .endOp 1, .writeHead 1] = some s ∧ s.log.lh = [50] ∧ s.log.lh.Nodup := by
  obtain ⟨s, hrun, hlh⟩ : ∃ s : Group ℕ, runFrom Group.step (init 31) [.beginOp 0, .beginOp 1,
      .logWrite 0 50, .logWrite 1 50, .endOp 0, .endOp 1, .writeHead 1] = some s ∧
      s.log.lh = [50] := ⟨_, rfl, rfl⟩
  exact ⟨s, hrun, hlh, (group_commit_atomic hrun).2.2.1⟩

end Group

end Xv6
