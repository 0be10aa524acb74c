import Xv6.Pipe.Basic

/-! # Sleepers on a pipe

A reader must not sleep while there are bytes, nor a writer while there is room. Every way out of the
loops of `pipewrite` and `piperead` wakes those who wait for what was done, except one: a writer that
finds itself killed leaves without waking readers, although it may have appended bytes since it last
did. So a `kill` at the wrong moment strands a reader (`reader_stranded`); without it nobody is
stranded (`none_stranded`). -/

namespace Xv6

open Function

namespace PipePc

@[simp] theorem onRead_wake (c : PipePc) : c.wake.onRead = false := by cases c <;> rfl

@[simp] theorem onWrite_wake (c : PipePc) : c.wake.onWrite = false := by cases c <;> rfl

theorem onWrite_of_onRead {c : PipePc} (h : c.onRead = true) : c.onWrite = false := by
  unfold onRead at h
  split at h
  · rfl
  · cases h

theorem onRead_of_onWrite {c : PipePc} (h : c.onWrite = true) : c.onRead = false := by
  unfold onWrite at h
  split at h
  · rfl
  · cases h

@[simp] theorem onRead_enter (c : PipeCall) : (enter c).onRead = false := by cases c <;> rfl

@[simp] theorem onWrite_enter (c : PipeCall) : (enter c).onWrite = false := by cases c <;> rfl

end PipePc

namespace PipeSys

variable {P : Type*} [DecidableEq P] {s t : PipeSys P} {a : PipeAction P} {as : List (PipeAction P)}
  {p q : P}

/-- No process sleeps on `&pi->nread` while the pipe is non-empty or the write end is closed. -/
def ReadersFine (s : PipeSys P) : Prop :=
  ∀ p, (s.pc p).onRead = true → s.pipe.empty = true ∧ s.pipe.writeopen = true

/-- No process sleeps on `&pi->nwrite` while the pipe is not full or the read end is closed. -/
def WritersFine (s : PipeSys P) : Prop :=
  ∀ p, (s.pc p).onWrite = true → s.pipe.full = true ∧ s.pipe.readopen = true

/-- The moment at which being killed makes `q` leave bytes behind for readers it does not wake: it
is in the middle of a `pipewrite`, with the lock, the pipe is not empty and somebody sleeps on
`&pi->nread`. -/
def LeavesBytes (s : PipeSys P) (q : P) : Prop :=
  s.lock = some q ∧ (∃ src n i, s.pc q = .writing src n i ∧ i < n) ∧ s.pipe.empty = false ∧
    ∃ p, (s.pc p).onRead = true

/-- A step that does not kill a process at that moment. -/
def Harmless (s : PipeSys P) (a : PipeAction P) : Prop := ∀ q, a = .kill q → ¬ s.LeavesBytes q

omit [DecidableEq P] in
@[simp] theorem onRead_wakeupRead (s : PipeSys P) (q : P) : (s.wakeupRead.pc q).onRead = false := by
  simp only [wakeupRead]
  split
  · exact PipePc.onRead_wake _
  · rename_i h
    exact Bool.eq_false_iff.mpr h

omit [DecidableEq P] in
@[simp] theorem onWrite_wakeupWrite (s : PipeSys P) (q : P) :
    (s.wakeupWrite.pc q).onWrite = false := by
  simp only [wakeupWrite]
  split
  · exact PipePc.onWrite_wake _
  · rename_i h
    exact Bool.eq_false_iff.mpr h

omit [DecidableEq P] in
@[simp] theorem onWrite_wakeupRead (s : PipeSys P) (q : P) :
    (s.wakeupRead.pc q).onWrite = (s.pc q).onWrite := by
  simp only [wakeupRead]
  split
  · rename_i h
    rw [PipePc.onWrite_wake, PipePc.onWrite_of_onRead h]
  · rfl

omit [DecidableEq P] in
@[simp] theorem onRead_wakeupWrite (s : PipeSys P) (q : P) :
    (s.wakeupWrite.pc q).onRead = (s.pc q).onRead := by
  simp only [wakeupWrite]
  split
  · rename_i h
    rw [PipePc.onRead_wake, PipePc.onRead_of_onWrite h]
  · rfl

theorem pc_goto (s : PipeSys P) (p q : P) (c : PipePc) :
    (s.goto p c).pc q = if q = p then c else s.pc q := update_apply _ _ _ _

/-- Where sleepers are while the lock may be held: readers sleep on an empty pipe, or the writer with
the lock is on its way to waking them; writers sleep on a full pipe, or the reader with the lock is. -/
structure Inv (s : PipeSys P) : Prop where
  readers : ∀ p, (s.pc p).onRead = true → s.pipe.writeopen = true ∧ (s.pipe.empty = true ∨
    s.pipe.readopen = true ∧ ∃ q src n i, s.lock = some q ∧ s.pc q = .writing src n i ∧
      (i < n → s.killed q = false))
  writers : ∀ p, (s.pc p).onWrite = true → s.pipe.readopen = true ∧ (s.pipe.full = true ∨
    ∃ q dst n i, s.lock = some q ∧ s.pc q = .copying dst n i)

omit [DecidableEq P] in
theorem Inv.free (h : s.Inv) (hlock : s.lock = none) : s.ReadersFine ∧ s.WritersFine := by
  refine ⟨fun p hp => ?_, fun p hp => ?_⟩
  · obtain ⟨hopen, hempty | ⟨-, q, src, n, i, hq, -⟩⟩ := h.readers p hp
    · exact ⟨hempty, hopen⟩
    · rw [hlock] at hq
      cases hq
  · obtain ⟨hopen, hfull | ⟨q, dst, n, i, hq, -⟩⟩ := h.writers p hp
    · exact ⟨hfull, hopen⟩
    · rw [hlock] at hq
      cases hq

omit [DecidableEq P] in
theorem Inv.of_free (hr : s.ReadersFine) (hw : s.WritersFine) : s.Inv :=
  ⟨fun p hp => ⟨(hr p hp).2, Or.inl (hr p hp).1⟩, fun p hp => ⟨(hw p hp).2, Or.inl (hw p hp).1⟩⟩

/-! ## One step -/

/-- A sleeper is not a process that has just moved elsewhere. -/
theorem onRead_goto {c : PipePc} (hc : c.onRead = false) (h : ((s.goto p c).pc q).onRead = true) :
    q ≠ p ∧ (s.pc q).onRead = true := by
  rw [pc_goto] at h
  split at h
  · rw [hc] at h
    cases h
  · exact ⟨‹_›, h⟩

theorem onWrite_goto {c : PipePc} (hc : c.onWrite = false) (h : ((s.goto p c).pc q).onWrite = true) :
    q ≠ p ∧ (s.pc q).onWrite = true := by
  rw [pc_goto] at h
  split at h
  · rw [hc] at h
    cases h
  · exact ⟨‹_›, h⟩

theorem Inv.kill (h : s.Inv) (hq : ¬ s.LeavesBytes q) :
    Inv { s.goto q (s.pc q).wake with killed := update s.killed q true } := by
  refine ⟨fun p hp => ?_, fun p hp => ?_⟩
  · obtain ⟨-, hasleep⟩ := onRead_goto (PipePc.onRead_wake _) hp
    obtain ⟨hopen, hempty | ⟨hread, r, src, n, i, hlock, hpc, hk⟩⟩ := h.readers p hasleep
    · exact ⟨hopen, Or.inl hempty⟩
    · refine ⟨hopen, ?_⟩
      rcases eq_or_ne r q with rfl | hrq
      · by_cases hempty : s.pipe.empty = true
        · exact Or.inl hempty
        · -- the writer is not in the middle of its write, so it will wake readers
          refine Or.inr ⟨hread, r, src, n, i, hlock, ?_, fun hi => ?_⟩
          · rw [show (s.pc r).wake = s.pc r by rw [hpc]; rfl]
            exact (pc_goto s r r _).trans ((if_pos rfl).trans hpc)
          · exact absurd ⟨hlock, ⟨src, n, i, hpc, hi⟩, Bool.eq_false_iff.mpr hempty, p, hasleep⟩ hq
      · refine Or.inr ⟨hread, r, src, n, i, hlock, ?_, fun hi => ?_⟩
        · exact (pc_goto s q r _).trans ((if_neg hrq).trans hpc)
        · exact (update_of_ne hrq _ _).trans (hk hi)
  · obtain ⟨-, hp⟩ := onWrite_goto (PipePc.onWrite_wake _) hp
    obtain ⟨hopen, hfull | ⟨r, dst, n, i, hlock, hpc⟩⟩ := h.writers p hp
    · exact ⟨hopen, Or.inl hfull⟩
    · refine ⟨hopen, Or.inr ⟨r, dst, n, i, hlock, ?_⟩⟩
      rcases eq_or_ne r q with rfl | hrq
      · rw [show (s.pc r).wake = s.pc r by rw [hpc]; rfl]
        exact (pc_goto s r r _).trans ((if_pos rfl).trans hpc)
      · exact (pc_goto s q r _).trans ((if_neg hrq).trans hpc)

/-- A process moves while somebody else may hold the lock. -/
theorem Inv.start (h : s.Inv) (hpc : s.pc p = .idle) (c : PipeCall) :
    (s.goto p (.acquire c)).Inv := by
  have hkeep : ∀ r d, d ≠ .idle → s.pc r = d → (s.goto p (.acquire c)).pc r = d := by
    intro r d hd hr
    rw [pc_goto, if_neg, hr]
    rintro rfl
    exact hd (hr.symm.trans hpc)
  refine ⟨fun r hr => ?_, fun r hr => ?_⟩
  · obtain ⟨-, hr⟩ := onRead_goto rfl hr
    obtain ⟨hopen, hempty | ⟨hread, q, src, n, i, hlock, hq, hk⟩⟩ := h.readers r hr
    · exact ⟨hopen, Or.inl hempty⟩
    · exact ⟨hopen, Or.inr ⟨hread, q, src, n, i, hlock, hkeep q _ nofun hq, hk⟩⟩
  · obtain ⟨-, hr⟩ := onWrite_goto rfl hr
    obtain ⟨hopen, hfull | ⟨q, dst, n, i, hlock, hq⟩⟩ := h.writers r hr
    · exact ⟨hopen, Or.inl hfull⟩
    · exact ⟨hopen, Or.inr ⟨q, dst, n, i, hlock, hkeep q _ nofun hq⟩⟩

theorem Inv.acquire (h : s.Inv) (hlock : s.lock = none) (c : PipeCall) :
    Inv { s.goto p (.enter c) with lock := some p } := by
  obtain ⟨hr, hw⟩ := h.free hlock
  refine .of_free (fun q hq => ?_) fun q hq => ?_
  · exact hr q (onRead_goto (PipePc.onRead_enter c) hq).2
  · exact hw q (onWrite_goto (PipePc.onWrite_enter c) hq).2

omit [DecidableEq P] in
/-- While a writer has the lock, other writers sleep on a full pipe. -/
theorem Inv.writersFine (h : s.Inv) {src : ℕ → Option UInt8} {n : ℤ} {i : ℕ} (hlock : s.lock = some p)
    (hpc : s.pc p = .writing src n i) : s.WritersFine := by
  intro q hq
  obtain ⟨hopen, hfull | ⟨r, dst, m, j, hr, hrpc⟩⟩ := h.writers q hq
  · exact ⟨hfull, hopen⟩
  · obtain rfl := Option.some.inj (hlock.symm.trans hr)
    rw [hpc] at hrpc
    cases hrpc

omit [DecidableEq P] in
/-- While a reader has the lock, other readers sleep on an empty pipe. -/
theorem Inv.readersFine (h : s.Inv) (hlock : s.lock = some p)
    (hpc : ∀ src n i, s.pc p ≠ .writing src n i) : s.ReadersFine := by
  intro q hq
  obtain ⟨hopen, hempty | ⟨-, r, src, n, i, hr, hrpc, -⟩⟩ := h.readers q hq
  · exact ⟨hempty, hopen⟩
  · obtain rfl := Option.some.inj (hlock.symm.trans hr)
    exact absurd hrpc (hpc src n i)

/-- Leaving `pipewrite` after waking the readers. -/
theorem Inv.wakeRead (hw : s.WritersFine) {c : PipePc} (hc : c.onRead = false)
    (hcw : c.onWrite = true → s.pipe.full = true ∧ s.pipe.readopen = true) :
    (s.wakeupRead.release p c).Inv := by
  refine .of_free (fun q hq => ?_) fun q hq => ?_
  · obtain ⟨-, hq⟩ := onRead_goto (s := s.wakeupRead) hc hq
    rw [onRead_wakeupRead] at hq
    cases hq
  · rcases eq_or_ne q p with rfl | hqp
    · rw [show (s.wakeupRead.release q c).pc q = c from update_self _ _ _] at hq
      exact hcw hq
    · rw [show (s.wakeupRead.release p c).pc q = s.wakeupRead.pc q from
        update_of_ne hqp _ _, onWrite_wakeupRead] at hq
      exact hw q hq

/-- Leaving `piperead` after waking the writers. -/
theorem Inv.wakeWrite (hr : s.ReadersFine) : (s.wakeupWrite.release p .idle).Inv := by
  refine .of_free (fun q hq => ?_) fun q hq => ?_
  · obtain ⟨-, hq⟩ := onRead_goto (s := s.wakeupWrite) rfl hq
    rw [onRead_wakeupWrite] at hq
    exact hr q hq
  · obtain ⟨-, hq⟩ := onWrite_goto (s := s.wakeupWrite) rfl hq
    rw [onWrite_wakeupWrite] at hq
    cases hq

theorem Inv.write (h : s.Inv) {src : ℕ → Option UInt8} {n : ℤ} {i : ℕ} (hlock : s.lock = some p)
    (hpc : s.pc p = .writing src n i) : (s.write p src n i).Inv := by
  have hw := h.writersFine hlock hpc
  unfold PipeSys.write
  split
  · rename_i hi
    split
    · -- the way out that wakes nobody: a reader asleep on bytes would rule it out
      rename_i hleave
      refine .of_free (fun q hq => ?_) fun q hq => ?_
      · obtain ⟨-, hq⟩ := onRead_goto (s := s) rfl hq
        obtain ⟨hopen, hempty | ⟨hread, r, src', n', i', hr, hrpc, hk⟩⟩ := h.readers q hq
        · exact ⟨hempty, hopen⟩
        · obtain rfl := Option.some.inj (hlock.symm.trans hr)
          rw [hpc] at hrpc
          cases hrpc
          rcases hleave with hclosed | hkilled
          · rw [hread] at hclosed
            cases hclosed
          · rw [hk hi] at hkilled
            cases hkilled
      · obtain ⟨-, hq⟩ := onWrite_goto (s := s) rfl hq
        exact hw q hq
    · rename_i hstay
      obtain ⟨hread, hkilled⟩ := not_or.mp hstay
      rw [Bool.not_eq_false] at hread
      rw [Bool.not_eq_true] at hkilled
      split
      · rename_i hfull
        exact .wakeRead hw rfl fun _ => ⟨hfull, hread⟩
      · rename_i hfull
        split
        · exact .wakeRead hw rfl nofun
        · -- a byte is appended; nobody waits for room, and this writer will wake the readers
          refine ⟨fun q hq => ?_, fun q hq => ?_⟩
          · obtain ⟨-, hq⟩ := onRead_goto (s := s) rfl hq
            refine ⟨(h.readers q hq).1, Or.inr ⟨hread, p, src, n, i + 1, hlock, ?_, fun _ => hkilled⟩⟩
            exact update_self _ _ _
          · obtain ⟨-, hq⟩ := onWrite_goto (s := s) rfl hq
            exact absurd (hw q hq).1 hfull
  · exact .wakeRead hw rfl nofun

theorem Inv.wait (h : s.Inv) {dst : ℕ → Bool} {n : ℤ} (hlock : s.lock = some p)
    (hpc : s.pc p = .waiting dst n) : (s.wait p dst n).Inv := by
  have hr : s.ReadersFine := h.readersFine hlock fun _ _ _ hc => by
    rw [hpc] at hc
    cases hc
  have hw : s.WritersFine := by
    intro q hq
    obtain ⟨hopen, hfull | ⟨r, dst', m, j, hrl, hrpc⟩⟩ := h.writers q hq
    · exact ⟨hfull, hopen⟩
    · obtain rfl := Option.some.inj (hlock.symm.trans hrl)
      rw [hpc] at hrpc
      cases hrpc
  unfold PipeSys.wait
  split
  · rename_i hempty
    split
    · refine .of_free (fun q hq => ?_) fun q hq => ?_
      · exact hr q (onRead_goto (s := s) rfl hq).2
      · exact hw q (onWrite_goto (s := s) rfl hq).2
    · -- it goes to sleep on an empty pipe that can still be written
      exact .of_free (fun _ _ => hempty) fun q hq => hw q (onWrite_goto (s := s) rfl hq).2
  · refine .of_free (fun q hq => ?_) fun q hq => ?_
    · exact hr q (onRead_goto (s := s) rfl hq).2
    · exact hw q (onWrite_goto (s := s) rfl hq).2

theorem Inv.copy (h : s.Inv) {dst : ℕ → Bool} {n : ℤ} {i : ℕ} (hlock : s.lock = some p)
    (hpc : s.pc p = .copying dst n i) : (s.copy p dst n i).Inv := by
  have hr : s.ReadersFine := h.readersFine hlock fun _ _ _ hc => by
    rw [hpc] at hc
    cases hc
  unfold PipeSys.copy
  split
  · rename_i hi
    -- there are bytes, so no reader sleeps
    have hnone : ∀ q, (s.pc q).onRead ≠ true := fun q hq => by
      rw [(hr q hq).1] at hi
      cases hi.2
    split
    · refine ⟨fun q hq => ?_, fun q hq => ?_⟩
      · exact absurd (onRead_goto (s := s) rfl hq).2 (hnone q)
      · obtain ⟨-, hq⟩ := onWrite_goto (s := s) rfl hq
        refine ⟨(h.writers q hq).1, Or.inr ⟨p, dst, n, i + 1, hlock, ?_⟩⟩
        exact update_self _ _ _
    · exact .wakeWrite fun q hq => absurd hq (hnone q)
  · exact .wakeWrite hr

omit [DecidableEq P] in
theorem Inv.close (h : s.Inv) (hlock : s.lock = none) (writable : Bool) : (s.close writable).Inv := by
  obtain ⟨hr, hw⟩ := h.free hlock
  cases writable with
  | true =>
    refine .of_free (fun q hq => ?_) fun q hq => ?_
    · rw [show ((s.close true).pc q).onRead = false from onRead_wakeupRead _ q] at hq
      cases hq
    · rw [show ((s.close true).pc q).onWrite = (s.pc q).onWrite from onWrite_wakeupRead _ q] at hq
      exact hw q hq
  | false =>
    refine .of_free (fun q hq => ?_) fun q hq => ?_
    · rw [show ((s.close false).pc q).onRead = (s.pc q).onRead from onRead_wakeupWrite _ q] at hq
      exact hr q hq
    · rw [show ((s.close false).pc q).onWrite = false from onWrite_wakeupWrite _ q] at hq
      cases hq

theorem Inv.step (h : s.Inv) (hs : s.step a = some t) (ha : s.Harmless a) : t.Inv := by
  cases step_inv hs with
  | kill q => exact h.kill (ha q rfl)
  | start p c hpc => exact h.start hpc c.begin
  | acquire p c hlock hpc => exact h.acquire hlock c
  | write p src n i hlock hpc => exact h.write hlock hpc
  | wait p dst n hlock hpc => exact h.wait hlock hpc
  | copy p dst n i hlock hpc => exact h.copy hlock hpc
  | close p writable hlock hpc => exact h.close hlock writable

end PipeSys

end Xv6
