import Xv6.Pipe.Basic
import Xv6.Lib.Ring

/-! # A pipe is a bounded queue

The bytes between the two wrapping counters are the contents of a ring. Whatever the interleaving,
at most `PIPESIZE` bytes are in the ring, and what was delivered followed by what is in the ring is
what was appended (`PipeSys.fifo`). -/

namespace Xv6

namespace Pipe

/-- The number of bytes in the ring: `nwrite - nread`, as 32-bit numbers. -/
def used (pi : Pipe) : ℕ := (pi.nwrite - pi.nread).toNat

/-- The bytes in the ring, oldest first. -/
def contents (pi : Pipe) : List UInt8 := Ring.contents pi.data pi.nread.toNat pi.used

variable {pi : Pipe} {ch : UInt8}

theorem used_eq (pi : Pipe) :
    pi.used = (2 ^ 32 - pi.nread.toNat + pi.nwrite.toNat) % 2 ^ 32 := UInt32.toNat_sub _ _

theorem full_iff : pi.full = true ↔ pi.used = PIPESIZE := by
  have hr := pi.nread.toNat_lt
  have hw := pi.nwrite.toNat_lt
  rw [full, decide_eq_true_eq, used_eq, ← UInt32.toNat_inj, UInt32.toNat_add,
    show (512 : UInt32).toNat = 512 from rfl, show PIPESIZE = 512 from rfl]
  omega

theorem empty_iff : pi.empty = true ↔ pi.used = 0 := by
  have hr := pi.nread.toNat_lt
  have hw := pi.nwrite.toNat_lt
  rw [empty, decide_eq_true_eq, used_eq, ← UInt32.toNat_inj]
  omega

/-- The cell for the next byte comes after those in use, although the counters wrap: the capacity
divides `2 ^ 32`. -/
theorem ofNat_nwrite (pi : Pipe) :
    Fin.ofNat PIPESIZE pi.nwrite.toNat = Fin.ofNat PIPESIZE (pi.nread.toNat + pi.used) := by
  apply Fin.ext
  have hr := pi.nread.toNat_lt
  have hw := pi.nwrite.toNat_lt
  have h : pi.nwrite.toNat = (pi.nread.toNat + pi.used) % 2 ^ 32 := by
    rw [used_eq]
    omega
  rw [Fin.val_ofNat, Fin.val_ofNat, h, Nat.mod_mod_of_dvd _ (by decide)]

theorem used_put (hfull : pi.full = false) (hle : pi.used ≤ PIPESIZE) :
    (pi.put ch).used = pi.used + 1 ∧ pi.used < PIPESIZE := by
  have hne : pi.used ≠ PIPESIZE := fun h => by
    rw [full_iff.mpr h] at hfull
    cases hfull
  have hlt : pi.used < 512 := lt_of_le_of_ne hle hne
  refine ⟨?_, hlt⟩
  have hr := pi.nread.toNat_lt
  have hw := pi.nwrite.toNat_lt
  rw [used_eq] at hlt ⊢
  rw [used_eq, put]
  simp only [UInt32.toNat_add, UInt32.toNat_one]
  omega

/-- Writing a byte appends it. -/
theorem contents_put (hfull : pi.full = false) (hle : pi.used ≤ PIPESIZE) :
    (pi.put ch).contents = pi.contents ++ [ch] := by
  obtain ⟨hused, hlt⟩ := @used_put pi ch hfull hle
  rw [contents, hused, contents, ← Ring.contents_push hlt ch, ← ofNat_nwrite]
  rfl

theorem used_drop (hempty : pi.empty = false) : pi.used = pi.drop.used + 1 := by
  have hne : pi.used ≠ 0 := fun h => by
    rw [empty_iff.mpr h] at hempty
    cases hempty
  have hr := pi.nread.toNat_lt
  have hw := pi.nwrite.toNat_lt
  rw [used_eq] at hne ⊢
  rw [used_eq, drop]
  simp only [UInt32.toNat_add, UInt32.toNat_one]
  omega

/-- Reading a byte takes the oldest one. -/
theorem contents_drop (hempty : pi.empty = false) : pi.contents = pi.head :: pi.drop.contents := by
  rw [contents, used_drop hempty, Ring.contents_succ, head, contents]
  congr 1
  -- one step on, the counter may have wrapped to zero
  refine (Ring.contents_congr ?_ _).symm
  rw [drop, UInt32.toNat_add, UInt32.toNat_one, Nat.mod_mod_of_dvd _ (by decide)]

end Pipe

namespace PipeSys

variable {P : Type*} [DecidableEq P] {s t : PipeSys P} {a : PipeAction P} {as : List (PipeAction P)}

/-! ## What a step does to the bytes -/

/-- The bytes a step moves: none, one into the ring, one out of it, or one out of it that `copyout`
could not store. -/
inductive Moves (s t : PipeSys P) : Prop
  | none (hpipe : t.pipe.contents = s.pipe.contents ∧ t.pipe.used = s.pipe.used)
      (happ : t.appended = s.appended) (hdel : t.delivered = s.delivered)
  | put (ch : UInt8) (hfull : s.pipe.full = false) (hpipe : t.pipe = s.pipe.put ch)
      (happ : t.appended = s.appended ++ [ch]) (hdel : t.delivered = s.delivered)
  | take (hempty : s.pipe.empty = false) (hpipe : t.pipe = s.pipe.drop)
      (happ : t.appended = s.appended) (hdel : t.delivered = s.delivered ++ [s.pipe.head])
  | lose (p : P) (dst : ℕ → Bool) (n : ℤ) (i : ℕ) (hpc : s.pc p = .copying dst n i) (hi : i < n)
      (hdst : dst i = false) (hempty : s.pipe.empty = false) (hpipe : t.pipe = s.pipe.drop)
      (happ : t.appended = s.appended) (hdel : t.delivered = s.delivered)

omit [DecidableEq P] in
theorem Moves.same (hpipe : t.pipe = s.pipe) (happ : t.appended = s.appended)
    (hdel : t.delivered = s.delivered) : Moves s t :=
  .none (by rw [hpipe]; exact ⟨rfl, rfl⟩) happ hdel

theorem moves_write (s : PipeSys P) (p : P) (src : ℕ → Option UInt8) (n : ℤ) (i : ℕ) :
    Moves s (s.write p src n i) := by
  unfold write
  split
  · split
    · exact .same rfl rfl rfl
    · split
      · exact .same rfl rfl rfl
      · rename_i hfull
        split
        · exact .same rfl rfl rfl
        · exact .put _ (Bool.eq_false_of_not_eq_true hfull) rfl rfl rfl
  · exact .same rfl rfl rfl

theorem moves_wait (s : PipeSys P) (p : P) (dst : ℕ → Bool) (n : ℤ) : Moves s (s.wait p dst n) := by
  unfold wait
  split
  · split <;> exact .same rfl rfl rfl
  · exact .same rfl rfl rfl

theorem moves_copy {p : P} {dst : ℕ → Bool} {n : ℤ} {i : ℕ} (hpc : s.pc p = .copying dst n i) :
    Moves s (s.copy p dst n i) := by
  unfold copy
  split
  · rename_i h
    split
    · exact .take h.2 rfl rfl rfl
    · rename_i hdst
      exact .lose p dst n i hpc h.1 (Bool.eq_false_of_not_eq_true hdst) h.2 rfl rfl rfl
  · exact .same rfl rfl rfl

omit [DecidableEq P] in
theorem moves_close (s : PipeSys P) (writable : Bool) : Moves s (s.close writable) := by
  cases writable <;> exact .none ⟨rfl, rfl⟩ rfl rfl

theorem step_moves (h : s.step a = some t) : Moves s t := by
  cases step_inv h with
  | kill q => exact .same rfl rfl rfl
  | start p c hpc => exact .same rfl rfl rfl
  | acquire p c hlock hpc => exact .same rfl rfl rfl
  | write p src n i hlock hpc => exact moves_write s p src n i
  | wait p dst n hlock hpc => exact moves_wait s p dst n
  | copy p dst n i hlock hpc => exact moves_copy hpc
  | close p writable hlock hpc => exact moves_close s writable

end PipeSys

/-! ## Calls with mapped buffers -/

/-- The user buffer of the call is mapped. -/
def PipeCall.Mapped : PipeCall → Prop
  | .write src n _ => ∀ i : ℕ, i < n → (src i).isSome
  | .read dst n => ∀ i : ℕ, i < n → dst i = true

/-- The user buffer of the call in progress is mapped. -/
def PipePc.Mapped : PipePc → Prop
  | .idle => True
  | .acquire c => c.Mapped
  | .asleep c => c.Mapped
  | .writing src n i => (PipeCall.write src n i).Mapped
  | .waiting dst n => (PipeCall.read dst n).Mapped
  | .copying dst n _ => (PipeCall.read dst n).Mapped

/-- The call that is started has a mapped buffer. -/
def PipeAction.Mapped {P : Type*} : PipeAction P → Prop
  | .start _ c => c.Mapped
  | _ => True

theorem PipePc.Mapped.wake {c : PipePc} (h : c.Mapped) : c.wake.Mapped := by
  cases c with
  | asleep c => exact h
  | _ => exact h

namespace PipeSys

variable {P : Type*} [DecidableEq P] {s t : PipeSys P} {a : PipeAction P} {as : List (PipeAction P)}

/-- Every call in progress has a mapped buffer. -/
def Mapped (s : PipeSys P) : Prop := ∀ p, (s.pc p).Mapped

omit [DecidableEq P] in
theorem Mapped.wakeupRead (h : s.Mapped) : s.wakeupRead.Mapped := by
  intro p
  simp only [PipeSys.wakeupRead]
  split
  · exact (h p).wake
  · exact h p

omit [DecidableEq P] in
theorem Mapped.wakeupWrite (h : s.Mapped) : s.wakeupWrite.Mapped := by
  intro p
  simp only [PipeSys.wakeupWrite]
  split
  · exact (h p).wake
  · exact h p

theorem Mapped.goto (h : s.Mapped) (p : P) {c : PipePc} (hc : c.Mapped) : (s.goto p c).Mapped := by
  intro q
  rcases eq_or_ne q p with rfl | hq
  · simpa [PipeSys.goto] using hc
  · simpa [PipeSys.goto, hq] using h q

theorem Mapped.release (h : s.Mapped) (p : P) {c : PipePc} (hc : c.Mapped) :
    (s.release p c).Mapped := h.goto p hc

theorem Mapped.write {p : P} {src : ℕ → Option UInt8} {n : ℤ} {i : ℕ} (h : s.Mapped)
    (hc : (PipeCall.write src n i).Mapped) : (s.write p src n i).Mapped := by
  unfold PipeSys.write
  split
  · split
    · exact h.release p trivial
    · split
      · exact h.wakeupRead.release p hc
      · split
        · exact h.wakeupRead.release p trivial
        · exact h.goto p hc
  · exact h.wakeupRead.release p trivial

theorem Mapped.wait {p : P} {dst : ℕ → Bool} {n : ℤ} (h : s.Mapped)
    (hc : (PipeCall.read dst n).Mapped) : (s.wait p dst n).Mapped := by
  unfold PipeSys.wait
  split
  · split
    · exact h.release p trivial
    · exact h.release p hc
  · exact h.goto p hc

theorem Mapped.copy {p : P} {dst : ℕ → Bool} {n : ℤ} {i : ℕ} (h : s.Mapped)
    (hc : (PipeCall.read dst n).Mapped) : (s.copy p dst n i).Mapped := by
  unfold PipeSys.copy
  split
  · split
    · exact h.goto p hc
    · exact Mapped.release (Mapped.wakeupWrite (s := { s with pipe := s.pipe.drop }) h) p trivial
  · exact h.wakeupWrite.release p trivial

theorem Mapped.step (h : s.Mapped) (ha : a.Mapped) (hs : s.step a = some t) : t.Mapped := by
  cases step_inv hs with
  | kill q => exact h.goto q (h q).wake
  | start p c hpc =>
    refine h.goto p ?_
    cases c <;> exact ha
  | acquire p c hlock hpc =>
    have hc : c.Mapped := by
      have := h p
      rwa [hpc] at this
    refine h.goto p ?_
    cases c <;> exact hc
  | write p src n i hlock hpc =>
    have hp := h p
    rw [hpc] at hp
    exact h.write hp
  | wait p dst n hlock hpc =>
    have hp := h p
    rw [hpc] at hp
    exact h.wait hp
  | copy p dst n i hlock hpc =>
    have hp := h p
    rw [hpc] at hp
    exact h.copy hp
  | close p writable hlock hpc =>
    cases writable with
    | true => exact Mapped.wakeupRead h
    | false => exact Mapped.wakeupWrite h

/-! ## The queue -/

/-- The bytes that left the ring, those in it, and those that entered it. -/
structure Fifo (s : PipeSys P) : Prop where
  used_le : s.pipe.used ≤ PIPESIZE
  flow : s.delivered ++ s.pipe.contents = s.appended

omit [DecidableEq P] in
theorem fifo_init (data : Fin PIPESIZE → UInt8) (killed : P → Bool) :
    (init data killed : PipeSys P).Fifo := by
  have hused : (Pipe.alloc data).used = 0 := by simp [Pipe.used, Pipe.alloc]
  exact ⟨by rw [init, hused]; exact Nat.zero_le _, by simp [init, Pipe.contents, hused]⟩

/-- A step keeps the order of bytes, if the buffers of readers are mapped. -/
theorem Fifo.step (h : s.Fifo) (hm : s.Mapped) (hs : s.step a = some t) : t.Fifo := by
  cases step_moves hs with
  | none hpipe happ hdel => exact ⟨hpipe.2 ▸ h.used_le, by rw [happ, hdel, hpipe.1, h.flow]⟩
  | put ch hfull hpipe happ hdel =>
    obtain ⟨hused, hlt⟩ := @Pipe.used_put s.pipe ch hfull h.used_le
    refine ⟨by rw [hpipe, hused]; exact hlt, ?_⟩
    rw [hpipe, Pipe.contents_put hfull h.used_le, happ, hdel, ← List.append_assoc, h.flow]
  | take hempty hpipe happ hdel =>
    have hused := Pipe.used_drop hempty
    have hle := h.used_le
    refine ⟨by rw [hpipe]; omega, ?_⟩
    rw [hpipe, happ, hdel, List.append_assoc, List.singleton_append, ← Pipe.contents_drop hempty,
      h.flow]
  | lose p dst n i hpc hi hdst =>
    -- a mapped buffer takes every byte
    have hp := hm p
    rw [hpc] at hp
    rw [hp i hi] at hdst
    cases hdst

/-- **A pipe is a bounded queue.** After any interleaving of calls whose buffers are mapped, at most
`PIPESIZE` bytes are in the ring, and the bytes delivered followed by those in the ring are the bytes
appended. Nothing bounds the number of bytes that went through, so the counters may have wrapped. -/
theorem fifo {data : Fin PIPESIZE → UInt8} {killed : P → Bool}
    (hrun : runFrom step (init data killed) as = some s) (hmapped : ∀ a ∈ as, a.Mapped) :
    (s.pipe.nwrite - s.pipe.nread).toNat ≤ PIPESIZE ∧
      s.delivered ++ s.pipe.contents = s.appended := by
  have hinv : s.Mapped ∧ s.Fifo :=
    runFrom_invariant_of_allSteps (I := fun s => s.Mapped ∧ s.Fifo)
      (fun _ _ _ h hs ha => ⟨h.1.step ha hs, h.2.step h.1 hs⟩)
      ⟨fun _ => trivial, fifo_init data killed⟩ (allSteps_of_forall hmapped) hrun
  exact ⟨hinv.2.used_le, hinv.2.flow⟩

/-- Process 0 writes two bytes and process 1 reads one of them. -/
def oneByte : List (PipeAction ℕ) :=
  [.start 0 (.write (fun i => some (UInt8.ofNat i)) 2 0), .acquire 0, .run 0, .run 0, .run 0,
    .start 1 (.read (fun _ => true) 1), .acquire 1, .run 1, .run 1, .run 1]

theorem fifo_oneByte : ∃ s, runFrom step (init (fun _ => 0) fun _ => false) oneByte = some s ∧
    s.delivered = [0] ∧ s.pipe.contents = [1] ∧ s.delivered ++ s.pipe.contents = s.appended := by
  have h : (runFrom step (init (fun _ => 0) fun _ => false) oneByte).any fun s =>
      decide (s.delivered = [0] ∧ s.pipe.contents = [1]) := by decide
  obtain ⟨s, hrun, hs⟩ := (Option.any_eq_true _ _).mp h
  rw [decide_eq_true_eq] at hs
  refine ⟨s, hrun, hs.1, hs.2, (fifo hrun ?_).2⟩
  intro a ha
  simp only [oneByte, List.mem_cons, List.not_mem_nil, or_false] at ha
  rcases ha with rfl | rfl | rfl | rfl | rfl | rfl | rfl | rfl | rfl | rfl <;>
    simp [PipeAction.Mapped, PipeCall.Mapped]

end PipeSys

end Xv6
