import Xv6.Log.Commit

/-! # Crash atomicity of the redo log

A transaction is a list of block writes that fits in the log. Its commit may be cut short after any
number of block writes; recovery may then be cut short any number of times before it runs to its
end. Whatever the cut points, the disk outside the log ends up either untouched or with all of the
transaction's blocks updated, and the on-disk header is empty again (`commit_crash_atomic`).

The invariant is `Recoverable d target T`: the header on the disk `d` lists the blocks of `T`, the
log holds their contents, and replaying them gives `target` outside the log. With `T` empty this
says that `d` already is `target`. Every block write of `commit` and of recovery keeps it, for one
and the same target once the first `write_head` is done. -/

namespace Xv6

open Function

variable {start size : ℕ}

/-- Block `x` lies outside the log, which occupies `start .. start + size - 1`. -/
def OutsideLog (start size x : ℕ) : Prop := x < start ∨ start + size ≤ x

instance (start size x : ℕ) : Decidable (OutsideLog start size x) :=
  inferInstanceAs (Decidable (_ ∨ _))

/-- A transaction as `log_write` leaves it for `commit`: at most `min LOGSIZE (size - 1)` pairwise
distinct block numbers outside the log, with their new contents. -/
structure Txn (start size : ℕ) where
  /-- The logged blocks with their contents, in header order. -/
  writes : List (ℕ × Block)
  nodup : (writes.map Prod.fst).Nodup
  fits_logsize : writes.length ≤ LOGSIZE
  fits_size : writes.length + 1 ≤ size
  outside : ∀ w ∈ writes, OutsideLog start size w.1
  /-- Block numbers are of type `uint`. -/
  uint : ∀ w ∈ writes, w.1 < 2 ^ 32

namespace Machine

/-- The machine when `commit` is called: the modified buffers are in the cache and the in-memory
header lists them. -/
def logged (m : Machine) (T : Txn start size) : Machine where
  disk := m.disk
  cache := applyWrites m.cache T.writes
  lh := T.writes.map Prod.fst
  trace := []

/-- The disk when power fails after the first `k` block writes that `f` performs. -/
def diskAfter (f : Machine → Machine) (m : Machine) (k : ℕ) : Disk :=
  applyWrites m.disk ((f m).trace.take k)

end Machine

/-- What happens to one transaction. -/
inductive Fate
  /-- `commit` runs to its end and the machine stays up. -/
  | completes
  /-- Power fails after `k` block writes of `commit`; for each entry of `interrupted` a recovery is
  cut short after that many block writes; then one recovery runs to its end. -/
  | crashes (k : ℕ) (interrupted : List ℕ)

namespace Machine

/-- The disk left by a `recover_from_log` cut short after `k` block writes. -/
def interruptedRecovery (start : ℕ) (d : Disk) (k : ℕ) : Disk :=
  diskAfter (recoverFromLog start) (boot d) k

/-- One transaction, with what happens to it. -/
def step (m : Machine) (T : Txn start size) : Fate → Machine
  | .completes => (m.logged T).commit start
  | .crashes k interrupted =>
    (boot (interrupted.foldl (interruptedRecovery start)
      (diskAfter (commit start) (m.logged T) k))).recoverFromLog start

/-- A sequence of transactions. -/
def run (m : Machine) (ts : List (Txn start size × Fate)) : Machine :=
  ts.foldl (fun m t => m.step t.1 t.2) m

/-- Between transactions: nothing is logged, every buffer agrees with the disk, and the on-disk
header is empty. -/
structure Quiet (start : ℕ) (m : Machine) : Prop where
  lh : m.lh = []
  cache : m.cache = m.disk
  head : headCount (m.disk start) = 0

end Machine

/-- The first `write_head` of the commit of `T` reached the disk. -/
def Fate.HeadReached (m : Machine) (T : Txn start size) : Fate → Prop
  | .completes => True
  | .crashes k _ => start ∈ (((m.logged T).commit start).trace.take k).map Prod.fst

instance (m : Machine) (T : Txn start size) : (f : Fate) → Decidable (f.HeadReached m T)
  | .completes => isTrue trivial
  | .crashes k _ =>
    inferInstanceAs (Decidable (start ∈ (((m.logged T).commit start).trace.take k).map Prod.fst))

/-! ## The writes that the loops perform -/

namespace Machine

/-- Perform a list of block writes. -/
def push (m : Machine) (ws : List (ℕ × Block)) : Machine :=
  ⟨applyWrites m.disk ws, applyWrites m.cache ws, m.lh, m.trace ++ ws⟩

theorem bwrite_eq_push (m : Machine) (b : ℕ) (v : Block) : m.bwrite b v = m.push [(b, v)] := rfl

@[simp] theorem push_nil (m : Machine) : m.push [] = m := by simp [push]

@[simp] theorem push_cache (m : Machine) (ws : List (ℕ × Block)) :
    (m.push ws).cache = applyWrites m.cache ws := rfl

@[simp] theorem push_trace (m : Machine) (ws : List (ℕ × Block)) :
    (m.push ws).trace = m.trace ++ ws := rfl

theorem push_push (m : Machine) (ws vs : List (ℕ × Block)) :
    (m.push ws).push vs = m.push (ws ++ vs) := by
  simp [push, applyWrites_append]

end Machine

/-- The log copies of `T`, the first of them at `start + tail + 1`. -/
def logCopies (start : ℕ) : ℕ → List (ℕ × Block) → List (ℕ × Block)
  | _, [] => []
  | tail, (_, v) :: T => (start + tail + 1, v) :: logCopies start (tail + 1) T

@[simp] theorem length_logCopies (tail : ℕ) (T : List (ℕ × Block)) :
    (logCopies start tail T).length = T.length := by
  induction T generalizing tail with
  | nil => rfl
  | cons w T ih => simp [logCopies, ih]

/-- The log copies go to the log blocks `start + tail + 1 .. start + tail + |T|`. -/
theorem mem_logCopies {tail : ℕ} {T : List (ℕ × Block)} {w : ℕ × Block}
    (hw : w ∈ logCopies start tail T) : start + tail < w.1 ∧ w.1 ≤ start + tail + T.length := by
  induction T generalizing tail with
  | nil => simp [logCopies] at hw
  | cons v T ih =>
    simp only [logCopies, List.mem_cons] at hw
    simp only [List.length_cons]
    rcases hw with rfl | hw
    · simp only; omega
    · have := ih hw
      omega

/-- The log blocks from `start + tail + 1` on hold the contents of `T`. -/
def Copied (d : Disk) (start : ℕ) : ℕ → List (ℕ × Block) → Prop
  | _, [] => True
  | tail, (_, v) :: T => d (start + tail + 1) = v ∧ Copied d start (tail + 1) T

/-- Writes that miss the copies leave them in place. -/
theorem Copied.applyWrites {d : Disk} {tail : ℕ} {T ws : List (ℕ × Block)}
    (h : Copied d start tail T)
    (hws : ∀ w ∈ ws, w.1 ≤ start + tail ∨ start + tail + T.length < w.1) :
    Copied (applyWrites d ws) start tail T := by
  induction T generalizing tail with
  | nil => trivial
  | cons v T ih =>
    simp only [List.length_cons] at hws
    refine ⟨?_, ih h.2 fun w hw => ?_⟩
    · rw [applyWrites_of_notMem, h.1]
      intro hmem
      obtain ⟨w, hw, hwe⟩ := List.mem_map.mp hmem
      have := hws w hw
      omega
    · have := hws w hw
      omega

/-- After the log copies are written, the log holds them. -/
theorem copied_logCopies (d : Disk) (tail : ℕ) (T : List (ℕ × Block)) :
    Copied (applyWrites d (logCopies start tail T)) start tail T := by
  induction T generalizing d tail with
  | nil => trivial
  | cons v T ih =>
    refine ⟨?_, ih _ _⟩
    rw [logCopies, applyWrites_cons, applyWrites_of_notMem, update_self]
    intro hmem
    obtain ⟨w, hw, hwe⟩ := List.mem_map.mp hmem
    have := mem_logCopies hw
    omega

namespace Machine

/-- **`write_log` writes the log copies** of the blocks' cached contents: the copies go to log
blocks, so the home blocks still to be copied are read unchanged. -/
theorem writeLogFrom_eq (m : Machine) (tail : ℕ) (T : List (ℕ × Block))
    (hc : ∀ w ∈ T, m.cache w.1 = w.2)
    (hout : ∀ w ∈ T, w.1 ≤ start + tail ∨ start + tail + T.length < w.1) :
    m.writeLogFrom start tail (T.map Prod.fst) = m.push (logCopies start tail T) := by
  induction T generalizing m tail with
  | nil => simp [writeLogFrom, logCopies]
  | cons v T ih =>
    simp only [List.length_cons, List.mem_cons, forall_eq_or_imp] at hc hout
    rw [List.map_cons, writeLogFrom, bread, hc.1, bwrite_eq_push, ih, push_push]
    · rfl
    · intro w hw
      have := hout.2 w hw
      rw [push_cache, applyWrites_of_notMem _ (by simp; omega)]
      exact hc.2 w hw
    · intro w hw
      have := hout.2 w hw
      omega

/-- **`install_trans` writes the blocks of `T` home** when the log holds their contents: home
blocks lie outside the log, so the copies still to be installed are read unchanged. -/
theorem installTransFrom_eq (m : Machine) (tail : ℕ) (T : List (ℕ × Block))
    (hc : Copied m.cache start tail T)
    (hout : ∀ w ∈ T, w.1 ≤ start + tail ∨ start + tail + T.length < w.1) :
    m.installTransFrom start tail (T.map Prod.fst) = m.push T := by
  induction T generalizing m tail with
  | nil => simp [installTransFrom]
  | cons v T ih =>
    obtain ⟨hv, hT⟩ := hc
    simp only [List.length_cons, List.mem_cons, forall_eq_or_imp] at hout
    rw [List.map_cons, installTransFrom, bread, hv, bwrite_eq_push, ih, push_push]
    · rfl
    · refine hT.applyWrites fun w hw => ?_
      obtain rfl := List.mem_singleton.mp hw
      have := hout.1
      simp only
      omega
    · intro w hw
      have := hout.2 w hw
      omega

end Machine

/-! ## The header block -/

theorem headCount_putHead (buf : Block) (lh : List ℕ) (h : lh.length ≤ LOGSIZE) :
    headCount (putHead buf lh) = lh.length := by
  have h30 : lh.length ≤ 30 := h
  have hn : (putHead buf lh).getLE 0 4 = lh.length := by
    rw [putHead, Bytes.getLE_putWords_disjoint _ _ (by omega),
      Bytes.getLE_putLE_same _ _ _ _ (by decide)]
    exact Nat.mod_eq_of_lt (by omega)
  simp only [headCount, hn]
  rw [if_pos (by omega)]

/-- **The header round trip**: `read_head` recovers what `write_head` stored. -/
theorem getHead_putHead (buf : Block) (lh : List ℕ) (h : lh.length ≤ LOGSIZE)
    (huint : ∀ b ∈ lh, b < 2 ^ 32) : getHead (putHead buf lh) = lh := by
  have h30 : lh.length ≤ 30 := h
  rw [getHead, headCount_putHead buf lh h, putHead]
  exact Bytes.getWords_putWords _ lh (show 4 + 4 * lh.length ≤ 1024 by omega) huint

/-- A header lists no block exactly when its count is zero. -/
theorem getHead_eq_nil_iff {buf : Block} : getHead buf = [] ↔ headCount buf = 0 := by
  simp [getHead, Bytes.getWords]

/-! ## Recoverable disks -/

/-- The disk `d` is one recovery away from `target` outside the log: its header lists `T`, its log
holds the contents of `T`, and replaying `T` gives `target`. -/
structure Recoverable (start size : ℕ) (d target : Disk) (T : List (ℕ × Block)) : Prop where
  head : getHead (d start) = T.map Prod.fst
  copied : Copied d start 0 T
  fits : T.length + 1 ≤ size
  outside : ∀ w ∈ T, OutsideLog start size w.1
  replay : ∀ x, OutsideLog start size x → applyWrites d T x = target x

/-- Blocks outside the log miss the header and the copies. -/
theorem OutsideLog.misses {T : List (ℕ × Block)} (hfit : T.length + 1 ≤ size) {x : ℕ}
    (h : OutsideLog start size x) : x ≠ start ∧ (x ≤ start + 0 ∨ start + 0 + T.length < x) := by
  unfold OutsideLog at h
  omega

variable {d target : Disk} {T : List (ℕ × Block)}

/-- Writes to blocks outside the log leave the header alone. -/
theorem applyWrites_start {ws : List (ℕ × Block)} (hsize : 1 ≤ size)
    (hws : ∀ w ∈ ws, OutsideLog start size w.1) : applyWrites d ws start = d start := by
  refine applyWrites_of_notMem d fun hmem => ?_
  obtain ⟨w, hw, hwe⟩ := List.mem_map.mp hmem
  exact ((hws w hw).misses (T := []) hsize).1 hwe

namespace Recoverable

/-- Replaying a prefix of the listed blocks keeps the disk recoverable: replay is idempotent. -/
theorem take (h : Recoverable start size d target T) (k : ℕ) :
    Recoverable start size (applyWrites d (T.take k)) target T where
  head := by
    rw [applyWrites_start (by have := h.fits; omega)
      fun w hw => h.outside w (List.mem_of_mem_take hw)]
    exact h.head
  copied := h.copied.applyWrites fun w hw =>
    ((h.outside w (List.mem_of_mem_take hw)).misses h.fits).2
  fits := h.fits
  outside := h.outside
  replay := fun x hx => by rw [applyWrites_take_all]; exact h.replay x hx

/-- Replaying all listed blocks and erasing the header reaches the target. -/
theorem erase (h : Recoverable start size d target T) (buf : Block) :
    Recoverable start size (applyWrites d (T ++ [(start, putHead buf [])])) target [] where
  head := by
    rw [applyWrites_append, applyWrites_cons, applyWrites_nil, update_self]
    exact getHead_putHead buf [] (by simp) (by simp)
  copied := trivial
  fits := by have := h.fits; simp only [List.length_nil]; omega
  outside := by simp
  replay := fun x hx => by
    rw [applyWrites_nil, applyWrites_append, applyWrites_cons, applyWrites_nil,
      update_of_ne (hx.misses h.fits).1]
    exact h.replay x hx

end Recoverable

/-! ## What the two programs write -/

namespace Machine

/-- **The writes of recovery** on a recoverable disk: the listed blocks go home, then the header is
erased. -/
theorem recoverFromLog_boot (h : Recoverable start size d target T) : ∃ buf,
    (boot d).recoverFromLog start
      = { (boot d).push (T ++ [(start, putHead buf [])]) with lh := [] } := by
  have hread : (boot d).readHead start = { boot d with lh := T.map Prod.fst } := by
    simp only [readHead, bread, boot, h.head]
  have hinst : ((boot d).readHead start).installTrans start
      = { boot d with lh := T.map Prod.fst }.push T := by
    rw [hread, installTrans]
    exact installTransFrom_eq _ 0 T h.copied fun w hw => ((h.outside w hw).misses h.fits).2
  refine ⟨applyWrites d T start, ?_⟩
  rw [recoverFromLog, hinst]
  simp [writeHead, bwrite, push, bread, boot, applyWrites_append]

/-- **The writes of commit**: the log copies, the header, the home blocks, the erased header. -/
theorem commit_logged (m : Machine) (T : Txn start size) (hT : T.writes ≠ []) : ∃ b₁ b₂,
    (m.logged T).commit start
      = { (m.logged T).push (logCopies start 0 T.writes
          ++ (start, putHead b₁ (T.writes.map Prod.fst))
          :: (T.writes ++ [(start, putHead b₂ [])])) with lh := [] } := by
  have hout : ∀ w ∈ T.writes, w.1 ≤ start + 0 ∨ start + 0 + T.writes.length < w.1 :=
    fun w hw => ((T.outside w hw).misses T.fits_size).2
  have hlog : (m.logged T).writeLog start = (m.logged T).push (logCopies start 0 T.writes) :=
    writeLogFrom_eq (m.logged T) 0 T.writes (fun w hw => applyWrites_of_mem _ T.nodup hw) hout
  obtain ⟨b₁, hhead⟩ : ∃ b₁, ((m.logged T).writeLog start).writeHead start
      = (m.logged T).push (logCopies start 0 T.writes
          ++ [(start, putHead b₁ (T.writes.map Prod.fst))]) := by
    refine ⟨((m.logged T).writeLog start).bread start, ?_⟩
    rw [writeHead, bwrite_eq_push, hlog, push_push]
    rfl
  -- the header write does not disturb the copies, so they are what gets installed
  have hinst : (((m.logged T).writeLog start).writeHead start).installTrans start
      = ((m.logged T).push (logCopies start 0 T.writes
          ++ [(start, putHead b₁ (T.writes.map Prod.fst))])).push T.writes := by
    rw [hhead]
    refine installTransFrom_eq _ 0 T.writes ?_ hout
    rw [push_cache, applyWrites_append]
    refine (copied_logCopies _ 0 T.writes).applyWrites fun w hw => ?_
    obtain rfl := List.mem_singleton.mp hw
    exact Or.inl (by simp)
  have hpos : 0 < (m.logged T).lh.length := by
    simpa [logged] using List.length_pos_iff.mpr hT
  refine ⟨b₁, (((m.logged T).writeLog start).writeHead start |>.installTrans start).bread start, ?_⟩
  rw [commit, if_pos hpos]
  simp only [writeHead, bwrite_eq_push, bread] at hinst ⊢
  rw [hinst]
  simp only [push, List.append_assoc, List.cons_append, List.nil_append, applyWrites_append,
    applyWrites_cons, applyWrites_nil]

end Machine

/-! ## Cutting the programs short -/

/-- Every prefix of the replay-and-erase sequence leaves a recoverable disk, for the same target. -/
theorem Recoverable.take_erase (h : Recoverable start size d target T) (buf : Block) (k : ℕ) :
    ∃ T', Recoverable start size
      (applyWrites d ((T ++ [(start, putHead buf [])]).take k)) target T' := by
  by_cases hk : k ≤ T.length
  · rw [List.take_append_of_le_length hk]
    exact ⟨T, h.take k⟩
  · rw [List.take_of_length_le (by simp; omega)]
    exact ⟨[], h.erase buf⟩

/-- An interrupted recovery keeps the disk recoverable, for the same target. -/
theorem Recoverable.interruptedRecovery (h : Recoverable start size d target T) (k : ℕ) :
    ∃ T', Recoverable start size (Machine.interruptedRecovery start d k) target T' := by
  obtain ⟨buf, hbuf⟩ := Machine.recoverFromLog_boot h
  rw [Machine.interruptedRecovery, Machine.diskAfter, hbuf]
  exact h.take_erase buf k

/-- So does any number of them. -/
theorem Recoverable.foldl_interrupted (h : Recoverable start size d target T) (ks : List ℕ) :
    ∃ T', Recoverable start size (ks.foldl (Machine.interruptedRecovery start) d) target T' := by
  induction ks generalizing d T with
  | nil => exact ⟨T, h⟩
  | cons k ks ih =>
    obtain ⟨T', h'⟩ := h.interruptedRecovery k
    exact ih h'

/-- A recovery that runs to its end reaches the target, with an empty header and a coherent
cache. -/
theorem Recoverable.recoverFromLog (h : Recoverable start size d target T) :
    ((Machine.boot d).recoverFromLog start).Quiet start ∧
      ∀ x, OutsideLog start size x →
        ((Machine.boot d).recoverFromLog start).disk x = target x := by
  obtain ⟨buf, hbuf⟩ := Machine.recoverFromLog_boot h
  have herase := h.erase buf
  rw [hbuf]
  refine ⟨⟨rfl, rfl, ?_⟩, fun x hx => ?_⟩
  · exact getHead_eq_nil_iff.mp herase.head
  · exact herase.replay x hx

/-- The disk once the log copies and the header are written: the commit point. -/
theorem recoverable_committed (d : Disk) (T : Txn start size) (buf : Block) :
    Recoverable start size
      (applyWrites d (logCopies start 0 T.writes
        ++ [(start, putHead buf (T.writes.map Prod.fst))]))
      (applyWrites d T.writes) T.writes where
  head := by
    rw [applyWrites_append, applyWrites_cons, applyWrites_nil, update_self]
    refine getHead_putHead buf _ (by simpa using T.fits_logsize) fun b hb => ?_
    obtain ⟨w, hw, rfl⟩ := List.mem_map.mp hb
    exact T.uint w hw
  copied := by
    rw [applyWrites_append]
    refine (copied_logCopies d 0 T.writes).applyWrites fun w hw => ?_
    obtain rfl := List.mem_singleton.mp hw
    exact Or.inl (by simp)
  fits := T.fits_size
  outside := T.outside
  replay := fun x hx => by
    refine applyWrites_congr fun _ => ?_
    obtain ⟨hne, hmiss⟩ := hx.misses T.fits_size
    refine applyWrites_of_notMem d fun hmem => ?_
    obtain ⟨w, hw, rfl⟩ := List.mem_map.mp hmem
    rcases List.mem_append.mp hw with hw | hw
    · have := mem_logCopies hw
      omega
    · exact hne (by rw [List.mem_singleton.mp hw])

/-- Before the header is written, the disk is still the old one outside the log. -/
theorem recoverable_logging (T : Txn start size) (hd : headCount (d start) = 0) (k : ℕ) :
    Recoverable start size (applyWrites d ((logCopies start 0 T.writes).take k)) d [] := by
  have hmiss : ∀ x, (x = start ∨ OutsideLog start size x) →
      applyWrites d ((logCopies start 0 T.writes).take k) x = d x := by
    intro x hx
    refine applyWrites_of_notMem d fun hmem => ?_
    obtain ⟨w, hw, rfl⟩ := List.mem_map.mp hmem
    have hw := mem_logCopies (List.mem_of_mem_take hw)
    rcases hx with hx | hx
    · omega
    · have := (hx.misses T.fits_size).2
      omega
  refine ⟨?_, trivial, ?_, by simp, fun x hx => hmiss x (Or.inr hx)⟩
  · rw [hmiss start (Or.inl rfl)]
    exact getHead_eq_nil_iff.mpr hd
  · have := T.fits_size
    simp only [List.length_nil]
    omega

namespace Machine

variable {m : Machine}

/-- **Power failure during commit.** After any number of block writes the disk is recoverable: to
the updated disk if the header write is among them, to the old one if not. -/
theorem diskAfter_commit (hm : m.Quiet start) (T : Txn start size) (k : ℕ) (ks : List ℕ) :
    ((Fate.crashes k ks).HeadReached m T → ∃ T', Recoverable start size
      (diskAfter (commit start) (m.logged T) k) (applyWrites m.disk T.writes) T') ∧
    (¬ (Fate.crashes k ks).HeadReached m T → ∃ T', Recoverable start size
      (diskAfter (commit start) (m.logged T) k) m.disk T') := by
  by_cases hT : T.writes = []
  · -- an empty transaction writes nothing at all
    have hc : (m.logged T).commit start = m.logged T := by
      simp [commit, logged, hT]
    have hr := recoverable_logging T hm.head 0
    rw [List.take_zero, applyWrites_nil] at hr
    have hd : diskAfter (commit start) (m.logged T) k = m.disk := by
      rw [diskAfter, hc]
      simp [logged]
    rw [hd, hT, applyWrites_nil]
    exact ⟨fun _ => ⟨[], hr⟩, fun _ => ⟨[], hr⟩⟩
  · obtain ⟨b₁, b₂, hc⟩ := commit_logged m T hT
    simp only [Fate.HeadReached, diskAfter, hc, push_trace]
    simp only [logged, List.nil_append]
    by_cases hk : k ≤ T.writes.length
    · have htake : (logCopies start 0 T.writes ++ (start, putHead b₁ (T.writes.map Prod.fst)) ::
          (T.writes ++ [(start, putHead b₂ [])])).take k = (logCopies start 0 T.writes).take k :=
        List.take_append_of_le_length (by simpa using hk)
      rw [htake]
      refine ⟨fun hmem => ?_, fun _ => ⟨[], recoverable_logging T hm.head k⟩⟩
      obtain ⟨w, hw, hwe⟩ := List.mem_map.mp hmem
      have := mem_logCopies (List.mem_of_mem_take hw)
      omega
    · obtain ⟨j, rfl⟩ : ∃ j, k = (logCopies start 0 T.writes).length + (j + 1) :=
        ⟨k - T.writes.length - 1, by simp; omega⟩
      rw [List.take_length_add_append, List.take_succ_cons]
      refine ⟨fun _ => ?_, fun hmem => absurd ?_ hmem⟩
      · rw [List.append_cons, applyWrites_append]
        exact (recoverable_committed m.disk T b₁).take_erase b₂ j
      · simp

/-- A commit that runs to its end updates all blocks and leaves the machine quiet. -/
theorem commit_quiet (hm : m.Quiet start) (T : Txn start size) :
    ((m.logged T).commit start).Quiet start ∧ ∀ x, OutsideLog start size x →
      ((m.logged T).commit start).disk x = applyWrites m.disk T.writes x := by
  by_cases hT : T.writes = []
  · have hc : (m.logged T).commit start = m.logged T := by
      simp [commit, logged, hT]
    rw [hc]
    refine ⟨⟨by simp [logged, hT], by simp [logged, hT, hm.cache], hm.head⟩, fun x _ => ?_⟩
    simp [logged, hT]
  · obtain ⟨b₁, b₂, hc⟩ := commit_logged m T hT
    have herase := (recoverable_committed m.disk T b₁).erase b₂
    rw [← applyWrites_append, List.append_assoc, List.singleton_append] at herase
    rw [hc]
    refine ⟨⟨rfl, ?_, getHead_eq_nil_iff.mp herase.head⟩, herase.replay⟩
    -- every block that the cache had ahead of the disk has been written home
    funext x
    simp only [push, logged, hm.cache]
    refine applyWrites_congr fun hx => applyWrites_of_notMem _ fun hmem => hx ?_
    simp only [List.map_append, List.map_cons, List.mem_append, List.mem_cons]
    exact Or.inr (Or.inr (Or.inl hmem))

/-- One transaction with any fate: all or nothing outside the log, and quiet afterwards. -/
theorem step_atomic (hm : m.Quiet start) (T : Txn start size) (f : Fate) :
    (m.step T f).Quiet start ∧
    (f.HeadReached m T → ∀ x, OutsideLog start size x →
      (m.step T f).disk x = applyWrites m.disk T.writes x) ∧
    (¬ f.HeadReached m T → ∀ x, OutsideLog start size x → (m.step T f).disk x = m.disk x) := by
  cases f with
  | completes =>
    obtain ⟨hq, hd⟩ := commit_quiet hm T
    exact ⟨hq, fun _ => hd, fun h => absurd trivial h⟩
  | crashes k ks =>
    obtain ⟨hyes, hno⟩ := diskAfter_commit hm T k ks
    have key : ∀ {target : Disk}, (∃ T', Recoverable start size
        (diskAfter (commit start) (m.logged T) k) target T') →
        (m.step T (.crashes k ks)).Quiet start ∧ ∀ x, OutsideLog start size x →
          (m.step T (.crashes k ks)).disk x = target x := by
      rintro target ⟨T', h⟩
      obtain ⟨T'', h''⟩ := h.foldl_interrupted ks
      exact h''.recoverFromLog
    by_cases hr : (Fate.crashes k ks).HeadReached m T
    · obtain ⟨hq, hd⟩ := key (hyes hr)
      exact ⟨hq, fun _ => hd, fun h => absurd hr h⟩
    · obtain ⟨hq, hd⟩ := key (hno hr)
      exact ⟨hq, fun h => absurd h hr, fun _ => hd⟩

/-- Every sequence of transactions leaves the machine quiet. -/
theorem run_quiet (hm : m.Quiet start) (ts : List (Txn start size × Fate)) :
    (m.run ts).Quiet start := by
  induction ts generalizing m with
  | nil => exact hm
  | cons t ts ih => exact ih (step_atomic hm t.1 t.2).1

/-- **Crash atomicity of the redo log**, along any sequence of transactions. Whatever happened to
the earlier transactions `ts`, a transaction `T` with any fate leaves the disk outside the log
either with all its blocks updated or as it was before, according to whether the first `write_head`
reached the disk, and the on-disk header is empty. -/
theorem commit_crash_atomic (m : Machine) (hm : m.Quiet start)
    (ts : List (Txn start size × Fate)) (T : Txn start size) (f : Fate) :
    (f.HeadReached (m.run ts) T → ∀ x, OutsideLog start size x →
      ((m.run ts).step T f).disk x = applyWrites (m.run ts).disk T.writes x) ∧
    (¬ f.HeadReached (m.run ts) T → ∀ x, OutsideLog start size x →
      ((m.run ts).step T f).disk x = (m.run ts).disk x) ∧
    headCount (((m.run ts).step T f).disk start) = 0 := by
  obtain ⟨hq, hyes, hno⟩ := step_atomic (run_quiet hm ts) T f
  exact ⟨hyes, hno, hq.head⟩

/-- A one-block transaction over a log of 31 blocks at block 2. -/
def oneBlockTxn : Txn 2 31 where
  writes := [(40, fun _ => 7)]
  nodup := by simp
  fits_logsize := by decide
  fits_size := by decide
  outside := by simp [OutsideLog]
  uint := by simp

/-- The theorem on a zeroed disk: power fails right after the header write, the first recovery is
cut short after one block write, and the block is still updated in the end. -/
theorem commit_crash_atomic_one_block :
    ((boot fun _ => Bytes.zero BSIZE).step oneBlockTxn (.crashes 2 [1])).disk 40 = fun _ => 7 := by
  have hq : (boot fun _ => Bytes.zero BSIZE).Quiet 2 := ⟨rfl, rfl, by decide⟩
  have hr : (Fate.crashes 2 [1]).HeadReached (boot fun _ => Bytes.zero BSIZE) oneBlockTxn := by
    decide
  have h := (commit_crash_atomic _ hq [] oneBlockTxn (.crashes 2 [1])).1 hr 40 (by decide)
  simpa [run, oneBlockTxn] using h

end Machine

end Xv6
