import Xv6.Param

/-! # The redo log: commit and recovery

A model of the disk side of `kernel/log.c`. `Machine` is what the log code touches: the disk (all
that survives a power failure), the buffer cache as `bread` presents it, and the block numbers
`log.lh.block[0..n)` of the in-memory header. Every `bwrite` is one atomic block write and is also
appended to `trace`, so that the writes of a call can be cut short at any point. The log occupies
the blocks `start .. start + size - 1`: the header block first, then the logged copies. -/

namespace Xv6

open Function

/-- The blocks of a disk, by block number. -/
abbrev Disk : Type := ℕ → Block

/-- The state the log code works on. -/
structure Machine where
  /-- The disk: all that a crash leaves. -/
  disk : Disk
  /-- What `bread` returns for each block. -/
  cache : Disk
  /-- `log.lh.block[0..n)`, with `log.lh.n` its length. -/
  lh : List ℕ
  /-- The block writes performed so far, in order. -/
  trace : List (ℕ × Block)

namespace Machine

variable (start : ℕ)

/-- `bread`: the cached contents of block `b`. -/
def bread (m : Machine) (b : ℕ) : Block := m.cache b

/-- `bwrite` of the buffer of block `b` after its data became `data`. -/
def bwrite (m : Machine) (b : ℕ) (data : Block) : Machine where
  disk := update m.disk b data
  cache := update m.cache b data
  lh := m.lh
  trace := m.trace ++ [(b, data)]

/-- The loop of `write_log` from index `tail` on: copy each modified block from the cache to its
log block. -/
def writeLogFrom (m : Machine) (tail : ℕ) : List ℕ → Machine
  | [] => m
  | b :: bs => (m.bwrite (start + tail + 1) (m.bread b)).writeLogFrom (tail + 1) bs

/-- `write_log`: copy modified blocks from cache to log. -/
def writeLog (m : Machine) : Machine := m.writeLogFrom start 0 m.lh

/-- The loop of `install_trans` from index `tail` on: copy each log block to its home block. -/
def installTransFrom (m : Machine) (tail : ℕ) : List ℕ → Machine
  | [] => m
  | b :: bs => (m.bwrite b (m.bread (start + tail + 1))).installTransFrom (tail + 1) bs

/-- `install_trans`: copy committed blocks from log to their home location. -/
def installTrans (m : Machine) : Machine := m.installTransFrom start 0 m.lh

end Machine

/-- The header block `buf` with `hb->n` and `hb->block[0..n)` overwritten; its other bytes stay. -/
def putHead (buf : Block) (lh : List ℕ) : Block := (buf.putLE 0 4 lh.length).putWords 4 lh

/-- The field `n` of a header block, an `int`: a value from `2 ^ 31` on is negative, and then no
loop over the header runs. -/
def headCount (buf : Block) : ℕ :=
  let n := buf.getLE 0 4
  if n < 2 ^ 31 then n else 0

/-- `block[0..n)` of a header block. -/
def getHead (buf : Block) : List ℕ := buf.getWords 4 (headCount buf)

namespace Machine

variable (start : ℕ)

/-- `read_head`: read the log header from disk into the in-memory log header. -/
def readHead (m : Machine) : Machine := { m with lh := getHead (m.bread start) }

/-- `write_head`: write the in-memory log header to disk. -/
def writeHead (m : Machine) : Machine := m.bwrite start (putHead (m.bread start) m.lh)

/-- `recover_from_log`: replay the log if it is committed, then clear it. -/
def recoverFromLog (m : Machine) : Machine :=
  let m := (m.readHead start).installTrans start
  { m with lh := [] }.writeHead start

/-- `commit`: log, commit, install, erase. -/
def commit (m : Machine) : Machine :=
  if 0 < m.lh.length then
    let m := ((m.writeLog start).writeHead start).installTrans start
    { m with lh := [] }.writeHead start
  else m

/-- Power on over the disk `d`: nothing is cached that is not on disk, and the in-memory header is
empty. -/
def boot (d : Disk) : Machine := ⟨d, d, [], []⟩

end Machine

/-! ## Lists of block writes -/

/-- Apply block writes in order. -/
def applyWrites (d : Disk) (ws : List (ℕ × Block)) : Disk :=
  ws.foldl (fun d w => update d w.1 w.2) d

@[simp] theorem applyWrites_nil (d : Disk) : applyWrites d [] = d := rfl

@[simp] theorem applyWrites_cons (d : Disk) (w : ℕ × Block) (ws : List (ℕ × Block)) :
    applyWrites d (w :: ws) = applyWrites (update d w.1 w.2) ws := rfl

theorem applyWrites_append (d : Disk) (ws vs : List (ℕ × Block)) :
    applyWrites d (ws ++ vs) = applyWrites (applyWrites d ws) vs := List.foldl_append

/-- A block that no write names keeps its contents. -/
theorem applyWrites_of_notMem (d : Disk) {ws : List (ℕ × Block)} {x : ℕ}
    (h : x ∉ ws.map Prod.fst) : applyWrites d ws x = d x := by
  induction ws generalizing d with
  | nil => rfl
  | cons w ws ih =>
    simp only [List.map_cons, List.mem_cons, not_or] at h
    rw [applyWrites_cons, ih _ h.2, update_of_ne h.1]

/-- What a list of writes leaves in a block depends on the old contents only if no write names
the block. -/
theorem applyWrites_congr {d e : Disk} {ws : List (ℕ × Block)} {x : ℕ}
    (h : x ∉ ws.map Prod.fst → d x = e x) : applyWrites d ws x = applyWrites e ws x := by
  induction ws generalizing d e with
  | nil => exact h (by simp)
  | cons w ws ih =>
    rw [applyWrites_cons, applyWrites_cons]
    refine ih fun hx => ?_
    by_cases hxw : x = w.1
    · subst hxw; simp
    · rw [update_of_ne hxw, update_of_ne hxw]
      exact h (by simpa using ⟨hxw, by simpa using hx⟩)

/-- **Replay is idempotent**: applying a prefix of the writes first makes no difference. -/
theorem applyWrites_take_all (d : Disk) (ws : List (ℕ × Block)) (k : ℕ) (x : ℕ) :
    applyWrites (applyWrites d (ws.take k)) ws x = applyWrites d ws x := by
  apply applyWrites_congr
  intro hx
  refine applyWrites_of_notMem d fun hmem => hx ?_
  obtain ⟨w, hw, rfl⟩ := List.mem_map.mp hmem
  exact List.mem_map_of_mem (List.mem_of_mem_take hw)

/-- A block named by exactly one of the writes ends up with that write's data. -/
theorem applyWrites_of_mem (d : Disk) {ws : List (ℕ × Block)} (hn : (ws.map Prod.fst).Nodup)
    {w : ℕ × Block} (hw : w ∈ ws) : applyWrites d ws w.1 = w.2 := by
  induction ws generalizing d with
  | nil => simp at hw
  | cons v ws ih =>
    simp only [List.map_cons, List.nodup_cons] at hn
    rw [applyWrites_cons]
    rcases List.mem_cons.mp hw with rfl | hw
    · rw [applyWrites_of_notMem _ hn.1, update_self]
    · exact ih _ hn.2 hw

end Xv6
