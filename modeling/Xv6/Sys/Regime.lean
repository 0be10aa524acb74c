import Xv6.Fs.Node
import Xv6.Sys.Call
import Xv6.Lib.Tally

/-! # The kernel above the file system

Files and processes hold references to inodes, and processes hold references to files. What the file
system guarantees to them is a parameter here, a `Regime`: a condition `Fine` on the file system and
the references held, which its calls keep (`Regime.Lawful`), perhaps only where they are `Allowed`.
For every such regime the reference counts of files and inodes are those of the pointers to them
(`Sys.Inv`), whatever calls are made, and only the panics the regime admits happen. -/

namespace Xv6

open Function

open Fs (Keeps)

/-- The inode a file refers to. -/
def File.inode (e : File) : Option (Fin NINODE) :=
  if e.type = .inode ∨ e.type = .device then some e.ip else none

namespace Sys

variable {m : ℕ}

/-- How many open files and current directories refer to the inode. -/
def refs (σ : Sys m) (ip : Fin NINODE) : ℕ :=
  tally (fun f => (σ.ftable f).inode) ip + tally (fun p => (σ.procs p).cwd) ip

/-- How many descriptors refer to the file. -/
def fileRefs (σ : Sys m) (f : Fin NFILE) : ℕ :=
  tally (fun x : Fin m × Fin NOFILE => (σ.procs x.1).ofile x.2) f

end Sys

/-- A change of the name space that a call asks for. -/
inductive Request
  | create (path : List UInt8) (type : Int16)
  | link (old new : List UInt8)
  | unlink (path : List UInt8)

/-- The change a call asks for, if its arguments can be fetched. -/
def Call.request : Call → Option Request
  | .sysOpen arg omode =>
    if omode &&& O_CREATE ≠ 0 then (argstr arg).map fun path => .create path T_FILE else none
  | .mkdir arg => (argstr arg).map fun path => .create path T_DIR
  | .mknod arg _ _ => (argstr arg).map fun path => .create path T_DEVICE
  | .link old new => (argstr old).bind fun old => (argstr new).map fun new => .link old new
  | .unlink arg => (argstr arg).map .unlink
  | _ => none

/-- What the file system guarantees: `Fine s H` is kept while `H` are the references held, by changes
that are `Allowed` to a process in the directory with the given number; `NoType` tells whether `ilock`
may find an inode without type. -/
structure Regime where
  Fine : Fs → (Fin NINODE → ℕ) → Prop
  Allowed : Fs → (Fin NINODE → ℕ) → ℕ → Request → Prop
  NoType : Prop

namespace Regime

/-- The panics that may happen. -/
def Error (M : Regime) (e : Panic) : Prop := e = .ilockNoType → M.NoType

/-- A call ends with the references it found. -/
def Leaves (M : Regime) (H : Fin NINODE → ℕ) (s t : Fs) : Prop := M.Fine t H ∧ Keeps H s t

/-- A call returns an inode that is to be locked, with a reference to it. -/
def Finds (M : Regime) (H : Fin NINODE → ℕ) (s : Fs) : Option (Fin NINODE) → Fs → Prop
  | none, t => M.Leaves H s t
  | some ip, t => Wp (ilock ip) M.Error (fun _ u => M.Fine u (addRef H ip) ∧ Keeps H s u ∧
      (u.itable ip).valid = true) t

/-- A call ends with the inode it returns locked; `P` holds of its type. -/
def Locks (M : Regime) (H : Fin NINODE → ℕ) (P : Int16 → Prop) (s : Fs) :
    Option (Fin NINODE) → Fs → Prop
  | none, t => M.Leaves H s t
  | some ip, t => M.Fine t (addRef H ip) ∧ Keeps H s t ∧ (t.itable ip).valid = true ∧
      P (t.itable ip).type

/-- The directory that `sys_chdir` finds, to which the reference to the old one moves. -/
def Moves (M : Regime) (H : Fin NINODE → ℕ) (cwd : Fin NINODE) (s : Fs) : Option (Fin NINODE) → Fs → Prop
  | none, t => M.Leaves (addRef H cwd) s t
  | some ip, t => M.Fine t (addRef H ip) ∧ Keeps H s t

/-- What a regime owes. -/
structure Lawful (M : Regime) : Prop where
  rep : ∀ {s H}, M.Fine s H → ∃ N, s.Rep N H
  congr : ∀ {s t H}, M.Fine s H → t.sb = s.sb → t.cache = s.cache → t.itable = s.itable →
    M.Fine t H
  allowed : ∀ {s t H c r}, M.Allowed s H c r → t.sb = s.sb → t.cache = s.cache →
    t.itable = s.itable → M.Allowed t H c r
  dup : ∀ {s H ip}, M.Fine s H → 0 < H ip →
    M.Fine (s.setInode ip fun e => { e with ref := e.ref + 1 }) (addRef H ip)
  put : ∀ {s H ip}, M.Fine s (addRef H ip) → Wp (iput ip) M.Error (fun _ t => M.Leaves H s t) s
  trunc : ∀ {s H ip}, M.Fine s H → 0 < H ip → (s.itable ip).valid = true →
    (s.itable ip).type ≠ T_DIR → Wp (itrunc ip) M.Error (fun _ t => M.Leaves H s t) s
  write : ∀ {s H ip n}, M.Fine s H → 0 < H ip → (s.itable ip).valid = true →
    (s.itable ip).type ≠ T_DIR → ∀ src off, n < 2 ^ 32 →
    Wp (writei ip src off n) M.Error (fun _ t => M.Leaves H s t) s
  namei : ∀ {s H cwd}, M.Fine s H → 0 < H cwd → ∀ path,
    Wp (namei cwd path) M.Error (M.Finds H s) s
  create : ∀ {s H cwd path type}, M.Fine s H → 0 < H cwd → type ≠ 0 →
    M.Allowed s H (s.itable cwd).inum (.create path type) → ∀ major minor,
    Wp (create cwd path type major minor) M.Error
      (M.Locks H (fun found => type = T_FILE → found ≠ T_DIR) s) s
  link : ∀ {s H cwd old new}, M.Fine s H → 0 < H cwd →
    (∀ r, (Call.link old new).request = some r → M.Allowed s H (s.itable cwd).inum r) →
    Wp (sysLink cwd old new) M.Error (fun _ t => M.Leaves H s t) s
  unlink : ∀ {s H cwd arg}, M.Fine s H → 0 < H cwd →
    (∀ r, (Call.unlink arg).request = some r → M.Allowed s H (s.itable cwd).inum r) →
    Wp (sysUnlink cwd arg) M.Error (fun _ t => M.Leaves H s t) s

variable {M : Regime} {H : Fin NINODE → ℕ} {s t u : Fs} {ip : Fin NINODE}

theorem Leaves.trans (h : Keeps H s t) (h' : M.Leaves H t u) : M.Leaves H s u := ⟨h'.1, h.trans h'.2⟩

namespace Lawful

/-- Unlocking and the ends of transactions are not seen. -/
theorem iunlock (L : M.Lawful) (h : M.Fine s H) (hip : 0 < H ip) :
    Wp (iunlock ip) M.Error (fun _ t => t = s) s := by
  obtain ⟨N, hrep⟩ := L.rep h
  exact Fs.iunlock_rep hrep hip

/-- An inode that was read is not read again. -/
theorem ilock (L : M.Lawful) (h : M.Fine s H) (hip : 0 < H ip) (hv : (s.itable ip).valid = true) :
    Wp (ilock ip) M.Error (fun _ t => t = s) s := by
  obtain ⟨N, hrep⟩ := L.rep h
  have href := hrep.coherent.table.ref_eq ip
  simp only [Xv6.ilock, inode, wp_bind, wp_get, wp_pure]
  rw [if_neg (by omega), if_pos hv]
  rfl

theorem endOp (L : M.Lawful) (h : M.Leaves H s t) {α : Type} (a : α) {Q : α → Fs → Prop}
    (hQ : ∀ u, M.Leaves H s u → u.itable = t.itable → Q a u) :
    Wp (do
      endOp
      return a : FsM α) M.Error Q t := by
  simp only [Xv6.endOp, wp_bind, wp_modify, wp_pure]
  exact hQ _ ⟨L.congr h.1 rfl rfl rfl, h.2.trans (.of_itable rfl rfl)⟩ rfl

/-- Dropping a reference in a transaction of its own. -/
theorem iputOp (L : M.Lawful) (h : M.Fine s (addRef H ip)) :
    Wp (iputOp ip) M.Error (fun _ t => M.Leaves H s t) s := by
  simp only [Xv6.iputOp, beginOp, wp_bind, wp_modify]
  refine (L.put (s := { s with logged := [] }) (L.congr h rfl rfl rfl)).mono fun _ t ht => ?_
  have hk0 : Keeps H s { s with logged := [] } := .of_itable rfl rfl
  exact ⟨L.congr ht.1 rfl rfl rfl, (hk0.trans ht.2).trans (.of_itable rfl rfl)⟩

end Lawful

end Regime

namespace Sys

variable {m : ℕ} {M : Regime} {σ τ : Sys m} {X X' : Fin NINODE → ℕ} {Y Y' : Fin NFILE → ℕ}
  {f : Fin NFILE} {p : Fin m} {ip : Fin NINODE} {fd : Fin NOFILE}

theorem wp_onFs {α : Type} (x : FsM α) {E : Panic → Prop} {Q : α → Sys m → Prop} :
    Wp (onFs x) E Q σ ↔ Wp x E (fun a t => Q a { σ with fs := t }) σ.fs := by
  unfold Wp onFs
  cases x σ.fs <;> rfl

theorem wp_file {E : Panic → Prop} {Q : File → Sys m → Prop} :
    Wp (file f) E Q σ ↔ Q (σ.ftable f) σ := Iff.rfl

theorem wp_modifyFile {E : Panic → Prop} {Q : Unit → Sys m → Prop} (g : File → File) :
    Wp (modifyFile f g) E Q σ ↔ Q () (σ.setFile f g) := Iff.rfl

theorem wp_modifyProc {E : Panic → Prop} {Q : Unit → Sys m → Prop} (g : Proc m → Proc m) :
    Wp (modifyProc p g) E Q σ ↔ Q () (σ.setProc p g) := Iff.rfl

/-- Inodes and files have the references that files and processes hold, and `X` and `Y` more, which
the call that is running holds. -/
structure Inv (M : Regime) (σ : Sys m) (X : Fin NINODE → ℕ) (Y : Fin NFILE → ℕ) : Prop where
  fine : M.Fine σ.fs fun ip => σ.refs ip + X ip
  file_ref : ∀ f, (σ.ftable f).ref = σ.fileRefs f + Y f
  closed : ∀ f, (σ.ftable f).ref = 0 → (σ.ftable f).type = .none
  valid : ∀ f ip, (σ.ftable f).inode = some ip → (σ.fs.itable ip).valid = true
  writable : ∀ f, (σ.ftable f).type = .inode → (σ.ftable f).writable = true →
    (σ.fs.itable (σ.ftable f).ip).type ≠ T_DIR
  idle : ∀ p, (σ.procs p).life ≠ .live →
    (σ.procs p).cwd = none ∧ ∀ fd, (σ.procs p).ofile fd = none
  panicked : ∀ e, σ.panicked = some e → M.Error e

theorem add_addRef {n : ℕ} (A B : Fin n → ℕ) (a : Fin n) :
    (fun b => A b + addRef B a b) = addRef (fun b => A b + B b) a := by
  funext b
  simp only [addRef_apply]
  split
  · rename_i hb
    rw [hb, Nat.add_assoc]
  · rfl

theorem addRef_add {n : ℕ} (A B : Fin n → ℕ) (a : Fin n) :
    (fun b => addRef A a b + B b) = addRef (fun b => A b + B b) a := by
  simp only [Nat.add_comm _ (B _)]
  exact add_addRef B A a

theorem refs_pos_of_file (h : (σ.ftable f).inode = some ip) : 0 < σ.refs ip :=
  Nat.lt_of_lt_of_le (tally_pos (f := fun f => (σ.ftable f).inode) h) (Nat.le_add_right _ _)

theorem refs_pos_of_cwd (h : (σ.procs p).cwd = some ip) : 0 < σ.refs ip :=
  Nat.lt_of_lt_of_le (tally_pos (f := fun p => (σ.procs p).cwd) h) (Nat.le_add_left _ _)

theorem fileRefs_pos (h : (σ.procs p).ofile fd = some f) : 0 < σ.fileRefs f :=
  tally_pos (f := fun x : Fin m × Fin NOFILE => (σ.procs x.1).ofile x.2) (a := (p, fd)) h

/-! ## How the counts change -/

theorem inode_setFile (σ : Sys m) (f : Fin NFILE) (g : File → File) :
    (fun f' => ((σ.setFile f g).ftable f').inode) =
      update (fun f' => (σ.ftable f').inode) f (g (σ.ftable f)).inode := by
  funext f'
  rcases eq_or_ne f' f with rfl | hf
  · simp [setFile]
  · simp [setFile, update_of_ne hf]

/-- A file that keeps its inode. -/
theorem refs_setFile_same {g : File → File} (hg : (g (σ.ftable f)).inode = (σ.ftable f).inode) :
    (σ.setFile f g).refs = σ.refs := by
  funext ip
  rw [refs, refs, inode_setFile, hg, update_eq_self]
  rfl

/-- A file that lets go of its inode. -/
theorem refs_setFile_none {g : File → File} (hin : (σ.ftable f).inode = some ip)
    (hg : (g (σ.ftable f)).inode = none) : addRef (σ.setFile f g).refs ip = σ.refs := by
  have hclear := tally_clear (f := fun f' => (σ.ftable f').inode) hin
  rw [← hg, ← inode_setFile] at hclear
  show addRef (fun jp => tally (fun f' => ((σ.setFile f g).ftable f').inode) jp +
    tally (fun p => (σ.procs p).cwd) jp) ip = _
  rw [← addRef_add, addRef, hclear]
  rfl

/-- A file that gets an inode. -/
theorem refs_setFile_some {g : File → File} (hin : (σ.ftable f).inode = none)
    (hg : (g (σ.ftable f)).inode = some ip) : (σ.setFile f g).refs = addRef σ.refs ip := by
  have hset := tally_set (f := fun f' => (σ.ftable f').inode) (c := ip) hin
  rw [← hg, ← inode_setFile] at hset
  show (fun jp => tally (fun f' => ((σ.setFile f g).ftable f').inode) jp +
    tally (fun p => (σ.procs p).cwd) jp) = _
  rw [hset]
  exact addRef_add _ _ ip

theorem cwd_setProc (σ : Sys m) (p : Fin m) (g : Proc m → Proc m) :
    (fun q => ((σ.setProc p g).procs q).cwd) =
      update (fun q => (σ.procs q).cwd) p (g (σ.procs p)).cwd := by
  funext q
  rcases eq_or_ne q p with rfl | hq
  · simp [setProc]
  · simp [setProc, update_of_ne hq]

/-- A process that keeps its current directory. -/
theorem refs_setProc_same {g : Proc m → Proc m} (hg : (g (σ.procs p)).cwd = (σ.procs p).cwd) :
    (σ.setProc p g).refs = σ.refs := by
  funext ip
  rw [refs, refs, cwd_setProc, hg, update_eq_self]
  rfl

/-- A process that lets go of its current directory. -/
theorem refs_setProc_none {g : Proc m → Proc m} (hcwd : (σ.procs p).cwd = some ip)
    (hg : (g (σ.procs p)).cwd = none) : addRef (σ.setProc p g).refs ip = σ.refs := by
  have hclear := tally_clear (f := fun q => (σ.procs q).cwd) hcwd
  rw [← hg, ← cwd_setProc] at hclear
  show addRef (fun jp => tally (fun f => (σ.ftable f).inode) jp +
    tally (fun q => ((σ.setProc p g).procs q).cwd) jp) ip = _
  rw [← add_addRef, addRef, hclear]
  rfl

/-- A process that gets a current directory. -/
theorem refs_setProc_some {g : Proc m → Proc m} (hcwd : (σ.procs p).cwd = none)
    (hg : (g (σ.procs p)).cwd = some ip) : (σ.setProc p g).refs = addRef σ.refs ip := by
  have hset := tally_set (f := fun q => (σ.procs q).cwd) (c := ip) hcwd
  rw [← hg, ← cwd_setProc] at hset
  show (fun jp => tally (fun f => (σ.ftable f).inode) jp +
    tally (fun q => ((σ.setProc p g).procs q).cwd) jp) = _
  rw [hset]
  exact add_addRef _ _ ip

theorem ofile_setFd (σ : Sys m) (p : Fin m) (fd : Fin NOFILE) (o : Option (Fin NFILE)) :
    (fun x : Fin m × Fin NOFILE =>
      ((σ.setProc p fun e => { e with ofile := update e.ofile fd o }).procs x.1).ofile x.2) =
      update (fun x => (σ.procs x.1).ofile x.2) (p, fd) o := by
  funext ⟨q, k⟩
  rcases eq_or_ne q p with rfl | hq
  · by_cases hk : k = fd
    · subst hk
      simp [setProc]
    · rw [update_of_ne (by simp [hk])]
      simp [setProc, update_of_ne hk]
  · rw [update_of_ne (by simp [hq])]
    simp [setProc, update_of_ne hq]

/-- A descriptor that is cleared. -/
theorem fileRefs_clearFd (hf : (σ.procs p).ofile fd = some f) :
    addRef (σ.setProc p fun e => { e with ofile := update e.ofile fd none }).fileRefs f =
      σ.fileRefs := by
  have hclear := tally_clear (f := fun x : Fin m × Fin NOFILE => (σ.procs x.1).ofile x.2)
    (a := (p, fd)) hf
  rw [← ofile_setFd] at hclear
  exact hclear

/-- A descriptor that is filled. -/
theorem fileRefs_fillFd (hnone : (σ.procs p).ofile fd = none) :
    (σ.setProc p fun e => { e with ofile := update e.ofile fd (some f) }).fileRefs =
      addRef σ.fileRefs f := by
  have hset := tally_set (f := fun x : Fin m × Fin NOFILE => (σ.procs x.1).ofile x.2)
    (a := (p, fd)) (c := f) hnone
  rw [← ofile_setFd] at hset
  exact hset

/-- A process that keeps its descriptors. -/
theorem fileRefs_setProc_same {g : Proc m → Proc m} (hg : (g (σ.procs p)).ofile = (σ.procs p).ofile) :
    (σ.setProc p g).fileRefs = σ.fileRefs := by
  have heq : ∀ q, ((σ.setProc p g).procs q).ofile = (σ.procs q).ofile := by
    intro q
    rcases eq_or_ne q p with rfl | hq
    · simp [setProc, hg]
    · simp [setProc, update_of_ne hq]
  funext f
  simp only [fileRefs, heq]

/-! ## Changes of one part of the state -/

namespace Inv

/-- The file system moves on. -/
theorem setFs (h : σ.Inv M X Y) {t : Fs} (hfine : M.Fine t fun ip => σ.refs ip + X' ip)
    (hk : Keeps σ.refs σ.fs t) : Inv M { σ with fs := t } X' Y where
  fine := hfine
  file_ref := h.file_ref
  closed := h.closed
  valid := fun f ip hf => (hk.valid ip (refs_pos_of_file hf) (h.valid f ip hf)).1
  writable := fun f hf hw => by
    have hin : (σ.ftable f).inode = some (σ.ftable f).ip := if_pos (Or.inl hf)
    have := hk.valid _ (refs_pos_of_file hin) (h.valid f _ hin)
    rw [this.2]
    exact h.writable f hf hw
  idle := h.idle
  panicked := h.panicked

/-- One file changes, with the references the running call holds. -/
theorem setFile (h : σ.Inv M X Y) (g : File → File)
    (hrefs : (fun ip => (σ.setFile f g).refs ip + X' ip) = fun ip => σ.refs ip + X ip)
    (hY : ∀ f', f' ≠ f → Y' f' = Y f') (href : (g (σ.ftable f)).ref = σ.fileRefs f + Y' f)
    (hclosed : (g (σ.ftable f)).ref = 0 → (g (σ.ftable f)).type = .none)
    (hvalid : ∀ ip, (g (σ.ftable f)).inode = some ip → (σ.fs.itable ip).valid = true)
    (hwr : (g (σ.ftable f)).type = .inode → (g (σ.ftable f)).writable = true →
      (σ.fs.itable (g (σ.ftable f)).ip).type ≠ T_DIR) : Inv M (σ.setFile f g) X' Y' := by
  have hself : (σ.setFile f g).ftable f = g (σ.ftable f) := update_self ..
  have hne : ∀ {f'}, f' ≠ f → (σ.setFile f g).ftable f' = σ.ftable f' := fun hf =>
    update_of_ne hf ..
  refine ⟨?_, fun f' => ?_, fun f' => ?_, fun f' => ?_, fun f' => ?_, h.idle, h.panicked⟩
  · rw [hrefs]
    exact h.fine
  all_goals by_cases hf : f' = f
  · subst hf
    rw [hself]
    exact href
  · rw [hne hf, hY f' hf]
    exact h.file_ref f'
  · subst hf
    rw [hself]
    exact hclosed
  · rw [hne hf]
    exact h.closed f'
  · subst hf
    rw [hself]
    exact hvalid
  · rw [hne hf]
    exact h.valid f'
  · subst hf
    rw [hself]
    exact hwr
  · rw [hne hf]
    exact h.writable f'

/-- A file changes in nothing but its count and its offset. -/
theorem setFile_same (h : σ.Inv M X Y) (g : File → File)
    (hg : (g (σ.ftable f)).type = (σ.ftable f).type ∧ (g (σ.ftable f)).ip = (σ.ftable f).ip ∧
      (g (σ.ftable f)).writable = (σ.ftable f).writable)
    (hY : ∀ f', f' ≠ f → Y' f' = Y f') (href : (g (σ.ftable f)).ref = σ.fileRefs f + Y' f)
    (hclosed : (g (σ.ftable f)).ref = 0 → (σ.ftable f).type = .none) :
    Inv M (σ.setFile f g) X Y' := by
  obtain ⟨htype, hip, hw⟩ := hg
  have hinode : (g (σ.ftable f)).inode = (σ.ftable f).inode := by rw [File.inode, File.inode, htype, hip]
  refine h.setFile g (by rw [refs_setFile_same hinode]) hY href (by rwa [htype])
    (by rw [hinode]; exact h.valid f) ?_
  rw [htype, hip, hw]
  exact h.writable f

/-- One process changes, with the references the running call holds. -/
theorem setProc (h : σ.Inv M X Y) (g : Proc m → Proc m)
    (hrefs : (fun ip => (σ.setProc p g).refs ip + X' ip) = fun ip => σ.refs ip + X ip)
    (hfiles : (fun f => (σ.setProc p g).fileRefs f + Y' f) = fun f => σ.fileRefs f + Y f)
    (hidle : (g (σ.procs p)).life ≠ .live →
      (g (σ.procs p)).cwd = none ∧ ∀ fd, (g (σ.procs p)).ofile fd = none) :
    Inv M (σ.setProc p g) X' Y' := by
  refine ⟨?_, fun f => ?_, h.closed, h.valid, h.writable, fun q => ?_, h.panicked⟩
  · rw [hrefs]
    exact h.fine
  · have h1 := h.file_ref f
    have h2 := congrFun hfiles f
    show (σ.ftable f).ref = _
    omega
  · rcases eq_or_ne q p with rfl | hq
    · simp only [Sys.setProc, update_self]
      exact hidle
    · simp only [Sys.setProc, update_of_ne hq]
      exact h.idle q

end Inv

end Sys

end Xv6
