import Xv6.Sys.Regime

/-! # The file table keeps its counts

The functions of `kernel/file.c`, and those that move references between files and descriptors, keep
`Sys.Inv`. A file that `filealloc` returns, and a descriptor that is cleared, leave a reference with
the running call; `fdalloc` and `fileclose` take it. -/

namespace Xv6

open Function

open Fs (Keeps)

namespace Regime.Lawful

variable {M : Regime} {H : Fin NINODE → ℕ} {s : Fs} {ip : Fin NINODE} {n : ℕ}

theorem opened (L : M.Lawful) (h : M.Fine s H) (hip : 0 < H ip) (hv : (s.itable ip).valid = true) :
    ∃ N, s.Rep N H ∧ s.Opened H ip (s.itable ip).inum := by
  obtain ⟨N, hrep⟩ := L.rep h
  exact ⟨N, hrep, ⟨hip, rfl⟩, hv⟩

/-- Reading changes nothing. -/
theorem readi (L : M.Lawful) (h : M.Fine s H) (hip : 0 < H ip) (hv : (s.itable ip).valid = true)
    (dst : Dst) (off : ℕ) (hn : n < 2 ^ 32) :
    Wp (readi ip dst off n) M.Error (fun _ t => t = s) s := by
  obtain ⟨N, hrep, hopen⟩ := L.opened h hip hv
  obtain ⟨hl, ht⟩ := hopen.locked hrep
  exact Fs.readi_same hrep.coherent hl ht dst off hn

end Regime.Lawful

namespace Sys

variable {m : ℕ} {M : Regime} {σ τ : Sys m} {X : Fin NINODE → ℕ} {Y : Fin NFILE → ℕ}
  {f : Fin NFILE} {p : Fin m} {ip : Fin NINODE} {fd : Fin NOFILE} {E : Panic → Prop}

theorem addRef_of_ne {n : ℕ} (Y : Fin n → ℕ) {a b : Fin n} (h : b ≠ a) : addRef Y a b = Y b := by
  rw [addRef_apply, if_neg h]

/-! ## Descriptors -/

namespace Inv

/-- A cleared descriptor leaves its reference. -/
theorem clearFd (h : σ.Inv M X Y) (hf : (σ.procs p).ofile fd = some f) :
    Inv M (σ.setProc p fun e => { e with ofile := update e.ofile fd none }) X
      (addRef Y f) := by
  refine h.setProc _ (by rw [refs_setProc_same rfl]) ?_ fun hl => ?_
  · rw [add_addRef, ← addRef_add, fileRefs_clearFd hf]
  · rw [(h.idle p hl).2 fd] at hf
    cases hf

/-- A descriptor that was free takes a reference. -/
theorem fillFd (h : σ.Inv M X (addRef Y f)) (hnone : (σ.procs p).ofile fd = none)
    (hlive : (σ.procs p).life = .live) :
    Inv M (σ.setProc p fun e => { e with ofile := update e.ofile fd (some f) }) X Y := by
  refine h.setProc _ (by rw [refs_setProc_same rfl]) ?_ fun hl => absurd hlive hl
  rw [fileRefs_fillFd hnone, addRef_add, add_addRef]

end Inv

/-- **`fdalloc`** gives the reference to a free descriptor, if there is one. -/
theorem fdalloc_spec (h : σ.Inv M X (addRef Y f)) (hlive : (σ.procs p).life = .live) :
    Wp (fdalloc p f) E (fun r τ => (r = none ∧ τ = σ) ∨ ∃ fd, r = some fd ∧
      (σ.procs p).ofile fd = none ∧
      τ = σ.setProc p (fun e => { e with ofile := update e.ofile fd (some f) }) ∧
      τ.Inv M X Y) σ := by
  rw [fdalloc, wp_bind, wp_get]
  cases hfind : (List.finRange NOFILE).find? fun fd => decide ((σ.procs p).ofile fd = none) with
  | none => exact Or.inl ⟨rfl, rfl⟩
  | some fd =>
    have hnone := List.find?_some hfind
    rw [decide_eq_true_eq] at hnone
    simp only [setFd, wp_bind, wp_modifyProc, wp_pure]
    exact Or.inr ⟨fd, rfl, hnone, rfl, h.fillFd hnone hlive⟩

/-! ## Files -/

/-- **`filealloc`** takes a file without references. -/
theorem filealloc_spec (h : σ.Inv M X Y) :
    Wp filealloc E (fun r τ => (r = none ∧ τ = σ) ∨ ∃ f, r = some f ∧ (σ.ftable f).ref = 0 ∧
      τ = σ.setFile f (fun e => { e with ref := 1 }) ∧ τ.Inv M X (addRef Y f)) σ := by
  rw [filealloc, wp_bind, wp_get]
  cases hfind : (List.finRange NFILE).find? fun f => decide ((σ.ftable f).ref = 0) with
  | none => exact Or.inl ⟨rfl, rfl⟩
  | some f =>
    have hzero := List.find?_some hfind
    rw [decide_eq_true_eq] at hzero
    simp only [wp_bind, wp_modifyFile, wp_pure]
    refine Or.inr ⟨f, rfl, hzero, rfl, h.setFile_same _ ⟨rfl, rfl, rfl⟩
      (fun f' hf' => addRef_of_ne Y hf') ?_ nofun⟩
    have := h.file_ref f
    rw [addRef_self]
    show (1 : ℤ) = _
    omega

theorem Inv.dupFile (h : σ.Inv M X Y) :
    Inv M (σ.setFile f fun e => { e with ref := e.ref + 1 }) X (addRef Y f) := by
  have href := h.file_ref f
  refine h.setFile_same _ ⟨rfl, rfl, rfl⟩ (fun f' hf' => addRef_of_ne Y hf') ?_ fun h0 => ?_
  · rw [addRef_self]
    show (σ.ftable f).ref + 1 = _
    omega
  · have : (σ.ftable f).ref + 1 = 0 := h0
    omega

/-- **`filedup`** of a file that is referred to. -/
theorem filedup_spec (h : σ.Inv M X Y) (hpos : 0 < σ.fileRefs f + Y f) :
    Wp (filedup f) E (fun r τ => r = f ∧ τ = σ.setFile f (fun e => { e with ref := e.ref + 1 }) ∧
      τ.Inv M X (addRef Y f)) σ := by
  have href := h.file_ref f
  rw [filedup, wp_bind, wp_file, if_neg (by omega)]
  simp only [wp_bind, wp_modifyFile, wp_pure]
  exact ⟨trivial, trivial, h.dupFile⟩

/-- The last reference to a file goes; the file's own reference to an inode is left to the call. -/
theorem Inv.closeFile (h : σ.Inv M X (addRef Y f)) (hone : (σ.ftable f).ref = 1)
    (hin : (σ.ftable f).inode = some ip) :
    Inv M (σ.setFile f fun e => { e with ref := 0, type := .none }) (addRef X ip) Y := by
  have href := h.file_ref f
  rw [addRef_self] at href
  refine h.setFile _ ?_ (fun f' hf' => (addRef_of_ne Y hf').symm) ?_ (fun _ => rfl) nofun nofun
  · rw [add_addRef, ← addRef_add, refs_setFile_none hin rfl]
  · show (0 : ℤ) = _
    omega

/-- **`fileclose`** drops a reference to the file, and with the last one the file's reference to its
inode. -/
theorem fileclose_spec (L : M.Lawful) (h : σ.Inv M X (addRef Y f)) :
    Wp (fileclose f) M.Error (fun _ τ => τ.Inv M X Y ∧ τ.procs = σ.procs ∧
      Keeps (fun ip => τ.refs ip + X ip) σ.fs τ.fs) σ := by
  have href := h.file_ref f
  rw [addRef_self] at href
  rw [fileclose, wp_bind, wp_file, if_neg (by omega)]
  by_cases hmore : (σ.ftable f).ref - 1 > 0
  · rw [if_pos hmore, wp_modifyFile]
    refine ⟨h.setFile_same _ ⟨rfl, rfl, rfl⟩ (fun f' hf' => (addRef_of_ne Y hf').symm) ?_ ?_, rfl,
      .refl _ _⟩
    · show (σ.ftable f).ref - 1 = _
      omega
    · intro h0
      have : (σ.ftable f).ref - 1 = 0 := h0
      omega
  · have hone : (σ.ftable f).ref = 1 := by omega
    rw [if_neg hmore, wp_bind, wp_modifyFile]
    by_cases htype : (σ.ftable f).type = .inode ∨ (σ.ftable f).type = .device
    · rw [if_pos htype, wp_onFs]
      have hclose := h.closeFile hone (if_pos htype)
      have hfine := hclose.fine
      rw [add_addRef] at hfine
      refine (L.iputOp hfine).mono fun _ t ht => ?_
      exact ⟨hclose.setFs ht.1 (ht.2.mono fun ip hip => by omega), rfl, ht.2⟩
    · rw [if_neg htype, wp_pure]
      have hnone : (σ.ftable f).inode = none := if_neg htype
      refine ⟨h.setFile _ (by rw [refs_setFile_same (hnone ▸ rfl)])
        (fun f' hf' => (addRef_of_ne Y hf').symm) ?_ (fun _ => rfl) nofun nofun, rfl, .refl _ _⟩
      show (0 : ℤ) = _
      omega

/-! ## Reading and writing -/

theorem Inv.pos_of_file (h : σ.Inv M X Y) (hin : (σ.ftable f).inode = some ip) :
    0 < σ.refs ip + X ip ∧ (σ.fs.itable ip).valid = true :=
  ⟨Nat.lt_of_lt_of_le (refs_pos_of_file hin) (Nat.le_add_right _ _), h.valid f ip hin⟩

/-- The offset of a file does not matter to the counts. -/
theorem Inv.setOff (h : σ.Inv M X Y) (r : ℤ) :
    Inv M (σ.setFile f fun e => if r > 0 then { e with off := (e.off + r.toNat) % 2 ^ 32 } else e)
      X Y := by
  refine h.setFile_same _ ?_ (fun _ _ => rfl) ?_ ?_
  · split <;> exact ⟨rfl, rfl, rfl⟩
  · have := h.file_ref f
    split <;> exact this
  · have := h.closed f
    split <;> exact this

theorem filestat_spec (L : M.Lawful) (h : σ.Inv M X Y) (ok : Bool) :
    Wp (filestat f ok) M.Error (fun _ τ => τ.Inv M X Y) σ := by
  rw [filestat, wp_bind, wp_file]
  by_cases htype : (σ.ftable f).type = .inode ∨ (σ.ftable f).type = .device
  · have hin : (σ.ftable f).inode = some (σ.ftable f).ip := if_pos htype
    obtain ⟨hpos, hv⟩ := h.pos_of_file hin
    simp only [if_pos htype, wp_bind, wp_onFs, wp_pure]
    refine (L.ilock h.fine hpos hv).mono fun _ t ht => ?_
    subst ht
    refine (L.iunlock h.fine hpos).mono fun _ t ht => ?_
    subst ht
    exact h
  · rw [if_neg htype]
    exact h

theorem fileread_spec (L : M.Lawful) (h : σ.Inv M X Y) (dst : Dst) (n : UInt32) (r : ℤ) :
    Wp (fileread f dst n r) M.Error (fun _ τ => τ.Inv M X Y) σ := by
  rw [fileread, wp_bind, wp_file]
  by_cases hread : (σ.ftable f).readable = false
  · rw [if_pos hread]
    exact h
  · rw [if_neg hread]
    cases htype : (σ.ftable f).type with
    | pipe => exact h
    | device => exact h
    | none => exact nofun
    | inode =>
      have hin : (σ.ftable f).inode = some (σ.ftable f).ip := if_pos (Or.inl htype)
      obtain ⟨hpos, hv⟩ := h.pos_of_file hin
      simp only [wp_bind, wp_onFs]
      refine (L.ilock h.fine hpos hv).mono fun _ t ht => ?_
      subst ht
      refine (L.readi h.fine hpos hv dst _ n.toNat_lt).mono fun r t ht => ?_
      subst ht
      rw [wp_modifyFile]
      have hoff := h.setOff (f := f) r.1
      have hpos' : 0 < (σ.setFile f fun e => if r.1 > 0 then
          { e with off := (e.off + r.1.toNat) % 2 ^ 32 } else e).refs (σ.ftable f).ip + X (σ.ftable f).ip := by
        refine Nat.lt_of_lt_of_le (refs_pos_of_file (f := f) ?_) (Nat.le_add_right _ _)
        simp only [Sys.setFile, update_self]
        split <;> exact hin
      rw [wp_bind, wp_onFs]
      refine (L.iunlock hoff.fine hpos').mono fun _ t ht => ?_
      subst ht
      exact hoff

/-- The loop of `filewrite` on a file that may be written to. -/
theorem filewriteLoop_spec (L : M.Lawful) (h : σ.Inv M X Y) (htype : (σ.ftable f).type = .inode)
    (hw : (σ.ftable f).writable = true) (src : ℕ → Src) (n rounds i : ℕ) :
    Wp (filewriteLoop f src n rounds i) M.Error (fun _ τ => τ.Inv M X Y) σ := by
  induction rounds generalizing σ i with
  | zero => exact h
  | succ rounds ih =>
    rw [filewriteLoop]
    by_cases hi : i < n
    · have hin : (σ.ftable f).inode = some (σ.ftable f).ip := if_pos (Or.inl htype)
      obtain ⟨hpos, hv⟩ := h.pos_of_file hin
      rw [if_pos hi]
      simp only [wp_bind, wp_file, wp_onFs, beginOp, wp_modify]
      have hbegin : M.Fine { σ.fs with logged := [] } fun ip => σ.refs ip + X ip :=
        L.congr h.fine rfl rfl rfl
      refine (L.ilock hbegin hpos hv).mono fun _ t ht => ?_
      subst ht
      have hsmall : min (n - i) ((MAXOPBLOCKS - 1 - 1 - 2) / 2 * BSIZE) < 2 ^ 32 :=
        lt_of_le_of_lt (Nat.min_le_right _ _) (by decide)
      refine (L.write hbegin hpos hv (h.writable f htype hw) (src i) _ hsmall).mono fun r t ht => ?_
      have hk : Keeps σ.refs σ.fs t :=
        (Keeps.of_itable rfl rfl : Keeps σ.refs σ.fs { σ.fs with logged := [] }).trans
          (ht.2.mono fun ip hip => by omega)
      have hoff := (h.setFs ht.1 hk).setOff (f := f) r
      rw [wp_modifyFile]
      -- the file is still the same one
      obtain ⟨τ, hτ⟩ : ∃ τ, τ = Sys.setFile { σ with fs := t } f fun e =>
        if r > 0 then { e with off := (e.off + r.toNat) % 2 ^ 32 } else e := ⟨_, rfl⟩
      have hfile : (τ.ftable f).type = .inode ∧ (τ.ftable f).writable = true ∧
          (τ.ftable f).ip = (σ.ftable f).ip := by
        rw [hτ]
        simp only [Sys.setFile, update_self]
        split <;> exact ⟨htype, hw, rfl⟩
      rw [← hτ] at hoff ⊢
      have hpos' : 0 < τ.refs (σ.ftable f).ip + X (σ.ftable f).ip := by
        rw [← hfile.2.2]
        exact (hoff.pos_of_file (if_pos (Or.inl hfile.1))).1
      rw [wp_bind, wp_onFs]
      refine (L.iunlock hoff.fine hpos').bind fun _ u hu => ?_
      subst hu
      rw [endOp, wp_modify]
      have hend := hoff.setFs (t := { τ.fs with
        disk := fun b => if b ∈ τ.fs.logged then τ.fs.cache b else τ.fs.disk b, logged := [] })
        (L.congr hoff.fine rfl rfl rfl) (.of_itable rfl rfl)
      by_cases hr : r ≠ min (n - i) ((MAXOPBLOCKS - 1 - 1 - 2) / 2 * BSIZE)
      · rw [if_pos hr]
        exact hend
      · rw [if_neg hr]
        exact ih hend hfile.1 hfile.2.1 _
    · rw [if_neg hi]
      exact h

theorem filewrite_spec (L : M.Lawful) (h : σ.Inv M X Y) (src : ℕ → Src) (n r : ℤ) :
    Wp (filewrite f src n r) M.Error (fun _ τ => τ.Inv M X Y) σ := by
  rw [filewrite, wp_bind, wp_file]
  by_cases hw : (σ.ftable f).writable = false
  · rw [if_pos hw]
    exact h
  · rw [if_neg hw]
    cases htype : (σ.ftable f).type with
    | pipe => exact h
    | device => exact h
    | none => exact nofun
    | inode =>
      show Wp (_ >>= _) _ _ _
      refine (filewriteLoop_spec L h htype (by simpa using hw) src _ _ 0).bind fun i τ hτ => ?_
      exact hτ

/-! ## Pipes -/

/-- A file without an inode becomes an end of a pipe. -/
theorem Inv.setPipe (h : σ.Inv M X Y) (hnone : (σ.ftable f).inode = none)
    (hpos : (σ.ftable f).ref ≠ 0) (r w : Bool) :
    Inv M (σ.setFile f fun e => { e with type := .pipe, readable := r, writable := w }) X Y := by
  have hpipe : ∀ e : File, ({ e with type := .pipe, readable := r, writable := w } : File).inode =
      none := fun e => if_neg (by simp)
  refine h.setFile _ (by rw [refs_setFile_same (by rw [hnone, hpipe])]) (fun _ _ => rfl) (h.file_ref f)
    (fun h0 => absurd h0 hpos) ?_ nofun
  intro ip hip
  rw [hpipe] at hip
  cases hip

/-- **`pipealloc`** returns two files with a reference each, or none. -/
theorem pipealloc_spec (L : M.Lawful) (h : σ.Inv M X Y) (mem : Bool) :
    Wp (pipealloc mem) M.Error (fun r τ => τ.procs = σ.procs ∧
      match r with
      | none => τ.Inv M X Y
      | some (f0, f1) => τ.Inv M X (addRef (addRef Y f1) f0)) σ := by
  rw [pipealloc]
  refine (filealloc_spec h).bind fun r σ1 hr => ?_
  obtain ⟨rfl, rfl⟩ | ⟨f0, rfl, hzero0, hσ1, h1⟩ := hr
  · exact ⟨rfl, h⟩
  · have hprocs1 : σ1.procs = σ.procs := hσ1 ▸ rfl
    show Wp (_ >>= _) _ _ _
    refine (filealloc_spec h1).bind fun r σ2 hr => ?_
    obtain ⟨rfl, rfl⟩ | ⟨f1, rfl, hzero1, hσ2, h2⟩ := hr
    · simp only [wp_bind]
      refine (fileclose_spec L h1).mono fun _ τ hτ => ?_
      exact ⟨hτ.2.1.trans hprocs1, hτ.1⟩
    · have hprocs2 : σ2.procs = σ.procs := by rw [hσ2]; exact hprocs1
      rw [addRef_comm] at h2
      cases mem with
      | false =>
        simp only [Bool.false_eq_true, if_false, wp_bind]
        refine (fileclose_spec L h2).mono fun _ σ3 h3 => ?_
        refine (fileclose_spec L h3.1).bind fun _ τ hτ => ?_
        exact ⟨(hτ.2.1.trans h3.2.1).trans hprocs2, hτ.1⟩
      | true =>
        have hne : f1 ≠ f0 := by
          rintro rfl
          rw [hσ1] at hzero1
          simp [Sys.setFile] at hzero1
        -- both files were closed before
        have hfile : ∀ e : File, e.type = .none → ({ e with ref := 1 } : File).inode = none :=
          fun e he => if_neg (by simp [he])
        have hσ2f0 : σ2.ftable f0 = { σ.ftable f0 with ref := 1 } := by
          rw [hσ2, hσ1]
          simp [Sys.setFile, update_of_ne hne.symm]
        have hσ2f1 : σ2.ftable f1 = { σ.ftable f1 with ref := 1 } := by
          rw [hσ2, hσ1]
          simp [Sys.setFile, update_of_ne hne]
        have hz1 : (σ.ftable f1).ref = 0 := by
          rw [hσ1] at hzero1
          simpa [Sys.setFile, update_of_ne hne] using hzero1
        simp only [if_true, wp_bind, wp_modifyFile, wp_pure]
        have h3 := h2.setPipe (f := f0) (by rw [hσ2f0]; exact hfile _ (h.closed f0 hzero0))
          (by rw [hσ2f0]; exact one_ne_zero) true false
        have hf1 : (σ2.setFile f0 fun e =>
            { e with type := .pipe, readable := true, writable := false }).ftable f1 =
            { σ.ftable f1 with ref := 1 } := by
          rw [← hσ2f1]
          exact update_of_ne hne ..
        refine ⟨hprocs2, h3.setPipe (f := f1) ?_ ?_ false true⟩
        · rw [hf1]
          exact hfile _ (h.closed f1 hz1)
        · rw [hf1]
          exact one_ne_zero

end Sys

end Xv6
