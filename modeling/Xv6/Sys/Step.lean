import Xv6.Sys.Lookup
import Xv6.Lib.Run

/-! # System calls keep the counts

Every system call keeps `Sys.Inv`: whatever it returns, the references it took on the way are with a
descriptor, a file or a current directory, or were given back. -/

namespace Xv6

open Function

open Fs (Keeps)

namespace Sys

variable {m : ℕ} {M : Regime} {σ τ : Sys m} {X : Fin NINODE → ℕ} {Y : Fin NFILE → ℕ}
  {f : Fin NFILE} {p np initproc : Fin m} {cwd ip : Fin NINODE} {fd : Fin NOFILE} {E : Panic → Prop}

/-! ## Descriptors -/

theorem argfd_eq_some {e : Proc m} {n : ℤ} (h : argfd e n = some (fd, f)) : e.ofile fd = some f := by
  unfold argfd at h
  split at h
  · obtain ⟨f', hf', heq⟩ := Option.map_eq_some_iff.mp h
    obtain ⟨rfl, rfl⟩ := Prod.mk.inj heq
    exact hf'
  · cases h

/-- A call on a descriptor fails, or acts on a file that the descriptor refers to. -/
theorem withFd_spec {Q : ℤ → Sys m → Prop} {x : Fin NOFILE → Fin NFILE → SysM m ℤ} (n : ℤ)
    (hfail : Q (-1) σ) (hx : ∀ k f, (σ.procs p).ofile k = some f → Wp (x k f) E Q σ) :
    Wp (withFd p n x) E Q σ := by
  rw [withFd, wp_bind, wp_get]
  cases harg : argfd (σ.procs p) n with
  | none => exact hfail
  | some r =>
    obtain ⟨k, f⟩ := r
    exact hx k f (argfd_eq_some harg)

theorem sysClose_spec (L : M.Lawful) (h : σ.Inv M X Y) (n : ℤ) :
    Wp (sysClose p n) M.Error (fun _ τ => τ.Inv M X Y) σ := by
  refine withFd_spec n h fun k f hf => ?_
  simp only [setFd, wp_bind, wp_modifyProc]
  refine (fileclose_spec L (h.clearFd hf)).mono fun _ τ hτ => ?_
  exact hτ.1

theorem sysDup_spec (h : σ.Inv M X Y) (hlive : (σ.procs p).life = .live) (n : ℤ) :
    Wp (sysDup p n) E (fun _ τ => τ.Inv M X Y) σ := by
  refine withFd_spec n h fun k f hf => ?_
  have hpos := h.file_ref f
  have hfd := fileRefs_pos hf
  rw [wp_bind, fdalloc, wp_bind, wp_get]
  cases hfind : (List.finRange NOFILE).find? fun fd => decide ((σ.procs p).ofile fd = none) with
  | none => exact h
  | some k' =>
    have hnone := List.find?_some hfind
    rw [decide_eq_true_eq] at hnone
    simp only [setFd, filedup, wp_bind, wp_modifyProc, wp_pure, wp_file]
    rw [if_neg]
    swap
    · show ¬ (σ.ftable f).ref < 1
      omega
    simp only [wp_bind, wp_modifyFile, wp_pure]
    -- the count and the descriptor change independently
    exact h.dupFile.fillFd hnone hlive

theorem sysPipe_spec (L : M.Lawful) (h : σ.Inv M X Y) (hlive : (σ.procs p).life = .live)
    (mem out : Bool) : Wp (sysPipe p mem out) M.Error (fun _ τ => τ.Inv M X Y) σ := by
  -- the two ends are closed again on every error path
  have hclose : ∀ {ρ : Sys m} {f0 f1 : Fin NFILE}, ρ.Inv M X (addRef (addRef Y f1) f0) →
      Wp (do
        fileclose f0
        fileclose f1
        return -1 : SysM m ℤ) M.Error (fun _ τ => τ.Inv M X Y) ρ := by
    intro ρ f0 f1 hρ
    refine (fileclose_spec L hρ).bind fun _ ρ' hρ' => ?_
    refine (fileclose_spec L hρ'.1).bind fun _ τ hτ => ?_
    exact hτ.1
  rw [sysPipe]
  refine (pipealloc_spec L h mem).bind ?_
  rintro (_ | ⟨f0, f1⟩) σ1 ⟨hprocs1, h1⟩
  · exact h1
  · have hlive1 : (σ1.procs p).life = .live := by rw [hprocs1, hlive]
    show Wp (_ >>= _) _ _ _
    refine (fdalloc_spec h1 hlive1).bind fun r σ2 hr => ?_
    obtain ⟨rfl, rfl⟩ | ⟨fd0, rfl, hnone0, hσ2, h2⟩ := hr
    · exact hclose h1
    · have hself2 : (σ2.procs p) = { σ1.procs p with
          ofile := update (σ1.procs p).ofile fd0 (some f0) } := by
        rw [hσ2]
        exact update_self ..
      have hlive2 : (σ2.procs p).life = .live := by rw [hself2]; exact hlive1
      have hfd0 : (σ2.procs p).ofile fd0 = some f0 := by rw [hself2]; exact update_self ..
      show Wp (_ >>= _) _ _ _
      refine (fdalloc_spec h2 hlive2).bind fun r σ3 hr => ?_
      obtain ⟨rfl, rfl⟩ | ⟨fd1, rfl, hnone1, hσ3, h3⟩ := hr
      · simp only [setFd]
        rw [wp_bind, wp_modifyProc]
        exact hclose (h2.clearFd hfd0)
      · cases out with
        | true => exact h3
        | false =>
          have hself3 : (σ3.procs p) = { σ2.procs p with
              ofile := update (σ2.procs p).ofile fd1 (some f1) } := by
            rw [hσ3]
            exact update_self ..
          have hne : fd1 ≠ fd0 := ne_of_values hnone1 hfd0 (by simp)
          have hfd0' : (σ3.procs p).ofile fd0 = some f0 := by
            rw [hself3]
            exact (update_of_ne hne.symm ..).trans hfd0
          have h4 := h3.clearFd hfd0'
          have hfd1' : ((σ3.setProc p fun e =>
              { e with ofile := update e.ofile fd0 none }).procs p).ofile fd1 =
              some f1 := by
            simp [Sys.setProc, update_of_ne hne, hself3]
          have h5 := h4.clearFd hfd1'
          rw [addRef_comm] at h5
          simp only [Bool.false_eq_true, if_false, setFd]
          rw [wp_bind, wp_modifyProc, wp_bind, wp_modifyProc]
          exact hclose h5

/-! ## `sys_open` -/

/-- Giving up on an inode that was opened. -/
theorem openFail_spec (L : M.Lawful) (h : σ.Inv M (addRef X ip) Y) :
    Wp (openFail ip) M.Error (fun _ τ => τ.Inv M X Y) σ := by
  have hfine := h.fine
  rw [add_addRef] at hfine
  rw [openFail, wp_onFs, iunlockput, wp_bind]
  refine (L.iunlock hfine (by rw [addRef_self]; omega)).bind fun _ t ht => ?_
  subst ht
  refine (L.put hfine).mono fun _ t ht => ?_
  refine L.endOp ht _ fun u hu _ => ?_
  exact h.setFs hu.1 (hu.2.mono fun ip hip => by omega)

theorem File.inode_opened (g : File) (e : Inode) (ip : Fin NINODE) (omode : ℕ) :
    (g.opened e ip omode).inode = some ip := by
  rw [File.opened, File.inode]
  split
  · exact if_pos (Or.inr rfl)
  · exact if_pos (Or.inl rfl)

/-- The file gets the inode and the reference to it. -/
theorem openFile_spec (L : M.Lawful) (h : σ.Inv M (addRef X ip) Y) (hnone : (σ.ftable f).inode = none)
    (hpos : (σ.ftable f).ref ≠ 0) (hv : (σ.fs.itable ip).valid = true) {omode : ℕ}
    (hdir : (σ.fs.itable ip).type = T_DIR → omode = O_RDONLY) :
    Wp (openFile f fd ip omode) M.Error (fun _ τ => τ.Inv M X Y) σ := by
  have hin : ((σ.ftable f).opened (σ.fs.itable ip) ip omode).inode = some ip :=
    File.inode_opened ..
  have hfile : Inv M (σ.setFile f fun g => g.opened (σ.fs.itable ip) ip omode) X Y := by
    refine h.setFile _ ?_ (fun _ _ => rfl) ?_ ?_ ?_ ?_
    · rw [refs_setFile_some hnone hin, addRef_add, add_addRef]
    · have := h.file_ref f
      rw [File.opened]
      split <;> exact this
    · intro h0
      refine absurd ?_ hpos
      rw [File.opened] at h0
      split at h0 <;> exact h0
    · intro jp hjp
      rw [hin] at hjp
      cases hjp
      exact hv
    · intro _ hw hdt
      -- a directory is opened for reading only
      have h0 := hdir (by rw [File.opened] at hdt; split at hdt <;> exact hdt)
      rw [h0, File.opened] at hw
      split at hw <;> cases hw
  obtain ⟨ρ, hρ⟩ : ∃ ρ, ρ = σ.setFile f fun g => g.opened (σ.fs.itable ip) ip omode := ⟨_, rfl⟩
  have hfs : ρ.fs = σ.fs := hρ ▸ rfl
  have hposρ : 0 < ρ.refs ip + X ip := by
    refine Nat.lt_of_lt_of_le (refs_pos_of_file (f := f) ?_) (Nat.le_add_right _ _)
    rw [hρ]
    simp only [Sys.setFile, update_self]
    exact hin
  rw [← hρ] at hfile
  rw [openFile, wp_bind, wp_onFs, Fs.wp_inode, wp_bind, wp_modifyFile, ← hρ, wp_onFs, wp_bind]
  -- truncating keeps everything; then the inode is unlocked
  have htrunc : Wp (if omode &&& O_TRUNC ≠ 0 ∧ (σ.fs.itable ip).type = T_FILE then itrunc ip
      else return () : FsM Unit) M.Error
      (fun _ t => M.Leaves (fun ip => ρ.refs ip + X ip) ρ.fs t) ρ.fs := by
    split
    · rename_i hc
      refine L.trunc hfile.fine hposρ (by rw [hfs]; exact hv) ?_
      rw [hfs, hc.2]
      decide
    · exact ⟨hfile.fine, .refl _ _⟩
  refine htrunc.mono fun _ t ht => ?_
  refine (L.iunlock ht.1 hposρ).bind fun _ u hu => ?_
  subst hu
  refine L.endOp ht _ fun v hv' _ => ?_
  exact hfile.setFs hv'.1 (hv'.2.mono fun ip hip => by omega)

/-- **`sys_open`.** -/
theorem sysOpen_spec (L : M.Lawful) (h : σ.Inv M X Y) (hlive : (σ.procs p).life = .live)
    (hcwd : 0 < σ.refs cwd + X cwd) (arg : Option (List UInt8)) (omode : ℕ)
    (hallow : ∀ r, (Call.sysOpen arg omode).request = some r →
      M.Allowed σ.fs (fun ip => σ.refs ip + X ip) (σ.fs.itable cwd).inum r) :
    Wp (sysOpen p cwd arg omode) M.Error (fun _ τ => τ.Inv M X Y) σ := by
  rw [sysOpen]
  cases harg : argstr arg with
  | none => exact h
  | some path =>
    simp only [beginOp]
    rw [wp_bind, wp_onFs, wp_modify, wp_bind, wp_onFs]
    refine (L.openInode h.fine hcwd hallow harg).mono fun r t hr => ?_
    cases r with
    | none =>
      show Wp (_ >>= _) _ _ _
      rw [wp_bind, wp_onFs, endOp, wp_modify]
      exact h.setFs (L.congr hr.1 rfl rfl rfl)
        ((hr.2.mono fun ip hip => by omega).trans (.of_itable rfl rfl))
    | some ip =>
      obtain ⟨hfine, hk, hv, hdir⟩ := hr
      rw [← add_addRef] at hfine
      have h1 : Inv M { σ with fs := t } (addRef X ip) Y :=
        h.setFs hfine (hk.mono fun ip hip => by omega)
      show Wp (_ >>= _) _ _ _
      rw [wp_bind, wp_onFs, Fs.wp_inode]
      split
      · exact openFail_spec L h1
      · refine (filealloc_spec h1).bind fun r σ2 hr => ?_
        obtain ⟨rfl, rfl⟩ | ⟨f, rfl, hzero, hσ2, h2⟩ := hr
        · exact openFail_spec L h1
        · have hlive2 : (σ2.procs p).life = .live := by rw [hσ2]; exact hlive
          have hfs2 : σ2.fs = t := hσ2 ▸ rfl
          have hf2 : σ2.ftable f = { σ.ftable f with ref := 1 } := by
            rw [hσ2]
            exact update_self ..
          show Wp (_ >>= _) _ _ _
          refine (fdalloc_spec h2 hlive2).bind fun r σ3 hr => ?_
          obtain ⟨rfl, rfl⟩ | ⟨fd, rfl, -, hσ3, h3⟩ := hr
          · show Wp (_ >>= _) _ _ _
            refine (fileclose_spec L h2).bind fun _ σ4 h4 => ?_
            exact openFail_spec L h4.1
          · have hf3 : σ3.ftable f = { σ.ftable f with ref := 1 } := by rw [hσ3]; exact hf2
            have hfs3 : σ3.fs = t := by rw [hσ3]; exact hfs2
            refine openFile_spec L h3 ?_ ?_ (by rw [hfs3]; exact hv) (by rw [hfs3]; exact hdir)
            · rw [hf3]
              exact if_neg (by simp [h.closed f hzero])
            · rw [hf3]
              exact one_ne_zero

/-! ## Current directories -/

namespace Inv

/-- A process lets go of its current directory; the reference is left to the call. -/
theorem dropCwd (h : σ.Inv M X Y) (hcwd : (σ.procs p).cwd = some ip) :
    Inv M (σ.setProc p fun e => { e with cwd := none }) (addRef X ip) Y := by
  refine h.setProc _ ?_ (by rw [fileRefs_setProc_same rfl]) fun hl => ⟨rfl, (h.idle p hl).2⟩
  rw [add_addRef, ← addRef_add, refs_setProc_none hcwd rfl]

/-- A process without a current directory gets one. -/
theorem setCwd (h : σ.Inv M (addRef X ip) Y) (hcwd : (σ.procs p).cwd = none) (g : Proc m → Proc m)
    (hg : (g (σ.procs p)).cwd = some ip) (hof : (g (σ.procs p)).ofile = (σ.procs p).ofile)
    (hlive : (g (σ.procs p)).life = .live) : Inv M (σ.setProc p g) X Y := by
  refine h.setProc _ ?_ (by rw [fileRefs_setProc_same hof]) fun hl => absurd hlive hl
  rw [refs_setProc_some hcwd hg, addRef_add, add_addRef]

end Inv

theorem sysChdir_spec (L : M.Lawful) (h : σ.Inv M X Y) (hlive : (σ.procs p).life = .live)
    (hcwd : (σ.procs p).cwd = some cwd) (arg : Option (List UInt8)) :
    Wp (sysChdir p cwd arg) M.Error (fun _ τ => τ.Inv M X Y) σ := by
  have hdrop := h.dropCwd hcwd
  obtain ⟨ρ, hρ⟩ : ∃ ρ, ρ = σ.setProc p fun e => { e with cwd := none } := ⟨_, rfl⟩
  rw [← hρ] at hdrop
  have hρfs : ρ.fs = σ.fs := hρ ▸ rfl
  have hrefs : (fun ip => σ.refs ip + X ip) = addRef (fun ip => ρ.refs ip + X ip) cwd := by
    rw [← addRef_add, hρ, refs_setProc_none hcwd rfl]
  have hfine := h.fine
  rw [hrefs] at hfine
  rw [sysChdir, wp_bind, wp_onFs]
  refine (L.chdirInode hfine arg).mono fun r t hr => ?_
  match r, hr with
  | none, hr =>
    obtain ⟨hfine', hk⟩ := hr
    rw [← hrefs] at hfine' hk
    exact h.setFs hfine' (hk.mono fun ip hip => by omega)
  | some ip, ⟨hfine', hk⟩ =>
    rw [← add_addRef] at hfine'
    have hmoved : Inv M { ρ with fs := t } (addRef X ip) Y :=
      hdrop.setFs hfine' (hρfs ▸ hk.mono fun ip hip => by omega)
    have hnone : (ρ.procs p).cwd = none := by
      rw [hρ]
      simp [Sys.setProc]
    have hself : (ρ.procs p).life = .live := by
      rw [hρ]
      simpa [Sys.setProc] using hlive
    show Wp (_ >>= _) _ _ _
    rw [wp_bind, wp_modifyProc]
    have := hmoved.setCwd hnone (fun e => { e with cwd := some ip }) rfl rfl hself
    rw [hρ] at this
    simpa [Sys.setProc, wp_pure] using this

/-! ## Processes -/

/-- A round of the loop of `fork`: the child gets the descriptor and a reference. -/
theorem forkFd_spec (h : σ.Inv M X Y) (hnone : (σ.procs np).ofile fd = none)
    (hlive : (σ.procs np).life = .live) :
    Wp (forkFd p np fd) E (fun _ τ => τ.Inv M X Y ∧ τ.fs = σ.fs ∧
      (∃ o, τ.procs = update σ.procs np
        { σ.procs np with ofile := update (σ.procs np).ofile fd o })) σ := by
  rw [forkFd, wp_bind, wp_get]
  cases hf : (σ.procs p).ofile fd with
  | none =>
    refine ⟨h, rfl, none, ?_⟩
    rw [← hnone, update_eq_self, update_eq_self]
  | some f =>
    show Wp (_ >>= _) _ _ _
    refine (filedup_spec h (Nat.lt_of_lt_of_le (fileRefs_pos hf) (Nat.le_add_right _ _))).bind
      fun r τ hr => ?_
    obtain ⟨rfl, rfl, hτ⟩ := hr
    rw [setFd, wp_modifyProc]
    exact ⟨hτ.fillFd hnone hlive, rfl, some r, rfl⟩

/-- The loop of `fork` over the descriptors in `l`, which the child does not have yet. -/
theorem forkFds_spec (l : List (Fin NOFILE)) (hnd : l.Nodup) (h : σ.Inv M X Y) (hne : np ≠ p)
    (hnone : ∀ fd ∈ l, (σ.procs np).ofile fd = none) (hlive : (σ.procs np).life = .live) :
    Wp (l.forM (forkFd p np)) E (fun _ τ => τ.Inv M X Y ∧ τ.fs = σ.fs ∧
      (τ.procs np).life = .live ∧ (τ.procs np).cwd = (σ.procs np).cwd ∧ τ.procs p = σ.procs p) σ := by
  induction l generalizing σ with
  | nil => exact ⟨h, rfl, hlive, rfl, rfl⟩
  | cons fd l ih =>
    show Wp (forkFd p np fd >>= fun _ => l.forM (forkFd p np)) _ _ _
    refine (forkFd_spec h (hnone fd (List.mem_cons_self ..)) hlive).bind fun _ ρ ⟨h1, hfs, o, hprocs⟩ => ?_
    have hself : ρ.procs np = { σ.procs np with
        ofile := update (σ.procs np).ofile fd o } := by
      rw [hprocs, update_self]
    have hother : ρ.procs p = σ.procs p := by rw [hprocs, update_of_ne hne.symm]
    refine (ih hnd.of_cons h1 (fun k hk => ?_) (by rw [hself]; exact hlive)).mono fun _ τ hτ => ?_
    · have hkfd : k ≠ fd := fun hc => (List.nodup_cons.mp hnd).1 (hc ▸ hk)
      rw [hself]
      exact (update_of_ne hkfd ..).trans (hnone k (List.mem_cons_of_mem fd hk))
    · rw [hself, hother, hfs] at hτ
      exact hτ

theorem fork_spec (L : M.Lawful) (h : σ.Inv M X Y) (hlive : (σ.procs p).life = .live)
    (hcwd : (σ.procs p).cwd = some cwd) (mem : Bool) :
    Wp (fork p cwd mem) E (fun _ τ => τ.Inv M X Y) σ := by
  rw [fork, wp_bind, wp_get]
  cases hfind : (List.finRange m).find? fun q => decide ((σ.procs q).life = .unused) with
  | none => exact h
  | some np =>
    have hunused := List.find?_some hfind
    rw [decide_eq_true_eq] at hunused
    have hne : np ≠ p := by
      rintro rfl
      rw [hlive] at hunused
      cases hunused
    obtain ⟨hcnone, hfnone⟩ := h.idle np (by rw [hunused]; nofun)
    cases mem with
    | false => exact h
    | true =>
      have h1 : Inv M (σ.setProc np fun e => { e with life := .live }) X Y := by
        refine h.setProc _ (by rw [refs_setProc_same rfl]) (by rw [fileRefs_setProc_same rfl]) ?_
        exact fun hl => absurd rfl hl
      have hself : (σ.setProc np fun e => { e with life := .live }).procs np =
          { σ.procs np with life := .live } := update_self ..
      have hother : (σ.setProc np fun e => { e with life := .live }).procs p = σ.procs p :=
        update_of_ne hne.symm ..
      show Wp (_ >>= _) _ _ _
      rw [wp_bind, wp_modifyProc]
      refine (forkFds_spec (p := p) _ (List.nodup_finRange NOFILE) h1 hne
        (fun fd _ => by rw [hself]; exact hfnone fd) (by rw [hself])).bind fun _ ρ ⟨h2, hfs, hρlive, hρcwd, hρp⟩ => ?_
      rw [hself] at hρcwd
      rw [hother] at hρp
      have hpos : 0 < ρ.refs cwd + X cwd := by
        refine Nat.lt_of_lt_of_le (refs_pos_of_cwd (p := p) ?_) (Nat.le_add_right _ _)
        rw [hρp, hcwd]
      rw [wp_bind, wp_onFs]
      simp only [idup, modifyInode, wp_bind, wp_modify, wp_pure, wp_modifyProc]
      have hdup := L.dup h2.fine hpos
      rw [← add_addRef] at hdup
      have h3 := h2.setFs hdup (.setInode _ (fun _ => rfl) fun _ hv => ⟨hv, rfl⟩)
      exact h3.setCwd (hρcwd.trans hcnone) _ rfl rfl hρlive

/-- `fileclose` neither looks at processes nor changes them. -/
theorem wp_fileclose_procs {Q : Unit → Sys m → Prop} (P : Fin m → Proc m) :
    Wp (fileclose f) E Q { σ with procs := P } ↔
      Wp (fileclose f) E (fun a τ => τ.procs = σ.procs ∧ Q a { τ with procs := P }) σ := by
  simp only [fileclose, wp_bind, wp_file]
  by_cases hlt : (σ.ftable f).ref < 1
  · simp only [if_pos hlt]
    exact Iff.rfl
  simp only [if_neg hlt]
  by_cases hmore : (σ.ftable f).ref - 1 > 0
  · simp only [if_pos hmore]
    exact ⟨fun hQ => ⟨rfl, hQ⟩, And.right⟩
  simp only [if_neg hmore, wp_bind, wp_modifyFile]
  by_cases hin : (σ.ftable f).type = .inode ∨ (σ.ftable f).type = .device
  · simp only [if_pos hin, wp_onFs, setFile, true_and]
  · simp only [if_neg hin]
    exact ⟨fun hQ => ⟨rfl, hQ⟩, And.right⟩

/-- A round of the loop of `exit`: the descriptor is closed and cleared. -/
theorem exitFd_spec (L : M.Lawful) (h : σ.Inv M X Y) :
    Wp (exitFd p fd) M.Error (fun _ τ => τ.Inv M X Y ∧ τ.procs = update σ.procs p
      { σ.procs p with ofile := update (σ.procs p).ofile fd none }) σ := by
  rw [exitFd, wp_bind, wp_get]
  cases hf : (σ.procs p).ofile fd with
  | none =>
    refine ⟨h, ?_⟩
    rw [← hf, update_eq_self, update_eq_self]
  | some f =>
    -- the descriptor could as well be cleared before the file is closed
    have hclose := fileclose_spec L (h.clearFd hf)
    rw [Sys.setProc, wp_fileclose_procs] at hclose
    show Wp (_ >>= _) _ _ _
    rw [wp_bind]
    refine hclose.mono ?_
    rintro _ ρ ⟨hprocs, hinv, _⟩
    rw [setFd, wp_modifyProc, Sys.setProc, hprocs]
    exact ⟨hinv, rfl⟩

/-- The loop of `exit` over the descriptors in `l`. -/
theorem exitFds_spec (L : M.Lawful) (l : List (Fin NOFILE)) (h : σ.Inv M X Y) :
    Wp (l.forM (exitFd p)) M.Error (fun _ τ => τ.Inv M X Y ∧ (τ.procs p).life = (σ.procs p).life ∧
      (τ.procs p).cwd = (σ.procs p).cwd ∧
      ∀ fd, fd ∈ l ∨ (σ.procs p).ofile fd = none → (τ.procs p).ofile fd = none) σ := by
  induction l generalizing σ with
  | nil => exact ⟨h, rfl, rfl, fun fd hfd => by simpa using hfd⟩
  | cons fd l ih =>
    show Wp (exitFd p fd >>= fun _ => l.forM (exitFd p)) _ _ _
    refine (exitFd_spec L h).bind fun _ ρ ⟨h1, hprocs⟩ => ?_
    have hself : ρ.procs p = { σ.procs p with
        ofile := update (σ.procs p).ofile fd none } := by
      rw [hprocs, update_self]
    refine (ih h1).mono fun _ τ ⟨h2, hlife, hcwd, hnone⟩ => ?_
    rw [hself] at hlife hcwd hnone
    refine ⟨h2, hlife, hcwd, fun k hk => hnone k ?_⟩
    rcases eq_or_ne k fd with rfl | hkfd
    · exact .inr (update_self ..)
    · rw [List.mem_cons] at hk
      refine hk.imp (fun hmem => hmem.resolve_left hkfd) fun hn => ?_
      exact (update_of_ne hkfd ..).trans hn

/-- The parents are not part of the counts. -/
theorem Inv.reparent (h : σ.Inv M X Y) (initproc p : Fin m) :
    Wp (reparent initproc p) E (fun _ τ => τ.Inv M X Y ∧
      (τ.procs p).life = (σ.procs p).life ∧ (τ.procs p).cwd = (σ.procs p).cwd ∧
      (τ.procs p).ofile = (σ.procs p).ofile) σ := by
  obtain ⟨P, hP⟩ : ∃ P : Fin m → Proc m, P = fun q => if (σ.procs q).parent = some p then
    { σ.procs q with parent := some initproc } else σ.procs q := ⟨_, rfl⟩
  have hlife : ∀ q, (P q).life = (σ.procs q).life := by
    intro q
    rw [hP]
    dsimp only
    split <;> rfl
  have hcwd : ∀ q, (P q).cwd = (σ.procs q).cwd := by
    intro q
    rw [hP]
    dsimp only
    split <;> rfl
  have hofile : ∀ q, (P q).ofile = (σ.procs q).ofile := by
    intro q
    rw [hP]
    dsimp only
    split <;> rfl
  have hrefs : ({ σ with procs := P } : Sys m).refs = σ.refs := by
    funext ip
    simp only [refs, hcwd]
  have hfiles : ({ σ with procs := P } : Sys m).fileRefs = σ.fileRefs := by
    funext f
    simp only [fileRefs, hofile]
  rw [Xv6.reparent, wp_modify, ← hP]
  refine ⟨⟨?_, fun f => ?_, h.closed, h.valid, h.writable, fun q hq => ?_, h.panicked⟩,
    hlife p, hcwd p, hofile p⟩
  · rw [hrefs]
    exact h.fine
  · rw [hfiles]
    exact h.file_ref f
  · rw [hlife] at hq
    rw [hcwd, hofile]
    exact h.idle q hq

theorem exit_spec (L : M.Lawful) (h : σ.Inv M X Y)
    (hcwd : (σ.procs p).cwd = some cwd) :
    Wp (exit initproc p cwd) M.Error (fun _ τ => τ.Inv M X Y) σ := by
  rw [exit]
  split
  · intro hp
    cases hp
  refine (exitFds_spec L _ h).bind fun _ ρ ⟨h1, hlife1, hcwd1, hnone1⟩ => ?_
  rw [hcwd] at hcwd1
  -- the process could as well let go of the directory before the inode is put
  have hdrop := h1.dropCwd hcwd1
  have hfine := hdrop.fine
  rw [add_addRef] at hfine
  rw [wp_bind, wp_onFs]
  refine (L.iputOp hfine).mono fun _ t ht => ?_
  have h2 := hdrop.setFs ht.1 (ht.2.mono fun ip hip => by omega)
  rw [wp_bind, wp_modifyProc]
  refine (Inv.reparent (E := M.Error) h2 initproc p).bind fun _ υ ⟨h3, _, hcwd3, hofile3⟩ => ?_
  rw [wp_bind, wp_modifyProc]
  refine h3.setProc _ (by rw [refs_setProc_same rfl]) (by rw [fileRefs_setProc_same rfl]) fun _ => ?_
  refine ⟨hcwd3.trans ?_, fun fd => (congrFun hofile3 fd).trans ?_⟩
  · simp [Sys.setProc]
  · simpa [Sys.setProc] using hnone1 fd (.inl (List.mem_finRange fd))

theorem wait_spec (h : σ.Inv M X Y) (ok : Bool) :
    Wp (wait p ok) E (fun _ τ => τ.Inv M X Y) σ := by
  rw [wait, wp_bind, wp_get]
  cases hfind : σ.zombieChild p with
  | none => exact h
  | some q =>
    have hz := List.find?_some hfind
    rw [decide_eq_true_eq] at hz
    have hidle := h.idle q (by rw [hz.2]; nofun)
    cases ok with
    | false => exact h
    | true =>
      exact h.setProc _ (by rw [refs_setProc_same rfl]) (by rw [fileRefs_setProc_same rfl])
        fun _ => hidle

/-! ## The step -/

/-- A call of the file system that ends with the references it found. -/
theorem onFs_spec (h : σ.Inv M X Y) {x : FsM ℤ}
    (hx : Wp x M.Error (fun _ t => M.Leaves (fun ip => σ.refs ip + X ip) σ.fs t) σ.fs) :
    Wp (onFs x) M.Error (fun _ τ => τ.Inv M X Y) σ := by
  rw [wp_onFs]
  exact hx.mono fun _ t ht => h.setFs ht.1 (ht.2.mono fun ip hip => by omega)

/-- **Every system call keeps the counts.** -/
theorem code_spec (initproc : Fin m) (L : M.Lawful) (h : σ.Inv M X Y) (hlive : (σ.procs p).life = .live)
    (hcwd : (σ.procs p).cwd = some cwd) (c : Call)
    (hallow : ∀ r, c.request = some r →
      M.Allowed σ.fs (fun ip => σ.refs ip + X ip) (σ.fs.itable cwd).inum r) :
    Wp (code initproc p cwd c) M.Error (fun _ τ => τ.Inv M X Y) σ := by
  have hpos : 0 < σ.refs cwd + X cwd := Nat.lt_of_lt_of_le (refs_pos_of_cwd hcwd) (Nat.le_add_right _ _)
  cases c with
  | sysOpen path omode => exact sysOpen_spec L h hlive hpos path omode hallow
  | close fd => exact sysClose_spec L h fd
  | dup fd => exact sysDup_spec h hlive fd
  | read fd dst n r => exact withFd_spec fd h fun k f _ => fileread_spec L h dst n r
  | write fd src n r => exact withFd_spec fd h fun k f _ => filewrite_spec L h src n r
  | fstat fd ok => exact withFd_spec fd h fun k f _ => filestat_spec L h ok
  | pipe mem out => exact sysPipe_spec L h hlive mem out
  | mkdir path =>
    exact onFs_spec h (L.sysMake h.fine hpos (by decide) (fun path' harg =>
      hallow _ (by rw [Call.request, harg]; rfl)) 0 0)
  | mknod path major minor =>
    exact onFs_spec h (L.sysMake h.fine hpos (by decide) (fun path' harg =>
      hallow _ (by rw [Call.request, harg]; rfl)) _ _)
  | link old new => exact onFs_spec h (L.link h.fine hpos hallow)
  | unlink path => exact onFs_spec h (L.unlink h.fine hpos hallow)
  | chdir path => exact sysChdir_spec L h hlive hcwd path
  | exec path args mem => exact onFs_spec h (L.sysExec h.fine hpos path args mem)
  | fork mem => exact fork_spec L h hlive hcwd mem
  | exit => exact exit_spec L h hcwd
  | wait ok killed => exact wait_spec h ok

/-- The process that makes the call `a`, in the directory with number `c`, asks for the change `r`. -/
def Asks (σ : Sys m) (a : Fin m × Call) (c : ℕ) (r : Request) : Prop :=
  a.2.request = some r ∧ ∃ cwd, (σ.procs a.1).cwd = some cwd ∧ (σ.fs.itable cwd).inum = c

/-- The regime allows the call. -/
def Permits (M : Regime) (σ : Sys m) (a : Fin m × Call) : Prop :=
  ∀ c r, σ.Asks a c r → M.Allowed σ.fs σ.refs c r

theorem Inv.step (L : M.Lawful) (h : σ.Inv M 0 0) {a : Fin m × Call}
    (hstep : step initproc σ a = some τ) (hallow : Permits M σ a) : τ.Inv M 0 0 := by
  obtain ⟨p, c⟩ := a
  unfold Sys.step at hstep
  dsimp only at hstep
  split at hstep
  · rename_i cwd hlive hcwd
    split at hstep
    · cases hstep
    cases hstep
    have hcode := code_spec initproc L h hlive hcwd c fun r hr => hallow _ r ⟨hr, cwd, hcwd, rfl⟩
    unfold exec
    cases hx : code initproc p cwd c σ with
    | ok r => exact hcode.ok hx
    | error e => exact { h with panicked := fun _ he => Option.some.inj he ▸ hcode.error hx }
  · cases hstep

/-- **Every run of allowed calls keeps the counts.** -/
theorem Inv.run (L : M.Lawful) (h : σ.Inv M 0 0) {as : List (Fin m × Call)}
    (hrun : runFrom (Sys.step initproc) σ as = some τ)
    (hallow : AllSteps (Sys.step initproc) (fun ρ a _ => Permits M ρ a) σ as) : τ.Inv M 0 0 :=
  runFrom_invariant_of_allSteps (I := fun ρ => ρ.Inv M 0 0) (fun _ _ _ hinv hs ha => hinv.step L hs ha) h hallow hrun

end Sys

end Xv6
