import Xv6.Sys.Step

/-! # The first process

Runs start where `userinit` leaves the kernel: one process, in the root directory. The root inode is in
the table but has not been read. -/

namespace Xv6

variable {m : ℕ} {initproc : Fin m} {s : Fs} {σ τ : Sys m} {as : List (Fin m × Call)}

/-- The kernel before the first process is made: nothing is in use but the disk. -/
def Sys.boot (s : Fs) : Sys m where
  fs := s
  ftable := fun _ => ⟨.none, 0, false, false, 0, 0, 0⟩
  procs := fun _ => ⟨.unused, none, none, fun _ => none⟩
  panicked := none

/-- `userinit`: the first process is in the root directory. -/
def userinit (initproc : Fin m) : SysM m Unit := do
  let ip ← onFs (namei 0 [slash])
  modifyProc initproc fun e => { e with life := .live, cwd := ip }

/-- The state after `userinit` and the calls `as`. -/
def Sys.bootRun (initproc : Fin m) (s : Fs) (as : List (Fin m × Call)) : Option (Sys m) :=
  match userinit initproc (Sys.boot s) with
  | .ok (_, σ) => runFrom (Sys.step initproc) σ as
  | .error _ => none

theorem Sys.bootRun_eq_some (h : Sys.bootRun initproc s as = some τ) :
    ∃ σ, userinit initproc (Sys.boot s) = .ok ((), σ) ∧
      runFrom (Sys.step initproc) σ as = some τ := by
  unfold Sys.bootRun at h
  cases hinit : userinit initproc (Sys.boot s) with
  | error e =>
    rw [hinit] at h
    cases h
  | ok r =>
    rw [hinit] at h
    exact ⟨r.2, rfl, h⟩

theorem namei_root {N : Nodes} {H : Fin NINODE → ℕ} {E : Panic → Prop} (h : s.Rep N H)
    (hE : E .igetNoInodes) (cwd : Fin NINODE) :
    Wp (namei cwd [slash]) E (fun r t => ∃ ip, r = some ip ∧ s.Gains N H ip ROOTINO t) s := by
  have habs : ([slash] : List UInt8).head? = some slash := rfl
  rw [namei, wp_bind, namex, if_pos habs]
  refine (Fs.iget_rep h h.coherent.wf.root_lt hE).bind fun ip t hg => ?_
  exact ⟨ip, rfl, hg⟩

namespace Sys

/-- Nothing is counted before the first process is made. -/
theorem Inv.boot {M : Regime} {X : Fin NINODE → ℕ} (h : M.Fine s X) :
    (Sys.boot s : Sys m).Inv M X 0 where
  fine := by
    have hfiles : ∀ ip, tally (fun f => ((Sys.boot s : Sys m).ftable f).inode) ip = 0 :=
      fun ip => tally_eq_zero (by simp [Sys.boot, File.inode])
    have hcwds : ∀ ip, tally (fun p => ((Sys.boot s : Sys m).procs p).cwd) ip = 0 :=
      fun ip => tally_eq_zero (by simp [Sys.boot])
    simp only [refs, hfiles, hcwds, Nat.zero_add]
    exact h
  file_ref := fun f => by
    have hfds : (Sys.boot s : Sys m).fileRefs f = 0 := tally_eq_zero (by simp [Sys.boot])
    rw [hfds]
    rfl
  closed := fun _ _ => rfl
  valid := by simp [Sys.boot, File.inode]
  writable := by simp [Sys.boot]
  idle := fun _ _ => ⟨rfl, fun _ => rfl⟩
  panicked := by simp [Sys.boot]

/-- The state after `userinit`. -/
theorem Inv.userinit {M : Regime} {N : Nodes} (hs : s.Rep N 0)
    (hroot : ∀ ip t, s.Gains N 0 ip ROOTINO t → M.Fine t (addRef 0 ip))
    (hinit : userinit initproc (Sys.boot s) = .ok ((), σ)) : σ.Inv M 0 0 := by
  have hwp : Wp (Xv6.userinit initproc) (fun _ => True) (fun _ σ => σ.Inv M 0 0) (Sys.boot s) := by
    rw [Xv6.userinit, wp_bind, wp_onFs]
    refine (namei_root hs trivial 0).mono fun r t hr => ?_
    obtain ⟨ip, rfl, hg⟩ := hr
    rw [wp_modifyProc]
    exact (Inv.boot (hroot ip t hg)).setCwd rfl _ rfl rfl rfl
  exact hwp.ok hinit

/-- `userinit` changes no file, and leaves the first process in the root directory. -/
theorem userinit_start {N : Nodes} (hs : s.Rep N 0)
    (hinit : userinit initproc (Sys.boot s) = .ok ((), σ)) :
    σ.fs.nodes = N ∧ σ.fs.sb = s.sb ∧
      ∀ ip, (σ.procs initproc).cwd = some ip → (σ.fs.itable ip).inum = ROOTINO := by
  have hwp : Wp (Xv6.userinit initproc) (fun _ => True) (fun _ σ => σ.fs.nodes = N ∧ σ.fs.sb = s.sb ∧
      ∀ ip, (σ.procs initproc).cwd = some ip → (σ.fs.itable ip).inum = ROOTINO) (Sys.boot s) := by
    rw [Xv6.userinit, wp_bind, wp_onFs]
    refine (namei_root hs trivial 0).mono fun r t hr => ?_
    obtain ⟨ip, rfl, hg⟩ := hr
    rw [wp_modifyProc]
    refine ⟨hg.rep.nodes_eq, hg.keeps.sb, fun jp hjp => ?_⟩
    have hcwd : some ip = some jp := by simpa [Sys.setProc] using hjp
    cases hcwd
    exact hg.inum
  exact hwp.ok hinit

end Sys

end Xv6
