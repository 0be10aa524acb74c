import Xv6.Sys.Files

/-! # Calls that look up a path

`sys_open`, `sys_mkdir`, `sys_mknod`, `sys_chdir` and `sys_exec` get an inode from `namei` or `create`,
look at it and give the reference back unless they return it. They keep every regime whose `namei`
and `create` do. -/

namespace Xv6

open Fs (Keeps)

namespace Regime

variable {M : Regime} {H : Fin NINODE → ℕ} {s t : Fs} {cwd ip : Fin NINODE} {path : List UInt8}
  {arg : Option (List UInt8)} {omode : ℕ}

namespace Lawful

/-- A state in which only a transaction was begun. -/
theorem logged (L : M.Lawful) (h : M.Fine s H) (l : List ℕ) : M.Fine { s with logged := l } H :=
  L.congr h rfl rfl rfl

theorem iunlockput (L : M.Lawful) (h : M.Fine s (addRef H ip)) :
    Wp (iunlockput ip) M.Error (fun _ t => M.Leaves H s t) s := by
  have hip : 0 < addRef H ip ip := by
    rw [addRef_self]
    omega
  rw [Xv6.iunlockput]
  refine (L.iunlock h hip).bind fun _ t ht => ?_
  subst ht
  exact L.put h

/-- The reference is given back and the transaction ends. -/
theorem iunlockput_endOp (L : M.Lawful) (h : M.Fine t (addRef H ip)) (hk : Keeps H s t) {α : Type}
    (a : α) {Q : α → Fs → Prop} (hQ : ∀ u, M.Leaves H s u → Q a u) :
    Wp (do
      Xv6.iunlockput ip
      Xv6.endOp
      return a : FsM α) M.Error Q t := by
  refine (L.iunlockput h).bind fun _ u hu => ?_
  exact L.endOp (.trans hk hu) a fun w hw _ => hQ w hw

/-! ## `sys_open` -/

theorem openInode (L : M.Lawful) (h : M.Fine s H) (hcwd : 0 < H cwd)
    (hallow : ∀ r, (Call.sysOpen arg omode).request = some r → M.Allowed s H (s.itable cwd).inum r)
    (harg : argstr arg = some path) :
    Wp (openInode cwd path omode) M.Error
      (M.Locks H (fun found => found = T_DIR → omode = O_RDONLY) s) { s with logged := [] } := by
  have h0 := L.logged h []
  have hk0 : Keeps H s { s with logged := [] } := .of_itable rfl rfl
  rw [Xv6.openInode]
  by_cases hcreate : omode &&& O_CREATE ≠ 0
  · rw [if_pos hcreate]
    have hall := hallow (.create path T_FILE) (by rw [Call.request, if_pos hcreate, harg]; rfl)
    refine (L.create h0 hcwd (by decide) (L.allowed hall rfl rfl rfl) 0 0).mono fun r t hr => ?_
    cases r with
    | none => exact .trans hk0 hr
    | some ip =>
      obtain ⟨hfine, hk, hv, htype⟩ := hr
      exact ⟨hfine, hk0.trans hk, hv, fun hdir => absurd hdir (htype rfl)⟩
  · rw [if_neg hcreate]
    refine (L.namei h0 hcwd path).bind fun r t hr => ?_
    cases r with
    | none => exact .trans hk0 hr
    | some ip =>
      show Wp (_ >>= _) _ _ _
      rw [wp_bind]
      refine Wp.mono hr fun _ u ⟨hfine1, hk1, hv⟩ => ?_
      have hk01 : Keeps H s u := hk0.trans hk1
      rw [wp_bind, Fs.wp_inode]
      by_cases hdir : (u.itable ip).type = T_DIR ∧ omode ≠ O_RDONLY
      · rw [if_pos hdir, wp_bind]
        exact (L.iunlockput hfine1).mono fun _ w hw => .trans hk01 hw
      · rw [if_neg hdir]
        refine ⟨hfine1, hk01, hv, fun ht => ?_⟩
        by_contra hne
        exact hdir ⟨ht, hne⟩

/-! ## `sys_mkdir` and `sys_mknod` -/

theorem sysMake (L : M.Lawful) (h : M.Fine s H) (hcwd : 0 < H cwd) {type : Int16} (htype : type ≠ 0)
    (hallow : ∀ path, argstr arg = some path →
      M.Allowed s H (s.itable cwd).inum (.create path type)) (major minor : Int16) :
    Wp (sysMake cwd arg type major minor) M.Error (fun _ t => M.Leaves H s t) s := by
  have h0 := L.logged h []
  have hk0 : Keeps H s { s with logged := [] } := .of_itable rfl rfl
  simp only [Xv6.sysMake, beginOp, wp_bind, wp_modify]
  cases harg : argstr arg with
  | none => exact L.endOp ⟨h0, hk0⟩ _ fun u hu _ => hu
  | some path =>
    show Wp (_ >>= _) _ _ _
    refine (L.create h0 hcwd htype (L.allowed (hallow path harg) rfl rfl rfl) major minor).bind
      fun r t hr => ?_
    cases r with
    | none => exact L.endOp (.trans hk0 hr) _ fun u hu _ => hu
    | some ip => exact L.iunlockput_endOp hr.1 (hk0.trans hr.2.1) _ fun u hu => hu

/-! ## `sys_chdir` -/

theorem chdirInode (L : M.Lawful) (h : M.Fine s (addRef H cwd)) (arg : Option (List UInt8)) :
    Wp (chdirInode cwd arg) M.Error (M.Moves H cwd s) s := by
  have h0 := L.logged h []
  have hk0 : Keeps (addRef H cwd) s { s with logged := [] } := .of_itable rfl rfl
  simp only [Xv6.chdirInode, beginOp, wp_bind, wp_modify]
  cases argstr arg with
  | none => exact L.endOp ⟨h0, hk0⟩ _ fun u hu _ => hu
  | some path =>
    show Wp (_ >>= _) _ _ _
    refine (L.namei h0 (by rw [addRef_self]; omega) path).bind fun r t hr => ?_
    cases r with
    | none => exact L.endOp (.trans hk0 hr) _ fun u hu _ => hu
    | some ip =>
      have hip : 0 < addRef (addRef H cwd) ip ip := by
        rw [addRef_self]
        omega
      show Wp (_ >>= _) _ _ _
      rw [wp_bind]
      refine Wp.mono hr ?_
      rintro _ u ⟨hfine1, hk1, _⟩
      have hk01 : Keeps (addRef H cwd) s u := hk0.trans hk1
      rw [wp_bind, Fs.wp_inode]
      by_cases hdir : (u.itable ip).type ≠ T_DIR
      · rw [if_pos hdir]
        exact L.iunlockput_endOp hfine1 hk01 _ fun w hw => hw
      · rw [if_neg hdir]
        refine (L.iunlock hfine1 hip).bind fun _ w hw => ?_
        subst hw
        -- the new reference stays, the one to the old directory goes
        rw [addRef_comm] at hfine1
        refine (L.put hfine1).bind fun _ w hw => ?_
        have hk02 : Keeps H s w := hk01.of_addRef.trans hw.2.of_addRef
        refine L.endOp ⟨hw.1, .refl _ _⟩ _ fun x hx _ => ?_
        exact ⟨hx.1, hk02.trans hx.2.of_addRef⟩

/-! ## `sys_exec` -/

theorem loadseg (L : M.Lawful) (h : M.Fine s H) (hip : 0 < H ip) (hv : (s.itable ip).valid = true)
    (offset sz rounds i : ℕ) :
    Wp (loadseg ip offset sz rounds i) M.Error (fun _ t => t = s) s := by
  induction rounds generalizing i with
  | zero => rfl
  | succ rounds ih =>
    rw [Xv6.loadseg, wp_ite]
    refine ⟨fun hi => ?_, fun _ => rfl⟩
    refine (L.readi h hip hv _ _ ?_).bind fun r t ht => ?_
    · split <;> simp only [PGSIZE] at * <;> omega
    subst ht
    rw [wp_ite]
    exact ⟨fun _ => rfl, fun _ => ih _⟩

theorem execLoad (L : M.Lawful) (h : M.Fine s H) (hip : 0 < H ip) (hv : (s.itable ip).valid = true)
    (mem : ExecMem) (left i off : ℕ) :
    Wp (execLoad ip mem left i off) M.Error (fun _ t => t = s) s := by
  induction left generalizing i off with
  | zero => rfl
  | succ left ih =>
    rw [Xv6.execLoad]
    refine (L.readi h hip hv _ _ (by decide)).bind fun r t ht => ?_
    subst ht
    -- every check either ends the loop or lets it go on
    simp only [wp_ite, wp_bind]
    refine ⟨fun _ => rfl, fun _ => ⟨fun _ => ih _ _, fun _ => ⟨fun _ => rfl, fun _ =>
      ⟨fun _ => rfl, fun _ => ⟨fun _ => rfl, fun _ => ⟨fun _ => rfl, fun _ => ?_⟩⟩⟩⟩⟩⟩
    refine (L.loadseg h hip hv _ _ _ _).mono fun r u hu => ?_
    subst hu
    cases r with
    | true => exact ih _ _
    | false => rfl

/-- Loading a program changes nothing in the file system. -/
theorem execRead (L : M.Lawful) (h : M.Fine s H) (hip : 0 < H ip) (hv : (s.itable ip).valid = true)
    (mem : ExecMem) : Wp (execRead ip mem) M.Error (fun _ t => t = s) s := by
  rw [Xv6.execRead]
  refine (L.readi h hip hv _ _ (by decide)).bind fun r t ht => ?_
  subst ht
  simp only [wp_ite]
  exact ⟨fun _ => rfl, fun _ => ⟨fun _ => rfl, fun _ => ⟨fun _ => rfl, fun _ =>
    L.execLoad h hip hv mem _ _ _⟩⟩⟩

theorem execFile (L : M.Lawful) (h : M.Fine s H) (hcwd : 0 < H cwd) (path : List UInt8)
    (mem : ExecMem) : Wp (execFile cwd path mem) M.Error (fun _ t => M.Leaves H s t) s := by
  have hk0 : Keeps H s { s with logged := [] } := .of_itable rfl rfl
  simp only [Xv6.execFile, beginOp, wp_bind, wp_modify]
  refine (L.namei (L.logged h []) hcwd path).mono fun r t hr => ?_
  cases r with
  | none => exact L.endOp (.trans hk0 hr) _ fun u hu _ => hu
  | some ip =>
    have hip : 0 < addRef H ip ip := by
      rw [addRef_self]
      omega
    show Wp (_ >>= _) _ _ _
    rw [wp_bind]
    refine Wp.mono hr ?_
    rintro _ u ⟨hfine1, hk1, hv⟩
    refine (L.execRead hfine1 hip hv mem).bind fun loaded w hw => ?_
    subst hw
    exact L.iunlockput_endOp hfine1 (hk0.trans hk1) _ fun x hx => hx

theorem sysExec (L : M.Lawful) (h : M.Fine s H) (hcwd : 0 < H cwd) (arg : Option (List UInt8))
    (args : Bool) (mem : ExecMem) :
    Wp (sysExec cwd arg args mem) M.Error (fun _ t => M.Leaves H s t) s := by
  rw [Xv6.sysExec]
  cases argstr arg with
  | none => exact ⟨h, .refl _ _⟩
  | some path =>
    show Wp (if args = true then Xv6.execFile cwd path mem else pure (-1)) _ _ _
    rw [wp_ite]
    exact ⟨fun _ => L.execFile h hcwd path mem, fun _ => ⟨h, .refl _ _⟩⟩

end Lawful

end Regime

end Xv6
