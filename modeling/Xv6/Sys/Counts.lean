import Xv6.Sys.Boot
import Xv6.Fs.Image

/-! # Reference counts are exact

The weakest regime: directories are well formed, any call is allowed and any panic may happen. It is
enough for the reference counts of files and inodes, in every run from the state after `userinit`. -/

namespace Xv6

namespace Fs

variable {s t : Fs} {H : Fin NINODE → ℕ} {E : Panic → Prop} {N : Nodes} {cwd dp ip : Fin NINODE}
  {i : ℕ} {path name : List UInt8}

/-- The state is coherent and directories are well formed. -/
def Loose (s : Fs) (H : Fin NINODE → ℕ) : Prop := ∃ N, s.Rep N H ∧ N.DirsOk s.sb.ninodes

/-- A call ends with the references it found. -/
def Loosely (s : Fs) (H : Fin NINODE → ℕ) (t : Fs) : Prop := t.Loose H ∧ Keeps H s t

theorem Loosely.trans {u : Fs} (hk : Keeps H s t) (h : t.Loosely H u) : s.Loosely H u :=
  ⟨h.1, hk.trans h.2⟩

namespace Loose

theorem congr (h : s.Loose H) (hsb : t.sb = s.sb) (hcache : t.cache = s.cache)
    (htable : t.itable = s.itable) : t.Loose H := by
  obtain ⟨N, hrep, hdirs⟩ := h
  exact ⟨N, hrep.congr hsb hcache htable, hsb ▸ hdirs⟩

theorem put (h : s.Loose (addRef H ip)) : Wp (iput ip) E (fun _ t => s.Loosely H t) s := by
  obtain ⟨N, hrep, hdirs⟩ := h
  have hip : 0 < addRef H ip ip := by
    rw [addRef_self]
    omega
  refine (iput_rep hrep hip).mono fun _ t ht => ?_
  rw [dropRef_addRef] at ht
  exact ⟨⟨_, ht.1, ht.2.sb ▸ hdirs.frees (putNodes_frees hrep hip)⟩, ht.2⟩

theorem unlockput (h : s.Loose (addRef H ip)) :
    Wp (iunlockput ip) E (fun _ t => s.Loosely H t) s := by
  obtain ⟨N, hrep, -⟩ := id h
  have hip : 0 < addRef H ip ip := by
    rw [addRef_self]
    omega
  rw [iunlockput]
  refine (iunlock_rep hrep hip).bind fun _ t ht => ?_
  subst ht
  exact h.put

theorem endOp (h : s.Loosely H t) {α : Type} (a : α) :
    Wp (do
      endOp
      return a : FsM α) E (fun _ u => s.Loosely H u) t := by
  simp only [Xv6.endOp, wp_bind, wp_modify, wp_pure]
  exact ⟨h.1.congr rfl rfl rfl, h.2.trans (.of_itable rfl rfl)⟩

theorem setLinks (h : s.Loose H) (ho : s.Opened H ip i) (f : Int16 → Int16) :
    Wp (iupdate ip) E (fun _ t => s.Loosely H t) (s.setInode ip fun e => { e with nlink := f e.nlink }) := by
  obtain ⟨N, hrep, hdirs⟩ := h
  refine (setLinks_rep hrep ho f).mono fun _ t ht => ⟨⟨_, ht.2, ht.1.sb ▸ hdirs.setLinks f⟩, ht.1⟩

end Loose

section Calls

variable (hE : ∀ e, E e)
include hE

theorem Loose.lock (h : s.Loose H) (hip : 0 < H ip) :
    Wp (ilock ip) E (fun _ t => s.Loosely H t ∧ (t.itable ip).valid = true) s := by
  obtain ⟨N, hrep, hdirs⟩ := h
  refine (ilock_rep hrep ⟨hip, rfl⟩ fun _ => hE _).mono fun _ t ht => ?_
  exact ⟨⟨⟨N, ht.1, ht.2.1.sb ▸ hdirs⟩, ht.2.1⟩, ht.2.2.valid⟩

/-- What `namex` ends in. -/
theorem Loose.namex (h : s.Loose H) (hcwd : 0 < H cwd) (path : List UInt8) (parent : Bool) :
    Wp (namex cwd path parent) E (s.Walked s.nodes H False parent none) s := by
  obtain ⟨N, hrep, hdirs⟩ := h
  obtain rfl := hrep.nodes_eq
  refine (namex_spec (K := False) (R := ∅) hrep ⟨hcwd, rfl⟩ hdirs (hE _) (fun _ => hE _) nofun nofun).mono
    fun r t hr => hr.of_later (.refl H s) (.refl _) nofun

/-! ## `sys_link` -/

theorem Loose.linkBad (h : s.Loose (addRef H ip)) (hip : 0 < addRef H ip ip) :
    Wp (linkBad ip) E (fun _ t => s.Loosely H t) s := by
  rw [Xv6.linkBad]
  refine (h.lock hE hip).bind fun _ s1 ⟨⟨h1, hk1⟩, hv⟩ => ?_
  simp only [modifyInode, wp_bind, wp_modify]
  refine (h1.setLinks ⟨⟨hip, rfl⟩, hv⟩ (· - 1)).mono fun _ s2 hs2 => ?_
  rw [wp_bind]
  refine hs2.1.unlockput.mono fun _ s3 hs3 => ?_
  exact Loose.endOp (.trans (hk1.trans hs2.2).of_addRef hs3) _

/-- `sys_link` once the link count of the file is raised. -/
theorem Loose.linkEnter (h : s.Loose (addRef H ip)) (hip : 0 < addRef H ip ip) (hcwd : 0 < H cwd)
    (new : List UInt8) :
    Wp (do
        match ← nameiparent cwd new with
        | none => Xv6.linkBad ip
        | some (dp, name) =>
          ilock dp
          if (← dirlink dp name (← inode ip).inum) < 0 then
            iunlockput dp
            Xv6.linkBad ip
          else
            iunlockput dp
            iput ip
            Xv6.endOp
            return 0) E (fun _ t => s.Loosely H t) s := by
  refine (h.namex hE (lt_of_lt_of_le hcwd (le_addRef H ip cwd)) new true).bind fun r s1 hr => ?_
  obtain ⟨N, hrep, hdirs⟩ := h
  obtain rfl := hrep.nodes_eq
  cases hr with
  | failed _ N' h1 hk1 hfrees _ =>
    exact (Loose.linkBad hE ⟨N', h1, hk1.sb ▸ hdirs.frees hfrees⟩ hip).mono fun _ t ht =>
      .trans hk1.of_addRef ht
  | reached _ N' dp d name h1 hk1 hfrees _ hdir _ =>
    obtain ⟨hopen, v, hv, ht⟩ := hdir rfl
    have hdirs1 : N'.DirsOk s1.sb.ninodes := hk1.sb ▸ hdirs.frees hfrees
    refine (ilock_rep h1 hopen.toHolds fun _ => hE _).bind fun _ s2 ⟨h2, hk2, hopen2⟩ => ?_
    have hpos : 0 < addRef (addRef H ip) dp ip := lt_of_lt_of_le hip (le_addRef _ _ _)
    have hk02 : Keeps (addRef H ip) s s2 := hk1.trans hk2.of_addRef
    have hdirs2 : N'.DirsOk s2.sb.ninodes := hk2.sb ▸ hdirs1
    rw [wp_bind, wp_inode]
    refine (dirlink_spec h2 hopen2 hv (hdirs2 d v hv ht) name _ (hE _)).bind fun r s3 hr => ?_
    cases hr with
    | refused _ h3 hk3 =>
      rw [if_pos (by decide)]
      refine (Loose.unlockput ⟨N', h3, hk3.sb ▸ hdirs2⟩).bind fun _ s4 hs4 => ?_
      have hk04 : Keeps (addRef H ip) s s4 := (hk02.trans hk3.of_addRef).trans hs4.2
      exact (Loose.linkBad hE hs4.1 hip).mono fun _ t ht => .trans hk04.of_addRef ht
    | entered _ _ h3 hk3 =>
      have hset := @Node.IsDir.setEntry v _ (freeEntry (entries v.bytes))
        ⟨(s2.itable ip).inum, strncpy name DIRSIZ⟩ (hdirs2 d v hv ht) h2.coherent.wf.ninodes_le
        (h2.inum_lt hpos) (length_strncpy _ _) List.findIdx_le_length
      rw [if_neg (by decide)]
      refine (Loose.unlockput ⟨_, h3, hk3.sb ▸ hdirs2.put fun _ => hset⟩).bind
        fun _ s4 hs4 => ?_
      have hk04 : Keeps (addRef H ip) s s4 := (hk02.trans hk3.of_addRef).trans hs4.2
      rw [wp_bind]
      refine hs4.1.put.mono fun _ s5 hs5 => ?_
      exact Loose.endOp (.trans hk04.of_addRef hs5) _

theorem Loose.sysLink (h : s.Loose H) (hcwd : 0 < H cwd) (oldArg newArg : Option (List UInt8)) :
    Wp (sysLink cwd oldArg newArg) E (fun _ t => s.Loosely H t) s := by
  have hk0 : Keeps H s { s with logged := [] } := .of_itable rfl rfl
  have h0 : Loose { s with logged := [] } H := h.congr rfl rfl rfl
  rw [Xv6.sysLink.eq_def]
  cases argstr oldArg with
  | none => exact ⟨h, .refl H s⟩
  | some old =>
    cases argstr newArg with
    | none => exact ⟨h, .refl H s⟩
    | some new =>
      simp only [beginOp, namei, wp_bind, wp_modify]
      refine (h0.namex hE hcwd old false).mono fun r s1 hr => ?_
      obtain ⟨N, hrep, hdirs⟩ := h0
      obtain rfl := hrep.nodes_eq
      cases hr with
      | failed _ N' h1 hk1 hfrees _ =>
        have hs1 : s.Loosely H s1 := ⟨⟨N', h1, hk1.sb ▸ hdirs.frees hfrees⟩, hk0.trans hk1⟩
        exact Loose.endOp (E := E) hs1 (-1)
      | reached _ N' ip i _ h1 hk1 hfrees holds _ _ =>
        show Wp (_ >>= _) _ _ _
        refine (Loose.lock hE ⟨N', h1, hk1.sb ▸ hdirs.frees hfrees⟩ holds.held).bind ?_
        rintro _ s2 ⟨⟨h2, hk2⟩, hv⟩
        have hk02 : Keeps H s s2 := (hk0.trans hk1).trans hk2.of_addRef
        rw [wp_bind, wp_inode]
        by_cases ht : (s2.itable ip).type = T_DIR
        · rw [if_pos ht, wp_bind]
          exact h2.unlockput.mono fun _ s3 hs3 => Loose.endOp (.trans hk02 hs3) _
        · rw [if_neg ht]
          simp only [modifyInode, wp_bind, wp_modify]
          refine (h2.setLinks ⟨⟨holds.held, rfl⟩, hv⟩ (· + 1)).mono fun _ s3 hs3 => ?_
          obtain ⟨N3, hrep3, -⟩ := id hs3.1
          refine (iunlock_rep hrep3 holds.held).bind fun _ s4 hs4 => ?_
          subst hs4
          exact (Loose.linkEnter hE hs3.1 holds.held hcwd new).mono fun _ t ht =>
            .trans (hk02.trans hs3.2.of_addRef) ht

/-! ## `sys_unlink` and `create` -/

theorem Loose.sysUnlink (h : s.Loose H) (hcwd : 0 < H cwd) (arg : Option (List UInt8)) :
    Wp (sysUnlink cwd arg) E (fun _ t => s.Loosely H t) s := by
  obtain ⟨N, hrep, hdirs⟩ := h
  refine (sysUnlink_spec (K := False) (R := ∅) hrep ⟨hcwd, rfl⟩ hdirs arg (hE _) (hE _) (fun _ => hE _)
    nofun nofun).mono fun r t hr => ?_
  obtain ⟨-, ⟨N', hrep', hfrees, -⟩, hk⟩ | ⟨path, N', d, name, -, hparent, hr⟩ := hr
  · exact ⟨⟨N', hrep', hk.sb ▸ hdirs.frees hfrees⟩, hk⟩
  · have hdirs' : N'.DirsOk s.sb.ninodes := hdirs.frees hparent.frees
    cases hr with
    | refused _ N'' hrep' hk hfrees _ => exact ⟨⟨N'', hrep', hk.sb ▸ hdirs'.frees hfrees⟩, hk⟩
    | removed _ k c v w hv hw _ hfind _ hkl _ _ hrep' hk =>
      refine ⟨⟨_, hrep', hk.sb ▸ ?_⟩, hk⟩
      exact Nodes.DirsOk.unlinked hdirs' hrep.coherent.wf.ninodes_le
        (lt_trans Nat.zero_lt_one hrep.coherent.wf.root_lt) hv hkl _

theorem Loose.create (h : s.Loose H) (hcwd : 0 < H cwd) (path : List UInt8) {type : Int16}
    (major minor : Int16) (htype : type ≠ 0) :
    Wp (create cwd path type major minor) E (fun r t => match r with
      | none => s.Loosely H t
      | some ip => t.Loose (addRef H ip) ∧ Keeps H s t ∧ (t.itable ip).valid = true ∧
          (type = T_FILE → (t.itable ip).type ≠ T_DIR)) s := by
  obtain ⟨N, hrep, hdirs⟩ := h
  refine (create_spec (K := False) (R := ∅) hrep ⟨hcwd, rfl⟩ hdirs path major minor htype (hE _)
    (fun _ => hE _) nofun nofun).mono fun r t hr => ?_
  obtain ⟨rfl, ⟨N', hrep', hfrees, -⟩, hk⟩ | ⟨N', d, name, hparent, hr⟩ := hr
  · exact ⟨⟨N', hrep', hk.sb ▸ hdirs.frees hfrees⟩, hk⟩
  · have hdirs' : N'.DirsOk s.sb.ninodes := hdirs.frees hparent.frees
    obtain ⟨v, hv, ht⟩ := hparent.isDir
    cases hr with
    | failed _ N'' hrep' hk hdirs'' _ => exact ⟨⟨N'', hrep', hk.sb ▸ hdirs''⟩, hk⟩
    | existing _ ip c w _ hw _ hwt hrep' hk hopen =>
      refine ⟨⟨_, hrep', hk.sb ▸ hdirs'.frees (Nodes.frees_reap _ _ _)⟩, hk, hopen.valid, fun _ hc => ?_⟩
      rw [hopen.node hrep' hw] at hwt
      rcases hwt with hwt | hwt <;> exact absurd (hwt.symm.trans hc) (by decide)
    | created _ ip c u hu hpos hlt hfree hfind hrep' hk hopen =>
      have hd := (hrep.of_apply (hparent.frees.apply hv)).1
      refine ⟨⟨_, hrep', hk.sb ▸ ?_⟩, hk, hopen.valid, fun hfile hc => ?_⟩
      · exact Nodes.DirsOk.created hdirs' hrep.coherent.wf.ninodes_le hd hpos hlt
      · have := hopen.node hrep' (Nodes.created_self hfree hu)
        have hmade : type = (t.itable ip).type := congrArg Node.type this
        rw [← hmade, hfile] at hc
        exact absurd hc (by decide)

end Calls

end Fs

/-! ## The regime -/

/-- Everything is allowed. -/
def Regime.counting : Regime where
  Fine := Fs.Loose
  Allowed := fun _ _ _ _ => True
  NoType := True

theorem Regime.counting_lawful : Regime.counting.Lawful where
  rep := fun h => h.imp fun _ h => h.1
  congr := Fs.Loose.congr
  allowed := fun _ _ _ _ => trivial
  dup := by
    rintro _ _ _ ⟨N, hrep, hdirs⟩ hip
    have := Fs.idup_rep (E := fun _ => True) hrep ⟨hip, rfl⟩
    simp only [idup, modifyInode, wp_bind, wp_modify, wp_pure, true_and] at this
    exact ⟨N, this.rep, hdirs⟩
  put := Fs.Loose.put
  trunc := by
    rintro _ _ _ ⟨N, hrep, hdirs⟩ hip hv ht
    have hopen : Fs.Opened _ _ _ _ := ⟨⟨hip, rfl⟩, hv⟩
    refine (Fs.itrunc_rep hrep hopen (hopen.entry hrep)).mono fun _ t h => ?_
    exact ⟨⟨_, h.2, h.1.sb ▸ hdirs.put fun hdir => absurd hdir ht⟩, h.1⟩
  write := by
    rintro _ _ _ _ ⟨N, hrep, hdirs⟩ hip hv ht src off hn
    have hopen : Fs.Opened _ _ _ _ := ⟨⟨hip, rfl⟩, hv⟩
    refine (Fs.writei_rep hrep hopen (hopen.entry hrep) src off hn).mono ?_
    rintro _ t ⟨b, hw⟩
    exact ⟨⟨_, hw.rep, hw.keeps.sb ▸ hdirs.put fun hdir => absurd hdir ht⟩, hw.keeps⟩
  namei := fun h hcwd path => by
    rw [namei]
    refine (Fs.Loose.namex (fun _ _ => trivial) h hcwd path false).bind fun r t hr => ?_
    obtain ⟨N, hrep, hdirs⟩ := h
    obtain rfl := hrep.nodes_eq
    cases hr with
    | failed _ N' h1 hk hfrees _ => exact ⟨⟨N', h1, hk.sb ▸ hdirs.frees hfrees⟩, hk⟩
    | reached _ N' jp j name h1 hk hfrees holds _ _ =>
      refine (Fs.Loose.lock (fun _ _ => trivial) ⟨N', h1, hk.sb ▸ hdirs.frees hfrees⟩
        holds.held).mono fun _ u hu => ?_
      exact ⟨hu.1.1, hk.trans hu.1.2.of_addRef, hu.2⟩
  create := fun h hcwd htype _ major minor => by
    refine (Fs.Loose.create (fun _ _ => trivial) h hcwd _ major minor htype).mono fun r t hr => ?_
    cases r with
    | none => exact hr
    | some ip => exact hr
  link := fun h hcwd _ => Fs.Loose.sysLink (fun _ _ => trivial) h hcwd _ _
  unlink := fun h hcwd _ => Fs.Loose.sysUnlink (fun _ _ => trivial) h hcwd _

/-! ## Runs -/

section Runs

variable {m : ℕ} {initproc : Fin m} {s : Fs} {σ τ : Sys m} {as : List (Fin m × Call)}

namespace Sys

/-- **Reference counts are exact across system calls.** The first part counts descriptors, the second
open files on inodes and devices and current directories. -/
theorem ref_counts_exact (hs : s.Loose fun _ => 0)
    (hinit : Xv6.userinit initproc (Sys.boot s) = .ok ((), σ))
    (hrun : runFrom (step initproc) σ as = some τ) :
    (∀ f, (τ.ftable f).ref = τ.fileRefs f) ∧ ∀ ip, (τ.fs.itable ip).ref = τ.refs ip := by
  obtain ⟨N, hrep, hdirs⟩ := hs
  have hstart : σ.Inv .counting 0 0 :=
    Inv.userinit hrep (fun ip t hg => ⟨N, hg.rep, hg.keeps.sb ▸ hdirs⟩) hinit
  have hinv : τ.Inv .counting 0 0 := runFrom_invariant (I := fun ρ => ρ.Inv .counting 0 0)
    (fun _ _ _ h hs => h.step Regime.counting_lawful hs fun _ _ _ => trivial) hstart hrun
  refine ⟨hinv.file_ref, fun ip => ?_⟩
  obtain ⟨N', hrep', -⟩ := hinv.fine
  exact hrep'.coherent.table.ref_eq ip

theorem root_loose : (Image.root.fs 0).Loose fun _ => 0 :=
  ⟨_, Image.root.rep_nodes, fun d v hv ht => (Image.root_tree.shape d v hv ht).isDir⟩

/-- A file is created and opened, its descriptor is duplicated and inherited, and the child closes
one of its two. -/
theorem ref_counts_exact_fork : ∃ σ τ : Sys 2,
    Xv6.userinit 0 (Sys.boot (Image.root.fs 0)) = .ok ((), σ) ∧
    runFrom (step 0) σ [(0, .sysOpen (some [120]) (O_CREATE ||| O_RDWR)), (0, .dup 0), (0, .fork true),
      (1, .close 0)] = some τ ∧ (τ.ftable 0).ref = 3 ∧
    (∀ f, (τ.ftable f).ref = τ.fileRefs f) ∧ ∀ ip, (τ.fs.itable ip).ref = τ.refs ip := by
  have hany : ((Sys.bootRun 0 (Image.root.fs 0) [(0, .sysOpen (some [120]) (O_CREATE ||| O_RDWR)),
      (0, .dup 0), (0, .fork true), (1, .close 0)]).any fun τ : Sys 2 =>
        decide ((τ.ftable 0).ref = 3)) = true := by
    decide +kernel
  obtain ⟨τ, hτ, href⟩ := (Option.any_eq_true _ _).mp hany
  obtain ⟨σ, hinit, hrun⟩ := bootRun_eq_some hτ
  exact ⟨σ, τ, hinit, hrun, of_decide_eq_true href, ref_counts_exact root_loose hinit hrun⟩

/-- **Open files are in order.** Their inodes are read in, no directory is open for writing, and a process
that is not live holds nothing. -/
theorem open_files_in_order (hs : s.Loose fun _ => 0)
    (hinit : Xv6.userinit initproc (Sys.boot s) = .ok ((), σ))
    (hrun : runFrom (step initproc) σ as = some τ) :
    (∀ f ip, (τ.ftable f).inode = some ip → (τ.fs.itable ip).valid = true) ∧
    (∀ f, (τ.ftable f).type = .inode → (τ.ftable f).writable = true →
      (τ.fs.itable (τ.ftable f).ip).type ≠ T_DIR) ∧
    ∀ p, (τ.procs p).life ≠ .live → (τ.procs p).cwd = none ∧ ∀ fd, (τ.procs p).ofile fd = none := by
  obtain ⟨N, hrep, hdirs⟩ := hs
  have hstart : σ.Inv .counting 0 0 := .userinit hrep (fun _ _ hg => ⟨N, hg.rep, hg.keeps.sb ▸ hdirs⟩) hinit
  have hinv := runFrom_invariant (I := fun ρ => ρ.Inv .counting 0 0)
    (fun _ _ _ h hs => h.step Regime.counting_lawful hs fun _ _ _ => trivial) hstart hrun
  exact ⟨hinv.valid, hinv.writable, hinv.idle⟩

/-- A child exits. -/
theorem open_files_in_order_exit : ∃ σ τ : Sys 2,
    Xv6.userinit 0 (Sys.boot (Image.root.fs 0)) = .ok ((), σ) ∧
    runFrom (step 0) σ [(0, .fork true), (1, .exit)] = some τ ∧ (τ.procs 1).cwd = none := by
  have hany : ((Sys.bootRun 0 (Image.root.fs 0) [(0, .fork true), (1, .exit)]).any fun τ : Sys 2 =>
      decide ((τ.procs 1).life ≠ .live)) = true := by
    decide +kernel
  obtain ⟨τ, hτ, hdead⟩ := (Option.any_eq_true _ _).mp hany
  obtain ⟨σ, hinit, hrun⟩ := bootRun_eq_some hτ
  have hidle := (open_files_in_order root_loose hinit hrun).2.2 1 (of_decide_eq_true hdead)
  exact ⟨σ, τ, hinit, hrun, hidle.1⟩

end Sys

end Runs

end Xv6
