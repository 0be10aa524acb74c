import Xv6.Exec.Image
import Xv6.Exec.Stack
import Xv6.Fs.Calls

/-! # Building the new image

From the path to an address space with an empty stack. On every way out the inode is unlocked and its reference
is dropped, and what was allocated is in the new address space or is free again. -/

namespace Xv6

open Function

open Phys

namespace Exec

open Vm Fs

variable {s t u : State} {N : Nodes} {H : Fin NINODE → ℕ} {c : ℕ} {ip : Fin NINODE} {path : List UInt8}
  {trampoline root sz : UInt64}

/-! ### The file -/

/-- The file system is as it was: the same nodes and references, and no lock or transaction more. -/
structure Released (N : Nodes) (H : Fin NINODE → ℕ) (s t : State) : Prop where
  rep : t.fs.Rep N H
  keeps : Keeps H s.fs t.fs
  locked : t.locked = s.locked
  ops : t.ops = s.ops

theorem Released.mem (h : Released N H s t) (hu : u = { t with mem := u.mem }) : Released N H s u := by
  rw [hu]
  exact ⟨h.rep, h.keeps, h.locked, h.ops⟩

/-- The file is found: its inode is locked, with a reference, in a transaction. -/
structure Opens (N : Nodes) (H : Fin NINODE → ℕ) (c : ℕ) (path file : List UInt8) (s t : State) (ip : Fin NINODE) :
    Prop where
  rep : t.fs.Rep N (addRef H ip)
  keeps : Keeps H s.fs t.fs
  locked : t.locked = ip :: s.locked
  ops : t.ops = s.ops + 1
  opened : ∃ i name v, t.fs.Opened (addRef H ip) ip i ∧ N.resolve c path false = some (i, name) ∧ N i = some v ∧
    v.bytes = file

/-- What happens in memory does not matter for the file. -/
theorem Opens.mem {file : List UInt8} (h : Opens N H c path file s t ip) (ht : u = { t with mem := u.mem }) :
    Opens N H c path file s u ip := by
  rw [ht]
  exact ⟨h.rep, h.keeps, h.locked, h.ops, h.opened⟩

theorem Opens.isFile {file : List UInt8} (h : Opens N H c path file s t ip) : IsFile t.fs ip file := by
  obtain ⟨i, -, v, ho, -, hv, hfile⟩ := h.opened
  exact ⟨N, _, i, v, h.rep, ho, hv, hfile⟩

/-- The panics of path lookup: the inode table is full, or an entry names a free inode. -/
def LookupPanic (p : Xv6.Panic) : Prop := p = .igetNoInodes ∨ p = .ilockNoType

/-- `exec` may start: it can look up paths. -/
abbrev CanLookup (s : State) (N : Nodes) (H : Fin NINODE → ℕ) (c : ℕ) : Prop :=
  s.fs.Ready N H Set.univ LookupPanic s.proc.cwd c

theorem canLookup_of_rep (h : s.fs.Rep N H) (hcwd : s.fs.Holds H s.proc.cwd c) (hdirs : N.DirsOk s.fs.sb.ninodes)
    (hlinks : ∀ i v, N i = some v → v.nlink ≠ 0) (hused : ∀ i, s.fs.InUse H i → ∃ v, N i = some v) :
    CanLookup s N H c where
  rep := h
  holds := hcwd
  dirs := hdirs
  safe := ⟨fun _ _ _ _ _ => Set.mem_univ _, fun i _ v hv h0 => absurd h0 (hlinks i v hv)⟩
  start := fun _ => Set.mem_univ _
  alloc := fun _ _ _ => .inr rfl
  used := hused
  noInodes := .inl rfl

/-- How the search for the file ends. -/
inductive OpenEnd (N : Nodes) (H : Fin NINODE → ℕ) (c : ℕ) (path : List UInt8) (s : State) :
    Option (Fin NINODE) → State → Prop
  | missing (t : State) (released : Released N H s t) (proc : t.proc = s.proc) (mem : t.mem = s.mem) :
      OpenEnd N H c path s none t
  | found (t : State) (ip : Fin NINODE) (file : List UInt8) (opens : Opens N H c path file s t ip)
      (proc : t.proc = s.proc) (mem : t.mem = s.mem) : OpenEnd N H c path s (some ip) t

theorem openProgram_spec (h : CanLookup s N H c) (path : List UInt8) :
    Wp (openProgram path) (fun e => ∃ p, e = .fs p ∧ LookupPanic p) (OpenEnd N H c path s) s := by
  rw [openProgram, wp_bind, beginOp]
  simp only [wp_bind, wp_onFs, Xv6.beginOp, wp_modify, wp_get]
  have hstart : Keeps H s.fs { s.fs with logged := [] } := .of_itable rfl rfl
  refine (((h.logged []).namei path).mono_error fun p hp => ⟨p, rfl, hp⟩).mono ?_
  rintro _ f ⟨r, rfl, hr⟩
  cases hr with
  | failed _ hrep hkeeps =>
    simp only [Option.map_none, endOp, wp_bind, wp_onFs, Xv6.endOp, wp_modify, wp_pure]
    refine .missing _ ⟨hrep.congr rfl rfl rfl, ?_, rfl, rfl⟩ rfl rfl
    exact hstart.trans (hkeeps.trans (.of_itable rfl rfl))
  | reached _ jp j name hrep hkeeps holds hj hres hdir =>
    simp only [Option.map_some, ilock, wp_bind, wp_onFs, wp_modify, wp_pure]
    refine (ilock_rep hrep holds fun _ => ⟨_, rfl, .inr rfl⟩).mono ?_
    rintro _ g ⟨hrep', hkeeps', ho⟩
    refine .found _ jp _ ⟨hrep', ?_, rfl, rfl, j, name, _, ho, hres, ho.entry hrep', rfl⟩ rfl rfl
    exact hstart.trans (hkeeps.trans hkeeps'.of_addRef)

/-- The inode is unlocked and released. -/
theorem close_spec {file : List UInt8} (h : CanLookup s N H c) (ho : Opens N H c path file s t ip) :
    Wp (do iunlockput ip; endOp) (fun _ => False)
      (fun _ u => Released N H s u ∧ u.mem = t.mem ∧ u.proc = t.proc) t := by
  have hpos : 0 < addRef H ip ip := by
    rw [addRef_self]
    exact Nat.succ_pos _
  rw [wp_bind, iunlockput, wp_bind, wp_onFs]
  refine (iunlockput_rep ho.rep hpos).mono ?_
  rintro _ f ⟨hrep, hkeeps⟩
  have hlt : H ip < addRef H ip ip := by
    rw [addRef_self]
    exact Nat.lt_succ_self _
  rw [dropRef_addRef] at hrep hkeeps
  rw [(h.safe.keep ho.keeps).putNodes_eq ho.rep (le_addRef _ _) hlt (Set.mem_univ _)] at hrep
  simp only [endOp, wp_bind, wp_onFs, Xv6.endOp, wp_modify]
  refine ⟨⟨hrep.congr rfl rfl rfl, ho.keeps.trans (hkeeps.trans (.of_itable rfl rfl)), ?_, ?_⟩, trivial, trivial⟩
  · show t.locked.erase ip = s.locked
    rw [ho.locked, List.erase_cons_head]
  · show t.ops - 1 = s.ops
    rw [ho.ops, Nat.add_sub_cancel]

/-! ### The stack -/

theorem fixed_not_user {trapframe b e : UInt64} (h : fixed trampoline trapframe b = some e) : e &&& PTE_U = 0 := by
  have hflags : ∀ (pa perm : UInt64), (perm ||| PTE_V).toNat < 2 ^ 10 → (perm ||| PTE_V) &&& PTE_U = 0 →
      (PA2PTE pa ||| perm ||| PTE_V) &&& PTE_U = 0 := by
    intro pa perm hlt hzero
    rw [and_PTE_U, UInt64.or_assoc, flags_PA2PTE_or pa hlt, hzero]
  rw [fixed] at h
  by_cases hb : b = TRAPFRAME
  · rw [hb, update_self, Option.some.injEq] at h
    rw [← h]
    exact hflags _ _ (by decide) (by decide)
  · rw [update_of_ne hb] at h
    by_cases hb' : b = TRAMPOLINE
    · rw [hb', update_self, Option.some.injEq] at h
      rw [← h]
      exact hflags _ _ (by decide) (by decide)
    · rw [update_of_ne hb'] at h
      cases h

theorem pageAddr_add_two (n : ℕ) : pageAddr n + 4096 * UInt64.ofNat (USERSTACK + 1) = pageAddr (n + 2) := by
  apply UInt64.toNat_inj.mp
  rw [pageAddr, pageAddr, UInt64.toNat_add, UInt64.toNat_ofNat', UInt64.toNat_ofNat',
    show (4096 * UInt64.ofNat (USERSTACK + 1)).toNat = 8192 from rfl]
  omega

/-- Two pages more than the program has, or nothing. -/
theorem grow_spec {m : Phys} {X : UInt64 → Option UInt64} {n : ℕ} (h : Space m root n X) (hX : Above X) :
    Wp (uvmalloc root (pageAddr n) (pageAddr (n + 2)) PTE_W) (fun _ => False)
      (fun r t => (r = 0 ∧ Resized m t root n n X) ∨
        r = pageAddr (n + 2) ∧ r ≠ 0 ∧ Resized m t root n (n + 2) X ∧
          Zeroed t root n (n + 2) (PTE_R ||| PTE_U ||| PTE_W)) m := by
  have hlt := h.lt
  have hbase : (pageAddr n).toNat = n * 4096 := toNat_pageAddr (by omega)
  have hn : numPages (pageAddr n) = n := numPages_pageAddr hlt
  have hn2 : numPages (pageAddr (n + 2)) = n + 2 := by
    rw [numPages, toNat_pageAddr (by omega)]
    omega
  have htop : (pageAddr (n + 2)).toNat = (n + 2) * 4096 := toNat_pageAddr (by omega)
  rw [← hn] at h
  refine (uvmalloc_spec h hX (by decide) (by decide)).mono ?_
  rw [hn, hn2]
  rintro r t (⟨hlt', -, -⟩ | ⟨-, ⟨rfl, hres, hz⟩ | ⟨rfl, hres⟩⟩)
  · rw [UInt64.lt_iff_toNat_lt, htop, hbase] at hlt'
    exact absurd (Nat.mul_le_mul_right 4096 (Nat.le_add_right n 2)) (Nat.not_le.mpr hlt')
  · refine .inr ⟨rfl, fun hzero => ?_, hres, hz⟩
    rw [hzero, UInt64.toNat_zero] at htop
    omega
  · exact .inl ⟨rfl, hres⟩

/-- The page below the stack is made inaccessible. -/
theorem guard_spec {m : Phys} {X : UInt64 → Option UInt64} {n : ℕ} (h : Space m root (n + 2) X)
    (hz : Zeroed m root n (n + 2) (PTE_R ||| PTE_U ||| PTE_W)) (hX : ∀ b e, X b = some e → e &&& PTE_U = 0)
    (hkend : m.kend ≠ 0) :
    Wp (uvmclear root (pageAddr n)) (fun _ => False) (fun _ t =>
      Moves m t (owned m root (n + 2)) (owned t root (n + 2)) ∧ Stack t root (n + 1) X) m := by
  have hlt := h.lt
  have hpage : (pageAddr n).toNat = n * 4096 := toNat_pageAddr (by omega)
  have hbelow : below (n + 2) (pageAddr n) := by
    rw [below, hpage]
    omega
  refine (uvmclear_spec h (aligned_pageAddr n) hbelow).mono fun _ t hc => ⟨hc.moves, ?_⟩
  refine ⟨hc.space, hX, hc.moves.kend.trans_ne hkend, by omega, fun x hx hx' => ?_⟩
  have htoNat := toNat_page (x := x) (by omega)
  have hne : PGROUNDDOWN (UInt64.ofNat x) ≠ pageAddr n := by
    intro heq
    rw [heq, hpage] at htoNat
    omega
  have hge : ¬ below n (PGROUNDDOWN (UInt64.ofNat x)) :=
    not_below_page (by omega) ((Nat.mul_le_mul_right 4096 (Nat.le_succ n)).trans hx)
  obtain ⟨e, he, hflags, -⟩ := hz _ (aligned_PGROUNDDOWN _) hge
    (below_page hlt (by rwa [Nat.succ_mul (n + 1)]))
  refine ⟨e, ⟨?_, ?_, ?_⟩, ?_⟩
  · rw [MAXVA_eq]
    omega
  · rw [hc.other _ (aligned_PGROUNDDOWN _) hne, he]
  · rw [and_PTE_U, hflags]
    decide
  · rw [show e &&& PTE_W = PTE_FLAGS e &&& PTE_W by rw [PTE_FLAGS, UInt64.and_assoc]; rfl, hflags]
    decide

/-! ### The image -/

/-- What was made out of free pages is given back. -/
theorem discard_spec {trapframe : UInt64} (h : Space t.mem root (numPages sz) (fixed trampoline trapframe))
    (hm : Moves s.mem t.mem ∅ (owned t.mem root (numPages sz))) :
    Wp (onMem (procFreepagetable root sz)) (fun _ => False)
      (fun _ u => u = { t with mem := u.mem } ∧ Moves s.mem u.mem ∅ ∅) t :=
  (wp_onMem _).mpr ((procFreepagetable_spec _ _ h).mono fun _ _ hu => ⟨rfl, hm.trans hu⟩)

theorem bad_some (root sz : UInt64) (ip : Option (Fin NINODE)) :
    bad (some root) sz ip = onMem (procFreepagetable root sz) >>= fun _ => bad none sz ip := rfl

/-- How the building ends: with nothing, or with an address space with a stack. -/
inductive BuildEnd (N : Nodes) (H : Fin NINODE → ℕ) (c : ℕ) (trampoline : UInt64) (path : List UInt8) (s : State) :
    Option Program → State → Prop
  | nothing (t : State) (released : Released N H s t) (proc : t.proc = s.proc) (moves : Moves s.mem t.mem ∅ ∅) :
      BuildEnd N H c trampoline path s none t
  | image (t : State) (p : Program) (M : ℕ) (released : Released N H s t) (proc : t.proc = s.proc)
      (moves : Moves s.mem t.mem ∅ (owned t.mem p.pagetable (M + 1))) (size : p.sz.toNat = M * 4096 + 4096)
      (stack : Stack t.mem p.pagetable M (fixed trampoline s.proc.trapframe))
      (program : ∃ i name v, N.resolve c path false = some (i, name) ∧ N i = some v ∧
        p.entry = (elfhdr v.bytes).entry) : BuildEnd N H c trampoline path s (some p) t

/-- Nothing is left when the program cannot be loaded. -/
theorem bad_spec {file : List UInt8} {X : UInt64 → Option UInt64} {pagetable : Option UInt64}
    (hX : X = fixed trampoline s.proc.trapframe) (h : CanLookup s N H c) (ho : Opens N H c path file s t ip)
    (hmem : t.mem = s.mem) (hproc : t.proc = s.proc) (hend : LoadEnd t file X (.bad pagetable sz) u) :
    Wp (do bad pagetable sz (some ip); return none) (fun _ => False) (BuildEnd N H c trampoline path s) u := by
  have hclose : ∀ v : State, v = { u with mem := v.mem } → u = { t with mem := u.mem } → Moves s.mem v.mem ∅ ∅ →
      Wp (do iunlockput ip; endOp) (fun _ => False) (fun _ w => BuildEnd N H c trampoline path s none w) v := by
    intro v hv hu hmoves
    refine (close_spec h (ho.mem (u := v) (by rw [hv, hu]))).mono ?_
    rintro _ w ⟨hrel, hwm, hwp⟩
    refine .nothing w hrel ?_ (hwm ▸ hmoves)
    rw [hwp, hv, hu, ← hproc]
  rw [wp_bind]
  cases hend with
  | nothing _ same moves => exact hclose u rfl same (hmem ▸ moves)
  | part _ root _ made =>
    obtain ⟨same, moves, space⟩ := made
    rw [hX] at space
    rw [hmem] at moves
    rw [bad_some]
    refine (discard_spec space moves).bind ?_
    rintro _ v ⟨hv, hvm⟩
    exact hclose v hv same hvm

/-- The program gets its stack, or nothing is left of it. -/
theorem stack_spec {file : List UInt8} {p : Program} (h : CanLookup s N H c) (ho : Opens N H c path file s t ip)
    (hmem : t.mem = s.mem) (hproc : t.proc = s.proc) (hkend : s.mem.kend ≠ 0)
    (hmade : Made t u p.pagetable p.sz (fixed trampoline t.proc.trapframe)) (hp : IsProgram u.mem file p) :
    Wp (do
      iunlockput ip
      endOp
      let sz := PGROUNDUP p.sz
      let sz1 ← onMem (uvmalloc p.pagetable sz (sz + 4096 * UInt64.ofNat (USERSTACK + 1)) PTE_W)
      if sz1 = 0 then
        bad (some p.pagetable) sz none
        return none
      onMem (uvmclear p.pagetable (sz1 - 4096 * UInt64.ofNat (USERSTACK + 1)))
      return some { p with sz := sz1 }) (fun _ => False) (BuildEnd N H c trampoline path s) u := by
  obtain ⟨same, moves, space⟩ := hmade
  obtain ⟨i, name, v, -, hres', hv, rfl⟩ := ho.opened
  rw [hproc] at space
  rw [hmem] at moves
  have hclose := close_spec h (ho.mem same)
  rw [wp_bind] at hclose ⊢
  refine hclose.mono fun _ w hw => ?_
  rw [wp_bind]
  refine hw.mono ?_
  rintro _ w ⟨hrel, hwm, hwp⟩
  have hwproc : w.proc = s.proc := by
    rw [hwp, same, ← hproc]
  have hlt := space.lt
  have hsize : numPages (pageAddr (numPages p.sz)) = numPages p.sz := numPages_pageAddr hlt
  rw [← hwm] at space moves
  dsimp only
  rw [PGROUNDUP_eq hlt, pageAddr_add_two, wp_bind, wp_onMem]
  refine (grow_spec space (above_fixed _ _)).mono ?_
  rintro r m (⟨rfl, hres⟩ | ⟨rfl, hne, hres, hz⟩)
  · rw [wp_ite]
    refine ⟨fun _ => ?_, fun hne => absurd rfl hne⟩
    rw [wp_bind, bad_some, wp_bind]
    have hspace : Space ({ w with mem := m } : State).mem p.pagetable (numPages (pageAddr (numPages p.sz)))
        (fixed trampoline s.proc.trapframe) := by
      rw [hsize]
      exact hres.space
    refine (discard_spec (s := s) hspace ?_).mono ?_
    · rw [hsize]
      exact moves.trans hres.moves
    · rintro _ x ⟨hx, hxm⟩
      refine .nothing x (hrel.mem (by rw [hx])) ?_ hxm
      rw [hx, ← hwproc]
  · rw [wp_ite]
    refine ⟨fun hzero => absurd hzero hne, fun _ => ?_⟩
    rw [wp_bind, ← pageAddr_add_two, UInt64.add_sub_cancel, wp_onMem]
    have hmkend : m.kend ≠ 0 := (moves.trans hres.moves).kend.trans_ne hkend
    refine (guard_spec hres.space hz (fun b e => fixed_not_user) hmkend).mono ?_
    rintro _ m' ⟨hmoves, hstack⟩
    rw [wp_pure, pageAddr_add_two]
    refine .image _ _ (numPages p.sz + 1) (hrel.mem rfl) hwproc
      ((moves.trans hres.moves).trans hmoves) ?_ hstack ⟨i, name, v, hres', hv, hp.entry⟩
    have := hres.space.lt
    rw [toNat_pageAddr (by omega), Nat.succ_mul]

theorem build_spec (trampoline : UInt64) (h : CanLookup s N H c) (hk : s.mem.Kmem) (hkend : s.mem.kend ≠ 0)
    (path : List UInt8) :
    Wp (build trampoline path) (fun e => (∃ p, e = .fs p ∧ LookupPanic p) ∧ openProgram path s = .error e)
      (BuildEnd N H c trampoline path s) s := by
  rw [build, wp_bind]
  refine (openProgram_spec h path).run.mono ?_
  rintro o t ⟨hopen, -⟩
  cases hopen with
  | missing _ released proc mem =>
    rw [wp_pure]
    refine .nothing t released proc ?_
    rw [mem]
    exact .refl hk nofun
  | found _ ip file opens proc mem =>
    dsimp only
    refine ((loadProgram_spec trampoline opens.isFile (mem ▸ hk) (mem ▸ hkend)).mono_error nofun).bind ?_
    rintro r u hend
    cases r with
    | bad pagetable sz => exact (bad_spec (by rw [proc]) h opens mem proc hend).mono_error nofun
    | program p =>
      cases hend with
      | all _ _ made program =>
        exact (stack_spec h opens mem proc hkend made program).mono_error nofun

end Exec

end Xv6
