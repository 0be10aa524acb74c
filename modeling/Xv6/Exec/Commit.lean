import Xv6.Exec.Build
import Xv6.Fs.Listing

/-! # The commit

`exec` as a whole: the process has a new address space and the old one is given back, or nothing has changed. -/

namespace Xv6

open Function

open Phys

namespace Exec

open Vm Fs

variable {s t u : State} {N : Nodes} {H : Fin NINODE → ℕ} {c : ℕ} {path : List UInt8}
  {trampoline ustack sp : UInt64} {argv : List UInt64} {args : List (List UInt8)} {p : Program}

/-- The pages of the process's address space. -/
def ownedBy (s : State) : Set UInt64 := owned s.mem s.proc.pagetable (numPages s.proc.sz)

/-- The trapframe is a page of its own. -/
structure HasTrapframe (s : State) : Prop where
  isPage : s.mem.IsPage s.proc.trapframe
  notFree : s.proc.trapframe ∉ s.mem.freelist
  outside : s.proc.trapframe ∉ ownedBy s

/-! ### The trapframe -/

/-- The words of the trapframe after the commit. -/
def committed (frame : Fin 512 → UInt64) (entry sp : UInt64) (i : Fin 512) : UInt64 :=
  if i = EPC then entry else if i = SP ∨ i = A1 then sp else frame i

theorem update_committed (frame : Fin 512 → UInt64) (entry sp : UInt64) :
    update (update (update frame A1 sp) EPC entry) SP sp =
      committed frame entry sp := by
  funext i
  simp only [committed, update_apply]
  by_cases hsp : i = SP
  · rw [if_pos hsp, if_neg (by rw [hsp]; decide), if_pos (.inl hsp)]
  · simp only [hsp, false_or, if_false]

/-- Commit to the user image. The old one is given back. -/
theorem commit_spec (path : List UInt8) (sp : UInt64) (htf : HasTrapframe s)
    (h : Space s.mem s.proc.pagetable (numPages s.proc.sz) (fixed trampoline s.proc.trapframe)) :
    Wp (commit p path sp) (fun _ => False) (fun _ t =>
      t = { s with mem := t.mem, proc := { s.proc with
        name := safestrcpy s.proc.name (lastElem path path) 16
        pagetable := p.pagetable
        sz := p.sz } } ∧
      Moves s.mem t.mem (ownedBy s ∪ {s.proc.trapframe}) {s.proc.trapframe} ∧
      t.mem.word s.proc.trapframe = committed (s.mem.word s.proc.trapframe) p.entry sp) s := by
  unfold commit setTrapframe
  simp only [wp_bind, wp_modify, wp_get, wp_onMem]
  obtain ⟨m, hm⟩ : ∃ m : Phys, m = { s.mem with word := Radix.write (Radix.write (Radix.write s.mem.word
      s.proc.trapframe A1 sp) s.proc.trapframe EPC p.entry) s.proc.trapframe SP sp } := ⟨_, rfl⟩
  have hword : m.word = update s.mem.word s.proc.trapframe
      (committed (s.mem.word s.proc.trapframe) p.entry sp) := by
    rw [hm, ← update_committed]
    simp only [Radix.write, update_self, update_idem]
  have hnotFree : ∀ q ∈ ({s.proc.trapframe} : Set UInt64), q ∉ s.mem.freelist := by
    rintro q rfl
    exact htf.notFree
  have hwrite : Moves s.mem m {s.proc.trapframe} {s.proc.trapframe} := by
    refine ⟨?_, by rw [hm]⟩
    rw [show m.freelist = s.mem.freelist by rw [hm]]
    refine .write h.pageTable.kmem.nodup hnotFree fun q hq => ?_
    rw [hword, update_of_ne hq]
  have hdisj : ∀ q ∈ ownedBy s, q ∉ ({s.proc.trapframe} : Set UInt64) := by
    rintro q hq rfl
    exact htf.outside hq
  have hsame := h.frame hwrite (fun q hq => hq ▸ htf.isPage) hdisj
  have hout : ∀ q ∈ ({s.proc.trapframe} : Set UInt64), q ∉ ownedBy s := fun q hq hqs => hdisj q hqs hq
  have hkeep := (moves_add (F := ownedBy s) hwrite hdisj h.notFree).1
  rw [← hm]
  refine (procFreepagetable_spec _ _ hsame.space).mono fun _ m' hfree => ?_
  rw [hsame.owned] at hfree
  obtain ⟨hgive, hframe, -⟩ := moves_add hfree hout hwrite.disjoint
  refine ⟨trivial, ?_, ?_⟩
  · rw [Set.union_comm] at hkeep
    rw [Set.empty_union] at hgive
    exact hkeep.trans hgive
  · rw [hframe _ rfl, hword, update_self]

/-! ### The call -/

/-- What `exec` is called with: a process with its address space, and strings in memory that is not free. -/
structure Starts (s : State) (N : Nodes) (H : Fin NINODE → ℕ) (c : ℕ) (trampoline ustack : UInt64)
    (argv : List UInt64) (args : List (List UInt8)) : Prop where
  lookup : CanLookup s N H c
  space : Space s.mem s.proc.pagetable (numPages s.proc.sz) (fixed trampoline s.proc.trapframe)
  kend : s.mem.kend ≠ 0
  trapframe : HasTrapframe s
  kernelStack : KernelStack s.mem (ownedBy s ∪ {s.proc.trapframe}) ustack
  strings : List.Forall₂ (IsArg s.mem { q | q ∈ s.mem.freelist }) argv args
  count : args.length < MAXARG

/-- The call failed and nothing has changed. -/
structure Unchanged (N : Nodes) (H : Fin NINODE → ℕ) (trampoline : UInt64) (s t : State) : Prop where
  released : Released N H s t
  proc : t.proc = s.proc
  trapframe : t.mem.word s.proc.trapframe = s.mem.word s.proc.trapframe
  space : Same s.mem t.mem s.proc.pagetable (numPages s.proc.sz) (fixed trampoline s.proc.trapframe)
  nodup : t.mem.freelist.Nodup
  freed : ∀ q, q ∈ t.mem.freelist ↔ q ∈ s.mem.freelist

/-- The process has the image of the program at `path`, with the arguments on the stack. The pages of the old
address space are free. -/
structure Committed (N : Nodes) (H : Fin NINODE → ℕ) (c : ℕ) (trampoline ustack : UInt64) (path : List UInt8)
    (args : List (List UInt8)) (s t : State) (M : ℕ) (sp : UInt64) : Prop where
  released : Released N H s t
  proc : t.proc = { s.proc with
    name := safestrcpy s.proc.name (lastElem path path) 16
    pagetable := t.proc.pagetable
    sz := t.proc.sz }
  frame : ∃ i name v, N.resolve c path false = some (i, name) ∧ N i = some v ∧
    t.mem.word s.proc.trapframe = committed (s.mem.word s.proc.trapframe) (elfhdr v.bytes).entry sp
  moves : Moves s.mem t.mem (ownedBy s ∪ {PGROUNDDOWN ustack, s.proc.trapframe})
    (ownedBy t ∪ {PGROUNDDOWN ustack, s.proc.trapframe})
  size : t.proc.sz.toNat = M * 4096 + 4096
  stack : Stack t.mem t.proc.pagetable M (fixed trampoline s.proc.trapframe)
  arguments : Arguments t.mem t.proc.pagetable M args sp

/-- `Moves` without owners leaves the process alone. -/
theorem Starts.unchanged (h : Starts s N H c trampoline ustack argv args) (hrel : Released N H s t)
    (hproc : t.proc = s.proc) (hm : Moves s.mem t.mem ∅ ∅) : Unchanged N H trampoline s t where
  released := hrel
  proc := hproc
  trapframe := hm.frame _ (Set.notMem_empty _) h.trapframe.notFree
  space := h.space.frame hm nofun fun _ _ => Set.notMem_empty _
  nodup := hm.nodup
  freed := fun q => by simpa using hm.conserve q

theorem numPages_of_eq {sz : UInt64} {M : ℕ} (h : sz.toNat = M * 4096 + 4096) : numPages sz = M + 1 := by
  rw [numPages, h]
  omega

/-- What is not free when the building begins is no part of the new image. -/
theorem Starts.pushReady {M : ℕ} {root : UInt64} (h : Starts s N H c trampoline ustack argv args)
    (hm : Moves s.mem t.mem ∅ (owned t.mem root (M + 1))) :
    KernelStack t.mem (owned t.mem root (M + 1)) ustack ∧
      List.Forall₂ (IsArg t.mem (owned t.mem root (M + 1))) argv args := by
  obtain ⟨hout, hfree⟩ := hm.others (Set.notMem_empty _) h.kernelStack.notFree
  refine ⟨⟨h.kernelStack.isPage.of_kend hm.kend, hfree, hout, h.kernelStack.within⟩, h.strings.imp fun a str ha => ?_⟩
  refine ha.frame (fun q hq => hm.frame q (Set.notMem_empty _) hq) fun q hq => ?_
  exact ((hm.conserve q).mp (.inl hq)).resolve_left (Set.notMem_empty _)

theorem Starts.commit {v : State} {M : ℕ} (h : Starts s N H c trampoline ustack argv args)
    (hproc : v.proc = s.proc) (hm : Moves s.mem t.mem ∅ (owned t.mem p.pagetable (M + 1)))
    (hpush : Pushed t.mem v.mem p.pagetable M (fixed trampoline s.proc.trapframe) args ustack sp)
    (hrel : Released N H s v) (hsize : p.sz.toNat = M * 4096 + 4096)
    (hp : ∃ i name v, N.resolve c path false = some (i, name) ∧ N i = some v ∧ p.entry = (elfhdr v.bytes).entry) :
    Wp (Exec.commit p path sp) (fun _ => False)
      (fun _ w => Committed N H c trampoline ustack path args s w M sp) v := by
  obtain ⟨i, name, nd, hres, hnd, hentry⟩ := hp
  have hkfree : ∀ q ∈ ({PGROUNDDOWN ustack} : Set UInt64), q ∉ s.mem.freelist := by
    rintro q rfl
    exact h.kernelStack.notFree
  have hkout : ∀ q ∈ ownedBy s ∪ {s.proc.trapframe}, q ∉ ({PGROUNDDOWN ustack} : Set UInt64) := by
    rintro q hq rfl
    exact h.kernelStack.outside hq
  have hothers : ∀ q ∈ ownedBy s ∪ {s.proc.trapframe}, q ∉ s.mem.freelist := by
    rintro q (hq | rfl)
    exacts [h.space.notFree q hq, h.trapframe.notFree]
  -- until the commit only free pages and the kernel stack are used
  have hsv : Moves s.mem v.mem {PGROUNDDOWN ustack} (owned v.mem p.pagetable (M + 1) ∪ {PGROUNDDOWN ustack}) := by
    have hadd := (moves_add hm (fun q _ => Set.notMem_empty q) hkfree).1
    rw [Set.empty_union] at hadd
    exact hadd.trans hpush.moves
  obtain ⟨hbefore, hframe, hnew⟩ := moves_add hsv hkout hothers
  have hold := h.space.frame hsv (fun q hq => hq ▸ h.kernelStack.isPage) fun q hq => hkout q (.inl hq)
  have howned : ownedBy v = ownedBy s := by
    rw [ownedBy, hproc]
    exact hold.owned
  have htf : HasTrapframe v := by
    obtain ⟨-, hfree⟩ := hsv.others (hkout _ (.inr rfl)) h.trapframe.notFree
    refine ⟨?_, ?_, ?_⟩
    all_goals rw [hproc]
    exacts [h.trapframe.isPage.of_kend hsv.kend, hfree, howned ▸ h.trapframe.outside]
  refine (commit_spec path sp htf (hproc.symm ▸ hold.space)).mono ?_
  rintro _ w ⟨hw, hcommit, hwords⟩
  rw [hproc] at hw hcommit hwords
  rw [howned] at hcommit
  have hpages := numPages_of_eq hsize
  have hwroot : w.proc.pagetable = p.pagetable ∧ w.proc.sz = p.sz := by
    rw [hw]
    exact ⟨rfl, rfl⟩
  have hsame : Same v.mem w.mem p.pagetable (M + 1) (fixed trampoline s.proc.trapframe) := by
    refine hpush.stack.space.frame hcommit ?_ fun q hq hq' => hnew q hq' (.inl hq)
    rintro q (hq | rfl)
    exacts [(h.space.isPage q hq).of_kend hsv.kend, h.trapframe.isPage.of_kend hsv.kend]
  have hownedw : ownedBy w = owned v.mem p.pagetable (M + 1) := by
    rw [ownedBy, hwroot.1, hwroot.2, hpages, hsame.owned]
  constructor
  case released =>
    rw [hw]
    exact ⟨hrel.rep, hrel.keeps, hrel.locked, hrel.ops⟩
  case proc =>
    rw [hw]
  case frame =>
    refine ⟨i, name, nd, hres, hnd, ?_⟩
    rw [hwords, hentry, hframe _ (.inr rfl)]
  case moves =>
    have hafter := (moves_add hcommit (fun q hq hq' => hnew q hq' hq) hsv.disjoint).1
    have hA : ({PGROUNDDOWN ustack} ∪ (ownedBy s ∪ {s.proc.trapframe}) : Set UInt64) =
        ownedBy s ∪ {PGROUNDDOWN ustack, s.proc.trapframe} := by
      rw [Set.union_left_comm, Set.singleton_union]
    have hB : ({s.proc.trapframe} ∪ (owned v.mem p.pagetable (M + 1) ∪ {PGROUNDDOWN ustack}) : Set UInt64) =
        ownedBy w ∪ {PGROUNDDOWN ustack, s.proc.trapframe} := by
      rw [hownedw, Set.union_left_comm, Set.singleton_union, Set.pair_comm]
    rw [hA] at hbefore
    rw [hB, Set.union_comm] at hafter
    exact hbefore.trans hafter
  case size =>
    rw [hwroot.2, hsize]
  case stack =>
    rw [hwroot.1]
    exact hpush.stack.same hsame hcommit.kend
  case arguments =>
    rw [hwroot.1]
    exact hpush.toArguments.same hsame

/-- How `exec` ends once it has an empty stack: there is room for the arguments, or not. -/
def FinishEnd (N : Nodes) (H : Fin NINODE → ℕ) (c : ℕ) (trampoline ustack : UInt64) (path : List UInt8)
    (args : List (List UInt8)) (s : State) (r : Int) (t : State) : Prop :=
  (r = -1 ∧ USERSTACK * PGSIZE < total args ∧ Unchanged N H trampoline s t) ∨
    r = args.length ∧ total args ≤ USERSTACK * PGSIZE ∧
      ∃ M sp, Committed N H c trampoline ustack path args s t M sp

theorem finish_spec (h : Starts s N H c trampoline ustack argv args)
    (hend : BuildEnd N H c trampoline path s (some p) t) :
    Wp (finish p ustack path argv) (fun _ => False) (FinishEnd N H c trampoline ustack path args s) t := by
  cases hend with
  | image _ _ M released proc moves size stack program =>
    have hpages := numPages_of_eq size
    obtain ⟨hkstack, hargs⟩ := h.pushReady moves
    rw [finish, wp_bind, wp_onMem]
    refine (pushArgs_spec stack hargs h.count size hkstack).mono ?_
    rintro r m (⟨rfl, hover, hre⟩ | ⟨sp, rfl, hfit, hpush⟩)
    · rw [wp_bind, bad_some, wp_bind]
      have hspace : Space ({ t with mem := m } : State).mem p.pagetable (numPages p.sz)
          (fixed trampoline s.proc.trapframe) := by
        rw [hpages]
        exact hre.space
      have hmoves : Moves s.mem ({ t with mem := m } : State).mem ∅ (owned m p.pagetable (numPages p.sz)) := by
        rw [hpages]
        exact moves.trans hre.moves
      refine (discard_spec hspace hmoves).mono ?_
      rintro _ u ⟨hu, hm⟩
      refine .inl ⟨rfl, hover, h.unchanged (released.mem (by rw [hu])) ?_ hm⟩
      rw [hu, ← proc]
    · refine (h.commit (v := { t with mem := m }) proc moves hpush (released.mem rfl) size program).bind ?_
      rintro _ w hw
      rw [wp_pure]
      exact .inr ⟨rfl, hfit, M, sp, hw⟩

theorem exec_spec (h : Starts s N H c trampoline ustack argv args) (path : List UInt8) :
    Wp (exec trampoline ustack path argv)
      (fun e => (∃ p, e = .fs p ∧ LookupPanic p) ∧ openProgram path s = .error e)
      (fun r t => (r = -1 ∧ Unchanged N H trampoline s t) ∨
        r = args.length ∧ ∃ M sp, Committed N H c trampoline ustack path args s t M sp) s := by
  rw [exec]
  refine (build_spec trampoline h.lookup h.space.pageTable.kmem h.kend path).bind fun o t hend => ?_
  cases o with
  | none =>
    cases hend with
    | nothing _ released proc moves => exact (wp_pure ..).mpr (.inl ⟨rfl, h.unchanged released proc moves⟩)
  | some p =>
    refine ((finish_spec h hend).mono_error nofun).mono ?_
    rintro r u (⟨hr, -, hun⟩ | ⟨hr, -, hcom⟩)
    exacts [.inl ⟨hr, hun⟩, .inr ⟨hr, hcom⟩]

theorem exec_of_build (h : Starts s N H c trampoline ustack argv args)
    (hbuild : build trampoline path s = .ok (some p, t)) :
    ∃ r u, exec trampoline ustack path argv s = .ok (r, u) ∧
      FinishEnd N H c trampoline ustack path args s r u := by
  have himage := (build_spec trampoline h.lookup h.space.pageTable.kmem h.kend path).ok hbuild
  obtain ⟨r, u, hrun, hend⟩ := (finish_spec h himage).total
  exact ⟨r, u, (run_bind_ok _ hbuild).trans hrun, hend⟩

/-- **`exec` is atomic.** Whatever is in the file and wherever memory runs out, `exec` panics only if finding the
file does. Otherwise it has committed to the new image, or it returns -1 and the process, its address space, the
free pages and the inodes are as before. -/
theorem exec_atomic (h : Starts s N H c trampoline ustack argv args) (path : List UInt8) :
    (∀ e, exec trampoline ustack path argv s = .error e ↔ openProgram path s = .error e) ∧
      (∀ e, openProgram path s = .error e → e = .fs .igetNoInodes ∨ e = .fs .ilockNoType) ∧
      ∀ r t, exec trampoline ustack path argv s = .ok (r, t) → (r = -1 ∧ Unchanged N H trampoline s t) ∨
        r = args.length ∧ ∃ M sp, Committed N H c trampoline ustack path args s t M sp := by
  have hspec := exec_spec h path
  have hpanic : ∀ e, openProgram path s = .error e → exec trampoline ustack path argv s = .error e := by
    intro e he
    exact run_bind_error _ (run_bind_error _ he)
  refine ⟨fun e => ⟨fun he => (hspec.error he).2, hpanic e⟩, fun e he => ?_, fun r t hrun => hspec.ok hrun⟩
  obtain ⟨⟨p, rfl, rfl | rfl⟩, -⟩ := hspec.error (hpanic e he)
  exacts [.inl rfl, .inr rfl]

/-! ### A process -/

/-- A memory with sixteen free pages, and the string "hi" in another page. -/
def sixteenPages : Phys where
  word := fun p i => if p = 0x80022000 ∧ i = 0 then 0x6968 else 0
  freelist := (List.range 16).map fun i => 0x80008000 + 4096 * UInt64.ofNat i
  kend := 0x80008000

theorem sixteenPages_kmem : sixteenPages.Kmem := by
  refine ⟨by decide, ?_⟩
  have hpages : ∀ p ∈ sixteenPages.freelist, Aligned p ∧ sixteenPages.kend ≤ p ∧ p.toNat < PHYSTOP :=
    List.forall_iff_forall_mem.mp (by decide)
  exact fun p hp => ⟨(hpages p hp).1, (hpages p hp).2.1, (hpages p hp).2.2⟩

/-- The page table of a new process, and the memory with it. -/
def fresh : UInt64 × Phys :=
  match procPagetable 0x80001000 0x80020000 sixteenPages with
  | .ok (some root, t) => (root, t)
  | _ => (0, sixteenPages)

theorem run_fresh : (match procPagetable 0x80001000 0x80020000 sixteenPages with
    | .ok (some _, _) => true
    | _ => false) = true := by decide +kernel

theorem fresh_spec : Space fresh.2 fresh.1 0 (fixed 0x80001000 0x80020000) ∧
    Moves sixteenPages fresh.2 ∅ (owned fresh.2 fresh.1 0) := by
  obtain ⟨o, t, hrun, hspec⟩ := (procPagetable_spec 0x80001000 0x80020000 sixteenPages_kmem).total
  have hsome := run_fresh
  rw [hrun] at hsome
  rcases hspec with ⟨rfl, -⟩ | ⟨root, rfl, hspace, hmoves⟩
  · cases hsome
  · have hfresh : fresh = (root, t) := by rw [fresh, hrun]
    rw [hfresh]
    exact ⟨hspace, hmoves⟩

/-- The process, in the directory of the first entry of the inode table. -/
def process (f : Fs) : State := ⟨f, fresh.2, ⟨fresh.1, 0, 0x80020000, [], 0⟩, [], 0⟩

theorem process_starts {f : Fs} (h : CanLookup (process f) N H c) :
    Starts (process f) N H c 0x80001000 0x80021000 [0x80022000] [[104, 105]] := by
  obtain ⟨hspace, hmoves⟩ := fresh_spec
  have hothers : ∀ q, q ∉ sixteenPages.freelist → q ∉ owned fresh.2 fresh.1 0 ∧ q ∉ fresh.2.freelist :=
    fun q hq => hmoves.others (Set.notMem_empty _) hq
  have howned : ownedBy (process f) = owned fresh.2 fresh.1 0 := by
    rw [ownedBy, show (process f).proc.sz = 0 from rfl, numPages_zero]
    rfl
  obtain ⟨htf, htf'⟩ := hothers 0x80020000 (by decide)
  obtain ⟨hks, hks'⟩ := hothers 0x80021000 (by decide)
  obtain ⟨-, harg⟩ := hothers 0x80022000 (by decide)
  have hstring : ∀ i ≤ 2, PGROUNDDOWN (addr 0x80022000 i) = 0x80022000 ∧
      sixteenPages.byte (addr 0x80022000 i) = ([104, 105] : List UInt8).getD i 0 := by decide +kernel
  refine ⟨h, numPages_zero.symm ▸ hspace, hmoves.kend.trans_ne (by decide), ⟨?_, htf', howned ▸ htf⟩,
    ⟨?_, hks', ?_, by decide⟩, .cons ⟨⟨fun i hi => ?_, by simp⟩, by decide, fun i hi => ?_⟩ .nil, by decide⟩
  · have hpage : sixteenPages.IsPage 0x80020000 := ⟨by decide, by decide, by decide⟩
    exact hpage.of_kend hmoves.kend
  · have hpage : sixteenPages.IsPage 0x80021000 := ⟨by decide, by decide, by decide⟩
    exact hpage.of_kend hmoves.kend
  · rw [howned]
    rintro (hq | hq)
    · exact hks hq
    · have hne : PGROUNDDOWN 0x80021000 ≠ 0x80020000 := by decide
      exact hne hq
  · rw [← (hstring i hi).2]
    exact byte_congr (hmoves.frame _ (Set.notMem_empty _) (by rw [(hstring i hi).1]; decide))
  · rw [(hstring i hi).1]
    exact harg

theorem process_lookup {L : Listing} {k : ℕ} (hpos : 0 < k) (hk : k ≤ L.files + 1)
    (hdir : Node.IsDir 64 ⟨T_DIR, 0, 0, 1, L.dir⟩) :
    CanLookup (process (L.fs k)) L.node (Listing.refs k) ROOTINO := by
  have hroot : 0 < Listing.refs k 0 := by
    rw [Listing.refs, if_pos (by exact hpos)]
    exact Nat.one_pos
  refine canLookup_of_rep (L.rep hk) ⟨hroot, ?_⟩ (fun i v hv ht => ?_) (fun i v hv => ?_) ?_
  · exact congrArg Inode.inum (Listing.itable_of_held hroot).2
  · rcases Listing.node_cases hv with ⟨-, rfl⟩ | ⟨-, rfl⟩
    · exact hdir
    · exact absurd ht (by decide)
  · rcases Listing.node_cases hv with ⟨-, rfl⟩ | ⟨-, rfl⟩
    all_goals exact Int16.zero_ne_one.symm
  · rintro i ⟨ip, hip, rfl⟩
    obtain ⟨hlt, heq⟩ := Listing.itable_of_held (L := L) hip
    obtain ⟨v, hv, -⟩ := Listing.node_of_lt (L := L) (i := ip + 1) (Nat.le_add_left ..) (by omega)
    exact ⟨v, (congrArg L.node (congrArg Inode.inum heq)).trans hv⟩

/-- A directory of files `B` to `t`. -/
def crowded : Listing where
  dir := Dirent.encode ⟨ROOTINO, strncpy [dot] DIRSIZ⟩ ++ Dirent.encode ⟨ROOTINO, strncpy [dot, dot] DIRSIZ⟩ ++
    (List.range 51).flatMap fun j => Dirent.encode ⟨52 - j, strncpy [UInt8.ofNat (116 - j)] DIRSIZ⟩
  files := 51
  small := by decide +kernel
  lt := by decide

theorem crowded_dir : Node.IsDir 64 ⟨T_DIR, 0, 0, 1, crowded.dir⟩ := by decide +kernel

theorem run_crowded : (match openProgram [116] (process (crowded.fs NINODE)) with
    | .error e => decide (e = .fs .igetNoInodes)
    | .ok _ => false) = true := by decide +kernel

/-- Every entry of the inode table is in use, by the directory and the files up to `r`. The file `t` is not among
them, and `exec` of it panics. -/
theorem exec_full_table : ∃ H, (∀ ip, 0 < H ip) ∧
    Starts (process (crowded.fs NINODE)) crowded.node H ROOTINO 0x80001000 0x80021000 [0x80022000] [[104, 105]] ∧
    exec 0x80001000 0x80021000 [116] [0x80022000] (process (crowded.fs NINODE)) = .error (.fs .igetNoInodes) := by
  refine ⟨Listing.refs NINODE, fun ip => ?_, process_starts (process_lookup (by decide) (by decide) crowded_dir), ?_⟩
  · rw [Listing.refs, if_pos ip.isLt]
    exact Nat.one_pos
  · have hrun := run_crowded
    split at hrun
    · rename_i e he
      rw [of_decide_eq_true hrun] at he
      exact run_bind_error _ (run_bind_error _ he)
    · cases hrun

theorem run_empty : (match exec 0x80001000 0x80021000 [116] [0x80022000] (process (crowded.fs 1)) with
    | .ok (r, _) => decide (r = -1)
    | .error _ => false) = true := by decide +kernel

/-- With only the directory in use, the file `t` is found and is empty: nothing changes. -/
theorem exec_atomic_empty : ∃ t,
    exec 0x80001000 0x80021000 [116] [0x80022000] (process (crowded.fs 1)) = .ok (-1, t) ∧
      Unchanged crowded.node (Listing.refs 1) 0x80001000 (process (crowded.fs 1)) t := by
  obtain ⟨-, -, hret⟩ := exec_atomic
    (process_starts (process_lookup (L := crowded) Nat.one_pos (by decide) crowded_dir)) [116]
  have hrun := run_empty
  split at hrun
  · rename_i r t hexec
    obtain rfl := of_decide_eq_true hrun
    rcases hret _ t hexec with ⟨-, hun⟩ | ⟨hr, -⟩
    · exact ⟨t, hexec, hun⟩
    · cases hr
  · cases hrun

end Exec

end Xv6
