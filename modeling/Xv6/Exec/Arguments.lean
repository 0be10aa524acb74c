import Xv6.Exec.Commit

/-! # Arguments of the new program

The new program finds its arguments: `copyinstr` reads each of them back through the array of pointers. -/

namespace Xv6

open Phys

namespace Exec

open Vm

variable {s t u : State} {m : Phys} {N : Nodes} {H : Fin NINODE → ℕ} {c ptr : ℕ} {path str : List UInt8}
  {trampoline ustack sp root : UInt64} {argv : List UInt64} {args : List (List UInt8)} {p : Program} {M : ℕ}
  {X : UInt64 → Option UInt64}

/-- `copyinstr` reads the string at `ptr` into every buffer of the kernel that is large enough. -/
def Reads (m : Phys) (root : UInt64) (ptr : ℕ) (str : List UInt8) : Prop :=
  ∀ dst max : UInt64, KernelBuffer m root dst max.toNat → str.length < max.toNat →
    ∃ m', copyinstr root dst (UInt64.ofNat ptr) max m = .ok (0, m') ∧ IsString m' dst str

/-- The word at a virtual address. -/
def WordAt (m : Phys) (root : UInt64) (x : ℕ) (w : UInt64) : Prop :=
  ∀ j < 8, virtByte m root (x + j) = some (WordBytes.byteAt w j)

/-- A string on the stack can be read. -/
theorem Stack.reads (h : Stack m root M X) (hhere : StringHere m root str ptr) (hnz : ∀ b ∈ str, b ≠ 0)
    (hlo : M * 4096 ≤ ptr) (hhi : ptr + (str.length + 1) ≤ M * 4096 + 4096) : Reads m root ptr str := by
  have hlt := h.space.lt
  rw [Nat.succ_mul] at hlt
  have huser : ∀ i ≤ str.length, ∃ e, UserAt m root (ptr + i) e := by
    intro i hi
    obtain ⟨e, he, -⟩ := h.writable (ptr + i) (hlo.trans (Nat.le_add_right ..)) (lt_of_lt_of_le (by omega) hhi)
    exact ⟨e, he⟩
  have hbyte : ∀ i ≤ str.length, ∀ e, UserAt m root (ptr + i) e → m.byte (physAt e (ptr + i)) = str.getD i 0 := by
    intro i hi e he
    have := hhere i hi
    rw [virtByte_eq he.lookup] at this
    exact Option.some.inj this
  have hstring : StringAt m root ptr str.length := by
    refine ⟨huser, fun i hi e he => ?_, fun e he => ?_⟩
    · rw [hbyte i hi.le e he, List.getD_eq_getElem _ _ hi]
      exact hnz _ (List.getElem_mem hi)
    · rw [hbyte _ le_rfl e he, List.getD_eq_default _ _ le_rfl]
  intro dst max hbuf hmax
  have hptr : (UInt64.ofNat ptr).toNat = ptr := by
    rw [UInt64.toNat_ofNat', Nat.mod_eq_of_lt (by omega)]
  obtain ⟨r, m', hrun, -, hend⟩ :=
    (copyinstrLoop_spec (UInt64.ofNat ptr) (h.space.separate h.notUser h.kend).ne_zero hbuf le_rfl).total
  rw [CopyinstrEnd, hptr] at hend
  rcases hend with ⟨k, -, rfl, hk, hloaded⟩ | ⟨-, hnone⟩
  · obtain rfl := hk.unique hstring
    refine ⟨m', hrun, fun i hi => ?_, hnz⟩
    obtain ⟨e, he⟩ := huser i hi
    rw [hloaded i (by omega) e he, hbyte i hi e he]
  · exact absurd hstring (hnone _ hmax)

/-- The stack of the new program: `sp` and `a1` are the array of pointers to the arguments, which ends with 0. The
array and the strings lie in the stack and nothing overlaps. -/
structure ArgumentStack (t : State) (args : List (List UInt8)) (sp : ℕ) (ptrs : List ℕ) : Prop where
  stackPointer : (t.mem.word t.proc.trapframe SP).toNat = sp
  argument : (t.mem.word t.proc.trapframe A1).toNat = sp
  aligned : sp % 16 = 0
  stackbase_le : t.proc.sz.toNat - USERSTACK * PGSIZE ≤ sp
  lt : sp < t.proc.sz.toNat
  length : ptrs.length = args.length
  pointers : ∀ i ≤ args.length, WordAt t.mem t.proc.pagetable (sp + i * 8) (UInt64.ofNat (ptrs.getD i 0))
  reads : List.Forall₂ (fun str ptr => Reads t.mem t.proc.pagetable ptr str) args ptrs
  within : List.Forall₂ (fun str ptr => sp + (args.length + 1) * 8 ≤ ptr ∧ ptr + (str.length + 1) ≤ t.proc.sz.toNat)
    args ptrs
  apart : (args.zip ptrs).Pairwise fun a b => b.2 + (b.1.length + 1) ≤ a.2

theorem Committed.argumentStack (h : Committed N H c trampoline ustack path args s t M sp)
    (hargs : ∀ str ∈ args, ∀ b ∈ str, b ≠ 0) :
    ArgumentStack t args sp.toNat (layout (M * 4096 + 4096) args) := by
  have hsize := h.size
  obtain ⟨_, _, v, -, -, hframe⟩ := h.frame
  have htf : t.proc.trapframe = s.proc.trapframe := by rw [h.proc]
  have hsum := h.arguments.sum
  obtain ⟨hpad, -⟩ := pad_spec ((args.length + 1) * 8)
  rw [total] at hsum
  have hbase := h.arguments.base
  have hbounds : List.Forall₂ (fun str ptr => M * 4096 + 4096 - need args ≤ ptr ∧
      ptr + (str.length + 1) ≤ M * 4096 + 4096) args (layout (M * 4096 + 4096) args) := layout_bounds (by omega)
  constructor
  case stackPointer => rw [htf, hframe]; rfl
  case argument => rw [htf, hframe]; rfl
  case aligned => exact h.arguments.aligned
  case stackbase_le =>
    rw [hsize, show USERSTACK * PGSIZE = 4096 from rfl, Nat.add_sub_cancel]
    exact hbase
  case lt => omega
  case length => exact length_layout _ _
  case pointers =>
    intro i hi j hj
    rw [Nat.add_assoc, h.arguments.pointers i hi j hj]
  case reads =>
    rw [List.forall₂_iff_get] at hbounds ⊢
    have hstrings := List.forall₂_iff_get.mp h.arguments.strings
    refine ⟨hbounds.1, fun i hi hi' => ?_⟩
    obtain ⟨hlo, hhi⟩ := hbounds.2 i hi hi'
    exact h.stack.reads (hstrings.2 i hi hi') (hargs _ (List.get_mem _ _)) (by omega) hhi
  case within =>
    rw [hsize]
    refine hbounds.imp ?_
    rintro str ptr ⟨hlo, hhi⟩
    omega
  case apart => exact layout_pairwise (by omega)

theorem Starts.nonzero (h : Starts s N H c trampoline ustack argv args) : ∀ str ∈ args, ∀ b ∈ str, b ≠ 0 := by
  intro str hstr
  obtain ⟨i, hi, rfl⟩ := List.getElem_of_mem hstr
  have hforall := List.forall₂_iff_get.mp h.strings
  exact (hforall.2 i (hforall.1 ▸ hi) hi).nonzero

/-- **The arguments of `exec` come back.** When the search for the file has ended, `exec` returns -1, or the number
of arguments with a stack from which `copyinstr` reads every one of them. If the image is built, -1 is returned
exactly if the padded strings and the padded array do not fit in the stack. -/
theorem exec_arguments {o : Option (Fin NINODE)} (h : Starts s N H c trampoline ustack argv args)
    (hopen : openProgram path s = .ok (o, u)) :
    ∃ r t, exec trampoline ustack path argv s = .ok (r, t) ∧
      (r = -1 ∨ r = args.length ∧ ∃ sp ptrs, ArgumentStack t args sp ptrs) ∧
      ∀ p v, build trampoline path s = .ok (some p, v) → (r = -1 ↔ USERSTACK * PGSIZE < total args) := by
  have hspec := exec_spec h path
  obtain ⟨r, t, hrun, hend⟩ := (hspec.mono_error fun e he => by cases he.2.symm.trans hopen).total
  refine ⟨r, t, hrun, ?_, fun p v hbuild => ?_⟩
  · rcases hend with ⟨hr, -⟩ | ⟨hr, M, sp, hcom⟩
    · exact .inl hr
    · exact .inr ⟨hr, _, _, hcom.argumentStack h.nonzero⟩
  · obtain ⟨r', t', hrun', hfinish⟩ := exec_of_build h hbuild
    obtain ⟨rfl, -⟩ : r = r' ∧ t = t' := by simpa using hrun.symm.trans hrun'
    rcases hfinish with ⟨hr, hover, -⟩ | ⟨hr, hfit, -⟩
    · exact iff_of_true hr hover
    · exact iff_of_false (by omega) (by omega)

/-! ### A program -/

/-- An ELF file with one program header, for a segment of four bytes. The fifth byte of its `phoff` is given. -/
def elfFile (wrap : UInt8) : List UInt8 :=
  [0x7f, 0x45, 0x4c, 0x46] ++ List.replicate 28 0 ++ [0x40, 0, 0, 0, wrap, 0, 0, 0] ++ List.replicate 16 0 ++ [1, 0] ++
    List.replicate 6 0 ++ [1, 0, 0, 0, 5, 0, 0, 0] ++ List.replicate 24 0 ++ [4, 0, 0, 0, 0, 0, 0, 0] ++
    [4, 0, 0, 0, 0, 0, 0, 0] ++ List.replicate 8 0

/-- A disk with the file `a`. -/
def disk (wrap : UInt8) : Image where
  files := [⟨T_DIR, 0, 0, 1, Dirent.encode ⟨ROOTINO, strncpy [dot] DIRSIZ⟩ ++
    Dirent.encode ⟨ROOTINO, strncpy [dot, dot] DIRSIZ⟩ ++ Dirent.encode ⟨2, strncpy [97] DIRSIZ⟩⟩,
    ⟨T_FILE, 0, 0, 1, elfFile wrap⟩]
  pos := Nat.two_pos
  lt := show 2 < 16 by decide
  small := by
    intro v hv
    rcases List.mem_cons.mp hv with rfl | hv
    · decide
    · obtain rfl := List.mem_singleton.mp hv
      exact ⟨show T_FILE ≠ 0 by decide, show 120 ≤ 1024 by decide⟩

theorem disk_lookup (wrap : UInt8) :
    CanLookup (process ((disk wrap).fs 1)) (disk wrap).node (Image.refs 1) ROOTINO := by
  have hnode : ∀ i v, (disk wrap).node i = some v → v.nlink = 1 ∧ (v.type = T_DIR → v.IsDir IPB) := by
    intro i v hv
    rw [Image.node] at hv
    split at hv
    · cases hv
    · rcases List.mem_cons.mp (List.mem_of_getElem? hv) with rfl | hmem
      · exact ⟨rfl, fun _ => by decide +kernel⟩
      · obtain rfl := List.mem_singleton.mp hmem
        exact ⟨rfl, fun ht => absurd (show T_FILE = T_DIR from ht) (by decide)⟩
  refine canLookup_of_rep ((disk wrap).rep 1) ⟨Nat.one_pos, rfl⟩ (fun i v hv => (hnode i v hv).2)
    (fun i v hv h0 => absurd ((hnode i v hv).1.symm.trans h0) (by decide)) ?_
  rintro i ⟨ip, hip, rfl⟩
  obtain rfl : ip = 0 := by
    by_contra hne
    rw [Image.refs, if_neg hne] at hip
    cases hip
  exact ⟨_, rfl⟩

theorem run_build : ∀ wrap ∈ ([0, 1] : List UInt8), (match build 0x80001000 [97] (process ((disk wrap).fs 1)) with
    | .ok (some _, _) => true
    | _ => false) = true := by decide +kernel

/-- Both files are executed. -/
theorem disk_builds {wrap : UInt8} (h : wrap ∈ ([0, 1] : List UInt8)) :
    ∃ p v, build 0x80001000 [97] (process ((disk wrap).fs 1)) = .ok (some p, v) := by
  have hrun := run_build wrap h
  split at hrun
  · rename_i p v heq
    exact ⟨p, v, heq⟩
  · cases hrun

/-- The file is found and its program is loaded if the image is built. -/
theorem load_of_build (h : build trampoline path s = .ok (some p, t)) :
    ∃ ip u q v, openProgram path s = .ok (some ip, u) ∧ loadProgram trampoline ip u = .ok (.program q, v) := by
  cases hopen : openProgram path s with
  | error e => cases (run_bind_error _ hopen).symm.trans h
  | ok r =>
    obtain ⟨o, u⟩ := r
    have h := (run_bind_ok _ hopen).symm.trans h
    cases o with
    | none => cases h
    | some ip =>
      cases hload : loadProgram trampoline ip u with
      | error e => cases (run_bind_error _ hload).symm.trans h
      | ok r =>
        obtain ⟨l, v⟩ := r
        have h := (run_bind_ok _ hload).symm.trans h
        cases l with
        | program q => exact ⟨ip, u, q, v, rfl, hload⟩
        | bad pagetable sz =>
          cases hbad : bad pagetable sz (some ip) v with
          | error e => cases (run_bind_error _ hbad).symm.trans h
          | ok r => cases (run_bind_ok _ hbad).symm.trans h

/-- The file `a` with the argument "hi". -/
theorem exec_arguments_hi : ∃ t,
    exec 0x80001000 0x80021000 [97] [0x80022000] (process ((disk 0).fs 1)) = .ok (1, t) ∧
      ∃ sp ptrs, ArgumentStack t [[104, 105]] sp ptrs := by
  obtain ⟨p, v, hbuild⟩ := disk_builds (show 0 ∈ _ by decide)
  obtain ⟨ip, u, -, -, hopen, -⟩ := load_of_build hbuild
  obtain ⟨r, t, hrun, hend, hfit⟩ := exec_arguments (process_starts (disk_lookup 0)) hopen
  rcases hend with hr | ⟨rfl, hstack⟩
  · exact absurd ((hfit p v hbuild).mp hr) (by decide)
  · exact ⟨t, hrun, hstack⟩

end Exec

end Xv6
