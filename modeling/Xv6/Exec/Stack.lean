import Xv6.Exec.Basic

/-! # The argument stack

The strings are pushed one below the other, each at a multiple of 16, and the array of pointers below them. What
they take is known before: they fit exactly if their padded sizes do. -/

namespace Xv6

open Phys

namespace Exec

open Vm

variable {s t u : Phys} {root a base sp : UInt64} {M n : ℕ} {X : UInt64 → Option UInt64} {str : List UInt8}
  {argv words : List UInt64} {args : List (List UInt8)} {A : Set UInt64}

/-! ### Sizes -/

/-- So many bytes take a multiple of 16. -/
def pad (n : ℕ) : ℕ := (n + 15) / 16 * 16

/-- What the argument strings take on the stack. -/
def need (args : List (List UInt8)) : ℕ := (args.map fun str => pad (str.length + 1)).sum

theorem need_cons (str : List UInt8) (args : List (List UInt8)) :
    need (str :: args) = pad (str.length + 1) + need args := by
  rw [need, List.map_cons, List.sum_cons, need]

/-- Where the strings are when they are pushed from `sp` down. -/
def layout : ℕ → List (List UInt8) → List ℕ
  | _, [] => []
  | sp, str :: args => (sp - pad (str.length + 1)) :: layout (sp - pad (str.length + 1)) args

theorem pad_spec (n : ℕ) : n ≤ pad n ∧ pad n % 16 = 0 := by
  rw [pad]
  omega

theorem need_mod (args : List (List UInt8)) : need args % 16 = 0 := by
  induction args with
  | nil => rfl
  | cons str args ih =>
    obtain ⟨-, hpad⟩ := pad_spec (str.length + 1)
    rw [need_cons]
    omega

/-- Every string lies between where the pushing began and where it ends. -/
theorem layout_bounds {top : ℕ} (h : need args ≤ top) :
    List.Forall₂ (fun str ptr => top - need args ≤ ptr ∧ ptr + (str.length + 1) ≤ top) args (layout top args) := by
  induction args generalizing top with
  | nil => exact .nil
  | cons str args ih =>
    rw [need_cons] at h ⊢
    obtain ⟨hpad, -⟩ := pad_spec (str.length + 1)
    refine .cons (by omega) ((ih (by omega)).imp ?_)
    rintro str' ptr ⟨hlo, hhi⟩
    omega

/-- The strings go down without touching. -/
theorem layout_pairwise {top : ℕ} (h : need args ≤ top) :
    ((args.zip (layout top args)).Pairwise fun a b => b.2 + (b.1.length + 1) ≤ a.2) := by
  induction args generalizing top with
  | nil => exact .nil
  | cons str args ih =>
    rw [need_cons] at h
    obtain ⟨hpad, -⟩ := pad_spec (str.length + 1)
    refine List.pairwise_cons.mpr ⟨fun b hb => ?_, ih (by omega)⟩
    exact (List.forall₂_iff_zip.mp (layout_bounds (by omega))).2 hb |>.2

theorem length_layout (top : ℕ) (args : List (List UInt8)) : (layout top args).length = args.length := by
  induction args generalizing top with
  | nil => rfl
  | cons str args ih => rw [layout, List.length_cons, List.length_cons, ih]

/-- `sp -= n; sp -= sp % 16`. -/
theorem toNat_push {n : UInt64} (hsp : sp.toNat % 16 = 0) (hn : n.toNat ≤ sp.toNat) :
    (sp - n - (sp - n) % 16).toNat = sp.toNat - pad n.toNat := by
  have hsub : (sp - n).toNat = sp.toNat - n.toNat := UInt64.toNat_sub_of_le _ _ (UInt64.le_iff_toNat_le.mpr hn)
  have hmod : ((sp - n) % 16).toNat = (sp.toNat - n.toNat) % 16 := by
    rw [UInt64.toNat_mod, hsub]
    rfl
  rw [UInt64.toNat_sub_of_le _ _ (UInt64.le_iff_toNat_le.mpr (by omega)), hsub, hmod, pad]
  omega

/-! ### Arguments -/

/-- The string at `a`, with its NUL, is `str`. -/
structure IsString (s : Phys) (a : UInt64) (str : List UInt8) : Prop where
  byte : ∀ i ≤ str.length, s.byte (addr a i) = str.getD i 0
  nonzero : ∀ c ∈ str, c ≠ 0

theorem IsString.hasString (h : IsString s a str) : s.HasString a str.length := by
  refine ⟨fun i hi => ?_, ?_⟩
  · rw [h.byte i hi.le, List.getD_eq_getElem _ _ hi]
    exact h.nonzero _ (List.getElem_mem hi)
  · rw [h.byte _ le_rfl, List.getD_eq_default _ _ le_rfl]

/-- An argument: a string shorter than a page that is in none of the pages of `A`. -/
structure IsArg (s : Phys) (A : Set UInt64) (a : UInt64) (str : List UInt8) : Prop extends IsString s a str where
  lt : str.length < 4096
  outside : ∀ i ≤ str.length, PGROUNDDOWN (addr a i) ∉ A

/-- What happens to the pages of `A` does not matter for the arguments. -/
theorem IsArg.frame {B : Set UInt64} (h : IsArg s A a str) (hw : ∀ q, q ∉ A → t.word q = s.word q)
    (hB : ∀ q, q ∈ B → q ∈ A) : IsArg t B a str where
  byte := by
    intro i hi
    rw [← h.byte i hi]
    exact byte_congr (hw _ (h.outside i hi))
  nonzero := h.nonzero
  lt := h.lt
  outside := fun i hi hq => h.outside i hi (hB _ hq)

/-- The page after the first `M` is a stack: users may write it. -/
structure Stack (s : Phys) (root : UInt64) (M : ℕ) (X : UInt64 → Option UInt64) : Prop where
  space : Space s root (M + 1) X
  notUser : ∀ b e, X b = some e → e &&& PTE_U = 0
  kend : s.kend ≠ 0
  pos : 4096 ≤ M * 4096
  writable : ∀ x, M * 4096 ≤ x → x < M * 4096 + 4096 → Writable s root x

theorem Stack.rewritten (h : Stack s root M X) (hre : Rewritten s t root (M + 1) X) : Stack t root M X where
  space := hre.space
  notUser := h.notUser
  kend := hre.kend.trans_ne h.kend
  pos := h.pos
  writable := by
    intro x hx hx'
    obtain ⟨e, he, hw⟩ := h.writable x hx hx'
    exact ⟨e, hre.userAt.mpr he, hw⟩

theorem Stack.same (h : Stack s root M X) (hs : Same s t root (M + 1) X) (hkend : t.kend = s.kend) :
    Stack t root M X where
  space := hs.space
  notUser := h.notUser
  kend := hkend.trans_ne h.kend
  pos := h.pos
  writable := by
    intro x hx hx'
    obtain ⟨e, he, hw⟩ := h.writable x hx hx'
    exact ⟨e, hs.userAt.mpr he, hw⟩

theorem Stack.arg (hre : Rewritten s t root (M + 1) X) (h : IsArg s (owned s root (M + 1)) a str) :
    IsArg t (owned t root (M + 1)) a str := by
  refine h.frame (fun q hq => hre.word q fun hdata => hq (.inr hdata)) ?_
  rw [hre.owned]
  exact fun _ hq => hq

/-- Copying out to the stack. -/
theorem Stack.copyout {va src len : UInt64} (h : Stack s root M X)
    (hsrc : ∀ i < len.toNat, PGROUNDDOWN (addr src i) ∉ owned s root (M + 1)) (hlo : M * 4096 ≤ va.toNat)
    (hhi : va.toNat + len.toNat ≤ M * 4096 + 4096) :
    Wp (copyout root va src len) (fun _ => False) (fun r t => r = 0 ∧ Rewritten s t root (M + 1) X ∧
      ∀ x < M * 4096 + 4096, virtByte t root x =
        if va.toNat ≤ x ∧ x < va.toNat + len.toNat then some (s.byte (addr src (x - va.toNat)))
        else virtByte s root x) s := by
  have hspec := copyout_virtByte h.space h.notUser h.kend hsrc fun i hi =>
    h.writable (va.toNat + i) (by omega) (by omega)
  rwa [Nat.succ_mul] at hspec

/-- The memory at `ptr` has the string. -/
def StringHere (t : Phys) (root : UInt64) (str : List UInt8) (ptr : ℕ) : Prop :=
  ∀ j ≤ str.length, virtByte t root (ptr + j) = some (str.getD j 0)

/-! ### Pushing the strings -/

/-- How the loop ends, from `sp` down to `M * 4096`. -/
structure PushEnd (s t : Phys) (root : UInt64) (M : ℕ) (X : UInt64 → Option UInt64) (args : List (List UInt8))
    (words : List UInt64) (sp : UInt64) (r : Option (UInt64 × List UInt64)) : Prop where
  rewritten : Rewritten s t root (M + 1) X
  above : ∀ x < M * 4096 + 4096, sp.toNat ≤ x → virtByte t root x = virtByte s root x
  fails : r = none → sp.toNat < M * 4096 + need args
  fits : ∀ sp' words', r = some (sp', words') → sp'.toNat + need args = sp.toNat ∧ M * 4096 ≤ sp'.toNat ∧
    words' = words ++ (layout sp.toNat args).map UInt64.ofNat ∧
    List.Forall₂ (StringHere t root) args (layout sp.toNat args)

theorem strlen_arg (h : IsString s a str) (hlt : str.length < 4096) :
    s.strlenFrom (2 ^ 64) a = str.length := strlenFrom_eq h.hasString (by omega)

theorem pushStrings_spec (h : Stack s root M X) (hargs : List.Forall₂ (IsArg s (owned s root (M + 1))) argv args)
    (hn : words.length + args.length < MAXARG) (hbase : base.toNat = M * 4096) (hsp : sp.toNat % 16 = 0)
    (hlo : M * 4096 ≤ sp.toNat) (hhi : sp.toNat ≤ M * 4096 + 4096) :
    Wp (pushStrings root base argv sp words) (fun _ => False)
      (fun r t => PushEnd s t root M X args words sp r) s := by
  induction argv generalizing s sp words args with
  | nil =>
    obtain rfl := List.forall₂_nil_left_iff.mp hargs
    rw [pushStrings, wp_pure]
    refine ⟨.refl h.space, fun _ _ _ => rfl, nofun, ?_⟩
    rintro sp' words' heq
    obtain ⟨rfl, rfl⟩ : sp = sp' ∧ words = words' := by simpa using heq
    refine ⟨rfl, hlo, ?_, .nil⟩
    rw [layout, List.map_nil, List.append_nil]
  | cons a argv ih =>
    obtain ⟨str, args, harg, hrest, rfl⟩ := List.forall₂_cons_left_iff.mp hargs
    have hlt := harg.lt
    have hpos := h.pos
    rw [List.length_cons] at hn
    obtain ⟨len, hlen⟩ : ∃ len, len = UInt64.ofNat str.length + 1 := ⟨_, rfl⟩
    have hlen' : len.toNat = str.length + 1 := by
      rw [hlen, UInt64.toNat_add, UInt64.toNat_ofNat', show (1 : UInt64).toNat = 1 from rfl]
      omega
    rw [pushStrings, wp_ite]
    refine ⟨fun hge => absurd hge (by omega), fun _ => ?_⟩
    rw [wp_bind, strlen, wp_bind, wp_get, wp_pure, strlen_arg harg.toIsString hlt, ← hlen]
    dsimp only
    -- the new stack pointer
    have hpush := toNat_push (n := len) hsp (by omega)
    obtain ⟨hpad, hpad16⟩ := pad_spec (str.length + 1)
    rw [hlen'] at hpush
    generalize sp - len - (sp - len) % 16 = sp' at hpush ⊢
    rw [wp_ite, UInt64.lt_iff_toNat_lt, hbase]
    refine ⟨fun hover => ?_, fun hok => ?_⟩
    · rw [wp_pure]
      refine ⟨.refl h.space, fun _ _ _ => rfl, fun _ => ?_, nofun⟩
      rw [need_cons]
      omega
    · refine (h.copyout (fun i hi => harg.outside i (by omega)) (by omega) (by omega)).bind ?_
      rintro r t ⟨rfl, hre, hview⟩
      rw [wp_ite]
      refine ⟨fun hneg => absurd hneg (by decide), fun _ => ?_⟩
      have hargs' : List.Forall₂ (IsArg t (owned t root (M + 1))) argv args :=
        hrest.imp fun b str' hb => Stack.arg hre hb
      have hcount : (words ++ [sp']).length + args.length < MAXARG := by
        rw [List.length_append, List.length_singleton]
        omega
      refine (ih (h.rewritten hre) hargs' hcount (by omega) (by omega) (by omega)).mono ?_
      rintro r u hend
      constructor
      case rewritten => exact hre.trans hend.rewritten
      case above =>
        intro x hx hge
        rw [hend.above x hx (by omega), hview x hx, if_neg (by omega)]
      case fails =>
        intro hr
        have hfail := hend.fails hr
        rw [need_cons]
        omega
      case fits =>
        intro sp₂ words₂ hr
        obtain ⟨hsum, hlow, hwords, hstrings⟩ := hend.fits sp₂ words₂ hr
        have hptr : layout sp.toNat (str :: args) = sp'.toNat :: layout sp'.toNat args := by
          rw [layout, ← hpush]
        rw [need_cons, hptr]
        refine ⟨by omega, hlow, ?_, .cons (fun j hj => ?_) hstrings⟩
        · rw [hwords, List.map_cons, UInt64.ofNat_toNat, List.append_assoc, List.singleton_append]
        · -- the strings below do not reach this one
          rw [hend.above _ (by omega) (by omega), hview _ (by omega), if_pos (by omega), Nat.add_sub_cancel_left,
            harg.byte j hj]

/-! ### The array of pointers -/

/-- What the arguments take on the stack, with the array of pointers. -/
def total (args : List (List UInt8)) : ℕ := need args + pad ((args.length + 1) * 8)

/-- The bytes of words, one after the other. -/
def wordBytes (words : List UInt64) : List UInt8 :=
  words.flatMap fun w => (List.range 8).map (WordBytes.byteAt w)

theorem length_wordBytes (words : List UInt64) : (wordBytes words).length = words.length * 8 := by
  induction words with
  | nil => rfl
  | cons w words ih =>
    rw [wordBytes, List.flatMap_cons, List.length_append, List.length_map, List.length_range, ← wordBytes, ih,
      List.length_cons, Nat.succ_mul, Nat.add_comm]

theorem getD_wordBytes {i j : ℕ} (hi : i < words.length) (hj : j < 8) :
    (wordBytes words).getD (i * 8 + j) 0 = WordBytes.byteAt (words.getD i 0) j := by
  induction words generalizing i with
  | nil => exact absurd hi (Nat.not_lt_zero i)
  | cons w words ih =>
    have hfirst : ((List.range 8).map (WordBytes.byteAt w)).length = 8 := by
      rw [List.length_map, List.length_range]
    rw [wordBytes, List.flatMap_cons, ← wordBytes]
    cases i with
    | zero =>
      rw [Nat.zero_mul, Nat.zero_add, List.getD_append _ _ _ _ (by omega), List.getD_cons_zero,
        List.getD_eq_getElem _ _ (by omega), List.getElem_map, List.getElem_range]
    | succ i =>
      rw [List.length_cons] at hi
      rw [List.getD_append_right _ _ _ _ (by omega), hfirst, List.getD_cons_succ, ← ih (by omega)]
      congr 1
      omega

/-- The page of the kernel stack is nobody else's, and the array lies in it. -/
structure KernelStack (s : Phys) (A : Set UInt64) (ustack : UInt64) : Prop where
  isPage : s.IsPage (PGROUNDDOWN ustack)
  notFree : PGROUNDDOWN ustack ∉ s.freelist
  outside : PGROUNDDOWN ustack ∉ A
  within : ustack.toNat % 4096 + MAXARG * 8 ≤ 4096

theorem PGROUNDDOWN_within {i : ℕ} (h : a.toNat % 4096 + n ≤ 4096) (hi : i < n) :
    PGROUNDDOWN (addr a i) = PGROUNDDOWN a := by
  have ha := a.toNat_lt
  apply UInt64.toNat_inj.mp
  rw [toNat_PGROUNDDOWN, toNat_PGROUNDDOWN, toNat_addr_of_lt (by omega)]
  omega

/-- The arguments are on the stack, with `sp` at the array of pointers to them. -/
structure Arguments (t : Phys) (root : UInt64) (M : ℕ) (args : List (List UInt8)) (sp : UInt64) : Prop where
  sum : sp.toNat + total args = M * 4096 + 4096
  base : M * 4096 ≤ sp.toNat
  aligned : sp.toNat % 16 = 0
  strings : List.Forall₂ (StringHere t root) args (layout (M * 4096 + 4096) args)
  pointers : ∀ i ≤ args.length, ∀ j < 8, virtByte t root (sp.toNat + (i * 8 + j)) =
    some (WordBytes.byteAt (UInt64.ofNat ((layout (M * 4096 + 4096) args).getD i 0)) j)

theorem Arguments.same {X : UInt64 → Option UInt64} (h : Arguments s root M args sp)
    (hs : Same s t root (M + 1) X) : Arguments t root M args sp := by
  have hsum := h.sum
  have htop : ∀ x, x < M * 4096 + 4096 → virtByte t root x = virtByte s root x := fun x hx =>
    hs.virtByte (by rwa [Nat.succ_mul])
  rw [total] at hsum
  refine ⟨h.sum, h.base, h.aligned, ?_, fun i hi j hj => ?_⟩
  · refine h.strings.mp ?_ (layout_bounds (by omega))
    rintro str ptr hhere ⟨hlo, hhi⟩ j hj
    rw [htop _ (by omega), hhere j hj]
  · obtain ⟨hpad, -⟩ := pad_spec ((args.length + 1) * 8)
    rw [htop _ (by omega), h.pointers i hi j hj]

/-- The arguments are pushed, and the kernel stack is used for that. -/
structure Pushed (s t : Phys) (root : UInt64) (M : ℕ) (X : UInt64 → Option UInt64) (args : List (List UInt8))
    (ustack sp : UInt64) : Prop extends Arguments t root M args sp where
  moves : Moves s t (owned s root (M + 1) ∪ {PGROUNDDOWN ustack}) (owned t root (M + 1) ∪ {PGROUNDDOWN ustack})
  stack : Stack t root M X

/-- The array is written to the kernel stack. -/
theorem spill_spec {ustack : UInt64} {l : List UInt8} (h : Stack s root M X)
    (hk : KernelStack s (owned s root (M + 1)) ustack) (hl : l.length ≤ MAXARG * 8) :
    Filled s (s.setBytes ustack l) ustack l ∧
      Moves s (s.setBytes ustack l) {PGROUNDDOWN ustack} {PGROUNDDOWN ustack} := by
  have hwithin := hk.within
  have hfilled := setBytes_filled s ustack (l := l) (by omega)
  refine ⟨hfilled, ?_, hfilled.kend⟩
  rw [hfilled.freelist]
  refine .write h.space.pageTable.kmem.nodup ?_ fun q hq => hfilled.word q fun i hi heq => hq ?_
  · rintro q rfl
    exact hk.notFree
  · rw [heq]
    exact PGROUNDDOWN_within hk.within (by omega)

theorem pushArgs_spec {sz ustack : UInt64} (h : Stack s root M X)
    (hargs : List.Forall₂ (IsArg s (owned s root (M + 1))) argv args) (hn : args.length < MAXARG)
    (hsz : sz.toNat = M * 4096 + 4096) (hk : KernelStack s (owned s root (M + 1)) ustack) :
    Wp (pushArgs root sz ustack argv) (fun _ => False)
      (fun r t => (r = none ∧ USERSTACK * PGSIZE < total args ∧ Rewritten s t root (M + 1) X) ∨
        ∃ sp, r = some (sp, args.length) ∧ total args ≤ USERSTACK * PGSIZE ∧
          Pushed s t root M X args ustack sp) s := by
  have hpos := h.pos
  have hbase : (sz - 4096 * UInt64.ofNat USERSTACK).toNat = M * 4096 := by
    have hle : (4096 : UInt64) ≤ sz := by
      rw [UInt64.le_iff_toNat_le, hsz]
      exact Nat.le_add_left ..
    rw [show 4096 * UInt64.ofNat USERSTACK = 4096 from rfl, UInt64.toNat_sub_of_le _ _ hle, hsz]
    exact Nat.add_sub_cancel ..
  have hn32 : args.length < 32 := hn
  have hsz16 : sz.toNat % 16 = 0 := by
    rw [hsz]
    omega
  rw [pushArgs]
  refine (pushStrings_spec h hargs (by rw [List.length_nil]; omega) hbase hsz16 (by omega) hsz.le).bind ?_
  rintro r s₁ hend
  rw [show USERSTACK * PGSIZE = 4096 from rfl]
  cases r with
  | none =>
    have hfail := hend.fails rfl
    rw [wp_pure]
    refine .inl ⟨rfl, ?_, hend.rewritten⟩
    rw [total]
    omega
  | some r =>
    obtain ⟨sp, words⟩ := r
    obtain ⟨hsum, hlow, hwords, hstrings⟩ := hend.fits sp words rfl
    rw [List.nil_append] at hwords
    rw [hsz] at hsum hstrings hwords
    have hlayout := length_layout (M * 4096 + 4096) args
    have hcount : words.length = args.length := by rw [hwords, List.length_map, hlayout]
    have hneed16 : need args % 16 = 0 := need_mod args
    obtain ⟨len, hlen⟩ : ∃ len, len = UInt64.ofNat (words.length + 1) * 8 := ⟨_, rfl⟩
    have hlen' : len.toNat = (args.length + 1) * 8 := by
      rw [hlen, UInt64.toNat_mul, UInt64.toNat_ofNat', show (8 : UInt64).toNat = 8 from rfl, hcount]
      omega
    dsimp only
    rw [← hlen]
    have hpush : (sp - len - (sp - len) % 16).toNat = sp.toNat - pad len.toNat :=
      toNat_push (by omega) (by omega)
    obtain ⟨hpad, hpad16⟩ := pad_spec ((args.length + 1) * 8)
    rw [hlen'] at hpush
    have hpadle : pad ((args.length + 1) * 8) ≤ 4096 := by
      rw [pad]
      omega
    generalize sp - len - (sp - len) % 16 = sp' at hpush ⊢
    rw [wp_ite, UInt64.lt_iff_toNat_lt, hbase]
    refine ⟨fun hover => ?_, fun hok => ?_⟩
    · rw [wp_pure]
      refine .inl ⟨rfl, ?_, hend.rewritten⟩
      rw [total]
      omega
    have hstack₁ := h.rewritten hend.rewritten
    have hk₁ : KernelStack s₁ (owned s₁ root (M + 1)) ustack :=
      ⟨hk.isPage.of_kend hend.rewritten.kend, hend.rewritten.freelist ▸ hk.notFree,
        hend.rewritten.owned ▸ hk.outside, hk.within⟩
    rw [wp_bind, wp_modify, ← wordBytes]
    have hbytes : (wordBytes (words ++ [0])).length = (args.length + 1) * 8 := by
      rw [length_wordBytes, List.length_append, List.length_singleton, hcount]
    obtain ⟨hfilled, hspill⟩ := spill_spec (l := wordBytes (words ++ [0])) hstack₁ hk₁
      (by rw [hbytes]; exact Nat.mul_le_mul_right 8 hn)
    generalize s₁.setBytes ustack (wordBytes (words ++ [0])) = s₂ at hfilled hspill ⊢
    have hsame : Same s₁ s₂ root (M + 1) X := by
      refine hstack₁.space.frame hspill ?_ ?_
      · rintro q rfl
        exact hk₁.isPage
      · rintro q hq rfl
        exact hk₁.outside hq
    have hstack₂ := hstack₁.same hsame hspill.kend
    have hsrc : ∀ i < len.toNat, PGROUNDDOWN (addr ustack i) ∉ owned s₂ root (M + 1) := by
      intro i hi
      rw [PGROUNDDOWN_within hk.within (by omega), hsame.owned]
      exact hk₁.outside
    refine (hstack₂.copyout hsrc (by omega) (by omega)).bind ?_
    rintro r t ⟨rfl, hre, hview⟩
    rw [wp_ite]
    refine ⟨fun hneg => absurd hneg (by decide), fun _ => ?_⟩
    rw [wp_pure, hcount]
    refine .inr ⟨sp', rfl, by rw [total]; omega, ?_⟩
    have htop : ∀ x, x < M * 4096 + 4096 → x < (M + 1) * 4096 := fun x hx => by rwa [Nat.succ_mul]
    constructor
    case moves =>
      have hstack : ∀ m : Phys, KernelStack m (owned m root (M + 1)) ustack →
          (∀ q ∈ ({PGROUNDDOWN ustack} : Set UInt64), q ∉ owned m root (M + 1)) ∧
            ∀ q ∈ ({PGROUNDDOWN ustack} : Set UInt64), q ∉ m.freelist := by
        intro m hm
        refine ⟨?_, ?_⟩
        all_goals rintro q rfl
        exacts [hm.outside, hm.notFree]
      have hk₂ : KernelStack s₂ (owned s₂ root (M + 1)) ustack :=
        ⟨hk₁.isPage.of_kend hspill.kend, hfilled.freelist ▸ hk₁.notFree, hsame.owned ▸ hk₁.outside, hk.within⟩
      have hm₁ := (moves_add hend.rewritten.moves (hstack s hk).1 (hstack s hk).2).1
      have hm₂ := (moves_add (F := owned s₁ root (M + 1)) hspill
        (fun q hq hqk => hk₁.outside (hqk ▸ hq)) hstack₁.space.notFree).1
      have hm₃ := (moves_add hre.moves (hstack s₂ hk₂).1 (hstack s₂ hk₂).2).1
      rw [Set.union_comm] at hm₂
      rw [hsame.owned] at hm₃
      exact (hm₁.trans hm₂).trans hm₃
    case stack => exact hstack₂.rewritten hre
    case toArguments =>
      constructor
      case sum =>
        rw [total]
        omega
      case base => omega
      case aligned => omega
      case strings =>
        refine hstrings.mp ?_ (layout_bounds (by omega))
        rintro str ptr hhere ⟨hlo, hhi⟩ j hj
        -- the array lies below the strings
        rw [hview _ (by omega), if_neg (by omega), hsame.virtByte (htop _ (by omega)), hhere j hj]
      case pointers =>
        intro i hi j hj
        rw [hview _ (by omega), if_pos (by omega), Nat.add_sub_cancel_left, hfilled.byte _ (by omega),
          getD_wordBytes (by rw [List.length_append, List.length_singleton]; omega) hj, hwords]
        congr 2
        rcases Nat.lt_or_eq_of_le hi with hlt | rfl
        · rw [List.getD_append _ _ _ _ (by rw [List.length_map]; omega),
            List.getD_eq_getElem _ _ (by rw [List.length_map]; omega), List.getElem_map,
            List.getD_eq_getElem _ _ (by omega)]
        · rw [List.getD_append_right _ _ _ _ (by rw [List.length_map]; omega), List.length_map, hlayout,
            Nat.sub_self, List.getD_cons_zero, List.getD_eq_default _ _ hlayout.le]
          rfl

end Exec

end Xv6
