import Xv6.Vm.Copy

/-! # Strings from user space

`copyinstr` of `kernel/vm.c` copies the bytes of a string up to and including its NUL, page by page, and no
more than `max` of them. -/

namespace Xv6.Vm

/-! ### The function -/

/-- The loop over the bytes of a page: whether the NUL was there, with `dst` and `max` as the loop leaves
them. -/
def copyinstrPage : ℕ → UInt64 → UInt64 → UInt64 → VmM (Bool × UInt64 × UInt64)
  | 0, _, dst, max => return (false, dst, max)
  | n + 1, p, dst, max => do
    let c := (← get).byte p
    if c = 0 then
      modify fun s => s.setByte dst 0
      return (true, dst, max)
    modify fun s => s.setByte dst c
    copyinstrPage n (p + 1) (dst + 1) (max - 1)

/-- The loop of `copyinstr`. The first argument is at least `max`: a round copies a byte, or finds the NUL. -/
def copyinstrLoop (pagetable : UInt64) : ℕ → Bool → UInt64 → UInt64 → UInt64 → VmM Int
  | 0, got_null, _, _, _ => return if got_null then 0 else -1
  | k + 1, got_null, dst, srcva, max => do
    if got_null = false ∧ max ≠ 0 then
      let va0 := PGROUNDDOWN srcva
      match ← walkaddr pagetable va0 with
      | none => return -1
      | some pa0 =>
        if pa0 = 0 then return -1
        let n := chunk srcva max
        let (got_null, dst, max) ← copyinstrPage n.toNat (pa0 + (srcva - va0)) dst max
        copyinstrLoop pagetable k got_null dst (va0 + 4096) max
    else
      return if got_null then 0 else -1

/-- Copy a null-terminated string from user to kernel. -/
def copyinstr (pagetable dst srcva max : UInt64) : VmM Int :=
  copyinstrLoop pagetable max.toNat false dst srcva max

/-! ### One page -/

variable {s t u : Phys} {root va dst max p e : UInt64} {x y i k n : ℕ}

/-- How the loop over a page ends: with the first NUL, or with all of the bytes copied. -/
def PageEnd (s t : Phys) (dst p max : UInt64) (n : ℕ) (r : Bool × UInt64 × UInt64) : Prop :=
  (∃ k < n, r.1 = true ∧ s.Copied t dst p (k + 1) ∧ (∀ i < k, s.byte (addr p i) ≠ 0) ∧ s.byte (addr p k) = 0) ∨
    r = (false, addr dst n, max - UInt64.ofNat n) ∧ s.Copied t dst p n ∧ ∀ i < n, s.byte (addr p i) ≠ 0

theorem copyinstrPage_spec (hn : n < 2 ^ 64) (hdisj : ∀ i < n, ∀ j < n, addr dst i ≠ addr p j) :
    Wp (copyinstrPage n p dst max) (fun _ => False) (fun r t => PageEnd s t dst p max n r) s := by
  induction n generalizing s p dst max with
  | zero =>
    rw [copyinstrPage, wp_pure]
    exact .inr ⟨by simp, .zero s dst p, nofun⟩
  | succ n ih =>
    rw [copyinstrPage]
    simp only [wp_bind, wp_get, wp_ite, wp_modify, wp_pure]
    refine ⟨fun h0 => ?_, fun h0 => ?_⟩
    · refine .inl ⟨0, by omega, rfl, ?_, nofun, by rwa [addr_zero]⟩
      rw [← h0]
      exact .cons (by omega) (fun i hi j hj => hdisj i (by omega) j (by omega)) (.zero _ _ _)
    · refine (ih (by omega) (Phys.disjoint_tail hdisj)).mono ?_
      -- the bytes still to come are those of the memory at the start
      have hlater : ∀ i < n, (s.setByte dst (s.byte p)).byte (addr (p + 1) i) = s.byte (addr p (i + 1)) := by
        intro i hi
        rw [addr_succ, Phys.byte_setByte_of_ne]
        rw [← addr_succ, ← addr_zero dst]
        exact (hdisj 0 (by omega) (i + 1) (by omega)).symm
      have hnz : ∀ k ≤ n, (∀ i < k, (s.setByte dst (s.byte p)).byte (addr (p + 1) i) ≠ 0) →
          ∀ i < k + 1, s.byte (addr p i) ≠ 0 := by
        intro k hk h i hi
        cases i with
        | zero => rwa [addr_zero]
        | succ i =>
          rw [← hlater i (by omega)]
          exact h i (by omega)
      rintro r t (⟨k, hk, hr, hcopied, hbefore, hnul⟩ | ⟨hr, hcopied, hbefore⟩)
      · refine .inl ⟨k + 1, by omega, hr, ?_, hnz k hk.le hbefore, hlater k hk ▸ hnul⟩
        exact .cons (by omega) (fun i hi j hj => hdisj i (by omega) j (by omega)) hcopied
      · refine .inr ⟨?_, .cons (by omega) hdisj hcopied, hnz n le_rfl hbefore⟩
        have hmax : max - 1 - UInt64.ofNat n = max - UInt64.ofNat (n + 1) := by
          rw [UInt64.ofNat_add, sub_sub, add_comm]
          rfl
        rw [hr, addr_succ, hmax]

/-! ### Strings -/

/-- The string at `x` that users may read has `k` bytes before its NUL. -/
structure StringAt (s : Phys) (root : UInt64) (x k : ℕ) : Prop where
  readable : ∀ i ≤ k, Readable s root (x + i)
  before : ∀ i < k, ∀ e, UserAt s root (x + i) e → s.byte (physAt e (x + i)) ≠ 0
  nul : ∀ e, UserAt s root (x + k) e → s.byte (physAt e (x + k)) = 0

/-- A string has one length. -/
theorem StringAt.unique (h : StringAt s root x k) (h' : StringAt s root x n) : k = n := by
  rcases Nat.lt_trichotomy k n with hlt | heq | hgt
  · obtain ⟨e, he⟩ := h.readable k le_rfl
    exact absurd (h.nul e he) (h'.before k hlt e he)
  · exact heq
  · obtain ⟨e, he⟩ := h'.readable n le_rfl
    exact absurd (h'.nul e he) (h.before n hgt e he)

/-- Memory that agrees on the string and on the entries of its pages has the same string. -/
theorem StringAt.congr {root' : UInt64} (h : StringAt s root x k)
    (hagree : ∀ i ≤ k, ∀ e, UserAt s root (x + i) e →
      UserAt t root' (x + i) e ∧ t.byte (physAt e (x + i)) = s.byte (physAt e (x + i))) :
    StringAt t root' x k where
  readable := fun i hi => by
    obtain ⟨e, he⟩ := h.readable i hi
    exact ⟨e, (hagree i hi e he).1⟩
  before := fun i hi e' he' => by
    obtain ⟨e, he⟩ := h.readable i hi.le
    obtain ⟨het, hbyte⟩ := hagree i hi.le e he
    rw [← het.unique he', hbyte]
    exact h.before i hi e he
  nul := fun e' he' => by
    obtain ⟨e, he⟩ := h.readable k le_rfl
    obtain ⟨het, hbyte⟩ := hagree k le_rfl e he
    rw [← het.unique he', hbyte]
    exact h.nul e he

/-- After `n` bytes that are no NUL, the string goes on. -/
theorem stringAt_add (hread : ∀ i < n, ∃ e, UserAt s root (x + i) e ∧ s.byte (physAt e (x + i)) ≠ 0) :
    StringAt s root x (n + k) ↔ StringAt s root (x + n) k := by
  constructor
  · intro h
    refine ⟨fun i hi => ?_, fun i hi => ?_, ?_⟩
    · rw [Nat.add_assoc]
      exact h.readable (n + i) (by omega)
    · rw [Nat.add_assoc]
      exact h.before (n + i) (by omega)
    · rw [Nat.add_assoc]
      exact h.nul
  · intro h
    have hsplit : ∀ i, n ≤ i → x + i = x + n + (i - n) := fun i hi => by omega
    refine ⟨fun i hi => ?_, fun i hi e he => ?_, ?_⟩
    · rcases Nat.lt_or_ge i n with hin | hge
      · obtain ⟨e, he, -⟩ := hread i hin
        exact ⟨e, he⟩
      · rw [hsplit i hge]
        exact h.readable (i - n) (by omega)
    · rcases Nat.lt_or_ge i n with hin | hge
      · obtain ⟨e', he', hne⟩ := hread i hin
        exact he'.unique he ▸ hne
      · rw [hsplit i hge] at he ⊢
        exact h.before (i - n) (by omega) e he
    · rw [← Nat.add_assoc]
      exact h.nul

/-- No string ends among bytes that are no NUL. -/
theorem not_stringAt (hread : ∀ i < n, ∃ e, UserAt s root (x + i) e ∧ s.byte (physAt e (x + i)) ≠ 0)
    (hk : k < n) : ¬ StringAt s root x k := by
  intro h
  obtain ⟨e, he, hne⟩ := hread k hk
  exact hne (h.nul e he)

/-! ### The loop -/

/-- How `copyinstr` ends. -/
def CopyinstrEnd (s t : Phys) (root dst : UInt64) (va n : ℕ) (r : Int) : Prop :=
  (∃ k < n, r = 0 ∧ StringAt s root va k ∧ Loaded s t root dst va (k + 1)) ∨
    r = -1 ∧ ∀ k < n, ¬ StringAt s root va k

theorem stringAt_frame (h : BufferOnly s u dst n) (hbuf : KernelBuffer s root dst n) :
    StringAt u root x k ↔ StringAt s root x k := by
  have huser : ∀ {y e}, UserAt u root y e ↔ UserAt s root y e := userAt_frame (h.tables hbuf)
  constructor
  · intro hstr
    refine hstr.congr fun i _ e he => ⟨huser.mp he, ?_⟩
    exact (h.user hbuf (huser.mp he)).symm
  · intro hstr
    exact hstr.congr fun i _ e he => ⟨huser.mpr he, h.user hbuf he⟩

theorem BufferOnly.mono {m : ℕ} (h : BufferOnly s t dst m) (hmn : m ≤ n) : BufferOnly s t dst n where
  byte := fun a ha => h.byte a fun i hi => ha i (by omega)
  word := fun p hp => h.word p fun i hi => hp i (by omega)
  freelist := h.freelist
  kend := h.kend

theorem copyinstrLoop_true : Wp (copyinstrLoop root k true dst va max) (fun _ => False)
    (fun r t => r = 0 ∧ t = s) s := by
  cases k with
  | zero =>
    rw [copyinstrLoop, wp_pure]
    exact ⟨rfl, rfl⟩
  | succ k =>
    rw [copyinstrLoop, if_neg (by simp), wp_pure]
    exact ⟨rfl, rfl⟩

section Pages

variable {n : UInt64} (hround : Round va max n) (he : UserAt s root va.toNat e)

include hround he

/-- The page has the NUL. -/
theorem copyinstrEnd_here (hk : k < n.toNat) (hcopied : s.Copied t dst (physAt e va.toNat) (k + 1))
    (hbefore : ∀ i < k, s.byte (addr (physAt e va.toNat) i) ≠ 0)
    (hnul : s.byte (addr (physAt e va.toNat) k) = 0) :
    BufferOnly s t dst max.toNat ∧ CopyinstrEnd s t root dst va.toNat max.toNat 0 := by
  have hle := hround.le
  have haddr : ∀ i ≤ k, addr (physAt e va.toNat) i = physAt e (va.toNat + i) :=
    fun i hi => addr_physAt (hround.page i (by omega))
  have huser : ∀ i ≤ k, UserAt s root (va.toNat + i) e := fun i hi => he.congr (hround.page i (by omega))
  obtain ⟨honly, hloaded⟩ := loaded_of_copied hcopied he fun i hi => hround.page i (by omega)
  refine ⟨honly.mono (by omega), .inl ⟨k, by omega, rfl, ⟨fun i hi => ⟨e, huser i hi⟩, ?_, ?_⟩, hloaded⟩⟩
  · intro i hi e' he'
    rw [← (huser i hi.le).unique he', ← haddr i hi.le]
    exact hbefore i hi
  · intro e' he'
    rw [← (huser k le_rfl).unique he', ← haddr k le_rfl]
    exact hnul

/-- The page has no NUL: the string goes on in the next one. -/
theorem copyinstrEnd_later {r : Int} (hbuf : KernelBuffer s root dst max.toNat)
    (hcopied : s.Copied u dst (physAt e va.toNat) n.toNat)
    (hbefore : ∀ i < n.toNat, s.byte (addr (physAt e va.toNat) i) ≠ 0)
    (honly' : BufferOnly u t (addr dst n.toNat) (max - n).toNat)
    (hend : CopyinstrEnd u t root (addr dst n.toNat) (PGROUNDDOWN va + 4096).toNat
      (max - n).toNat r) :
    BufferOnly s t dst max.toNat ∧ CopyinstrEnd s t root dst va.toNat max.toNat r := by
  have hle := hround.le
  have hrest := hround.rest
  have hnext := hround.next he.lt
  have hmax := max.toNat_lt
  obtain ⟨honly, hloaded⟩ := loaded_of_copied hcopied he hround.page
  have hhere := hbuf.take hle
  have hread : ∀ i < n.toNat, ∃ e, UserAt s root (va.toNat + i) e ∧
      s.byte (physAt e (va.toNat + i)) ≠ 0 := by
    intro i hi
    refine ⟨e, he.congr (hround.page i hi), ?_⟩
    rw [← addr_physAt (hround.page i hi)]
    exact hbefore i hi
  -- a string from the next page on is the rest of one from here on
  have hstring : ∀ k < (max - n).toNat, StringAt u root (PGROUNDDOWN va + 4096).toNat k ↔
      StringAt s root va.toNat (n.toNat + k) := by
    intro k hk
    have hstart := hnext 0 (by omega)
    rw [Nat.add_zero, Nat.add_zero] at hstart
    rw [stringAt_frame honly hhere, stringAt_add hread, hstart]
  constructor
  · exact (honly.trans honly').mono (by omega)
  · rcases hend with ⟨k, hk, hr, hstr, hl⟩ | ⟨hr, hnone⟩
    · refine .inl ⟨n.toNat + k, by omega, hr, (hstring k hk).mp hstr, ?_⟩
      rw [Nat.add_assoc]
      exact Loaded.trans honly hloaded honly' hl hhere (by omega) (by omega) fun i hi => hnext i (by omega)
    · refine .inr ⟨hr, fun k hk hstr => ?_⟩
      rcases Nat.lt_or_ge k n.toNat with hlt | hge
      · exact not_stringAt hread hlt hstr
      · obtain ⟨j, rfl⟩ : ∃ j, k = n.toNat + j := ⟨k - n.toNat, by omega⟩
        exact hnone j (by omega) ((hstring j (by omega)).mpr hstr)

end Pages

theorem copyinstrLoop_spec (va : UInt64) (hnz : ∀ x e, UserAt s root x e → PTE2PA e ≠ 0)
    (hbuf : KernelBuffer s root dst max.toNat) (hk : max.toNat ≤ k) :
    Wp (copyinstrLoop root k false dst va max) (fun _ => False)
      (fun r t => BufferOnly s t dst max.toNat ∧ CopyinstrEnd s t root dst va.toNat max.toNat r) s := by
  induction k generalizing s va dst max with
  | zero =>
    rw [copyinstrLoop, wp_pure]
    have hmax : max.toNat = 0 := by omega
    rw [hmax]
    exact ⟨.refl s dst _, .inr ⟨rfl, nofun⟩⟩
  | succ k ih =>
    rw [copyinstrLoop]
    simp only [wp_ite, wp_bind, wp_pure]
    refine ⟨fun h => ?_, fun h => ?_⟩
    · have h0 := h.2
      have hpos : 0 < max.toNat := Nat.pos_of_ne_zero fun h => h0 (UInt64.toNat_inj.mp h)
      rw [wp_walkaddr]
      by_cases hread : Readable s root va.toNat
      · obtain ⟨e, he⟩ := hread
        rw [walkaddr_some he]
        dsimp only
        rw [if_neg (hnz _ e he), physAt_toNat, wp_bind]
        have hround := chunk_round va max
        generalize chunk va max = n at hround ⊢
        have hle := hround.le
        have hrest := hround.rest
        have hchunk := hround.pos h0
        refine (copyinstrPage_spec hround.lt (hbuf.disjoint hround he)).mono ?_
        rintro ⟨got, dst', max'⟩ u (⟨k', hk', hgot, hcopied, hbefore, hnul⟩ | ⟨heq, hcopied, hbefore⟩)
        · obtain rfl : got = true := hgot
          refine copyinstrLoop_true.mono ?_
          rintro r t ⟨rfl, rfl⟩
          exact copyinstrEnd_here hround he hk' hcopied hbefore hnul
        · rw [UInt64.ofNat_toNat] at heq
          obtain ⟨rfl, rfl, rfl⟩ : got = false ∧ dst' = addr dst n.toNat ∧
            max' = max - n := by simpa using heq
          have hwords := (loaded_of_copied hcopied he hround.page).1.tables (hbuf.take hle)
          have hrestbuf := (hbuf.drop (k := n.toNat) (m := (max - n).toNat)
            (by omega)).frame hwords
          refine (ih _ (fun x e hx => hnz x e ((userAt_frame hwords).mp hx)) hrestbuf (by omega)).mono ?_
          rintro r t ⟨honly, hend⟩
          exact copyinstrEnd_later hround he hbuf hcopied hbefore honly hend
      · rw [walkaddr_none hread]
        refine ⟨.refl s dst _, .inr ⟨rfl, fun k hk hstr => hread ?_⟩⟩
        exact hstr.readable 0 (by omega)
    · have hmax : max.toNat = 0 := by
        by_contra hne
        exact h ⟨trivial, fun h0 => hne (congrArg UInt64.toNat h0)⟩
      rw [hmax]
      exact ⟨.refl s dst _, .inr ⟨rfl, nofun⟩⟩

/-! ### The whole call -/

/-- **`copyinstr` copies exactly the string.** Whatever address and limit are asked for, it returns `0` if the
string that users may read there has its NUL within the limit, and then the buffer holds it with the NUL, and
`-1` otherwise. It writes no byte beyond the limit, and memory that agrees up to the NUL gives the same
string, whatever comes after it. -/
theorem copyinstr_exact (hnz : ∀ x e, UserAt s root x e → PTE2PA e ≠ 0)
    (hbuf : KernelBuffer s root dst max.toNat) (va : UInt64) :
    ∃ r t, copyinstr root dst va max s = .ok (r, t) ∧ (r = 0 ∨ r = -1) ∧
      (r = 0 ↔ ∃ k < max.toNat, StringAt s root va.toNat k) ∧
      (∀ k < max.toNat, StringAt s root va.toNat k → Loaded s t root dst va.toNat (k + 1)) ∧
      (∀ a, (∀ i < max.toNat, a ≠ addr dst i) → t.byte a = s.byte a) ∧
      ∀ k < max.toNat, StringAt s root va.toNat k → ∀ s' root',
        (∀ x e, UserAt s' root' x e → PTE2PA e ≠ 0) → KernelBuffer s' root' dst max.toNat →
        (∀ i ≤ k, ∀ e, UserAt s root (va.toNat + i) e → UserAt s' root' (va.toNat + i) e ∧
          s'.byte (physAt e (va.toNat + i)) = s.byte (physAt e (va.toNat + i))) →
        ∃ t', copyinstr root' dst va max s' = .ok (0, t') ∧
          ∀ i ≤ k, t'.byte (addr dst i) = t.byte (addr dst i) := by
  obtain ⟨r, t, hrun, honly, hend⟩ := (copyinstrLoop_spec va hnz hbuf le_rfl).total
  have hloaded : ∀ k < max.toNat, StringAt s root va.toNat k → r = 0 ∧ Loaded s t root dst va.toNat (k + 1) := by
    intro k hk hstr
    rcases hend with ⟨k', -, hr, hstr', hl⟩ | ⟨-, hnone⟩
    · exact ⟨hr, hstr'.unique hstr ▸ hl⟩
    · exact absurd hstr (hnone k hk)
  refine ⟨r, t, hrun, ?_, ⟨fun hr => ?_, fun ⟨k, hk, hstr⟩ => (hloaded k hk hstr).1⟩,
    fun k hk hstr => (hloaded k hk hstr).2, honly.byte, fun k hk hstr s' root' hnz' hbuf' hagree => ?_⟩
  · rcases hend with ⟨-, -, hr, -⟩ | ⟨hr, -⟩
    exacts [.inl hr, .inr hr]
  · rcases hend with ⟨k, hk, -, hstr, -⟩ | ⟨hr', -⟩
    · exact ⟨k, hk, hstr⟩
    · exact absurd (hr.symm.trans hr') (by decide)
  · have hstr' := hstr.congr hagree
    obtain ⟨r', t', hrun', -, hend'⟩ := (copyinstrLoop_spec va hnz' hbuf' le_rfl).total
    rcases hend' with ⟨k', -, rfl, hstr'', hl'⟩ | ⟨-, hnone⟩
    · refine ⟨t', hrun', fun i hi => ?_⟩
      obtain rfl := hstr''.unique hstr'
      obtain ⟨e, he⟩ := hstr.readable i hi
      obtain ⟨he', hbyte⟩ := hagree i hi e he
      rw [hl' i (by omega) e he', (hloaded _ hk hstr).2 i (by omega) e he, hbyte]
    · exact absurd hstr' (hnone k hk)

/-- A string of one letter: the NUL is the first byte of the next page. -/
def oneLetter : Phys := apart.setByte 0x80004fff 104

theorem oneLetter_tables : ∀ p ∈ apart.tables 0x80001000, oneLetter.word p = apart.word p := by
  intro p hp
  refine Phys.word_setByte fun heq => ?_
  exact absurd (tables_twoPages hp) (by rw [heq]; decide)

theorem userAt_oneLetter (hi : i ≤ 0x1000) : UserAt oneLetter 0x80001000 (0x1fefff + i)
    (if i = 0 then PA2PTE 0x80004000 ||| 0x17 else PA2PTE 0x80005000 ||| 0x17) := by
  refine (userAt_frame oneLetter_tables).mpr ?_
  split
  · rename_i h0
    obtain rfl := h0
    exact ⟨by decide, rfl, by decide⟩
  · have hnext : UserAt apart 0x80001000 0x1ff000 (PA2PTE 0x80005000 ||| 0x17) := ⟨by decide, rfl, by decide⟩
    exact hnext.congr (by omega)

theorem stringAt_oneLetter : StringAt oneLetter 0x80001000 0x1fefff 1 := by
  refine ⟨fun i hi => ⟨_, userAt_oneLetter (by omega)⟩, fun i hi e he => ?_, fun e he => ?_⟩
  · obtain rfl : i = 0 := by omega
    rw [← (userAt_oneLetter (by decide)).unique he]
    decide +kernel
  · rw [← (userAt_oneLetter (by decide)).unique he]
    decide +kernel

theorem copyinstr_exact_oneLetter : ∃ t, copyinstr 0x80001000 0x80006000 0x1fefff 9 oneLetter = .ok (0, t) := by
  obtain ⟨r, t, hrun, -, hiff, -⟩ := copyinstr_exact
    (fun x e h => separate_apart.ne_zero x e ((userAt_frame oneLetter_tables).mp h))
    (show KernelBuffer _ _ _ (9 : UInt64).toNat from kernelBuffer_apart.frame oneLetter_tables) 0x1fefff
  obtain rfl := hiff.mpr ⟨1, by decide, stringAt_oneLetter⟩
  exact ⟨t, hrun⟩

/-- A page at physical address zero. -/
def pageZero : Phys := twoPages (PA2PTE 0 ||| 0x17) (PA2PTE 0x80004000 ||| 0x17)

/-- A string of two letters, the second one in the next page. -/
def twoLetters : Phys := oneLetter.setByte 0x80005000 105

theorem stringAt_pageZero : StringAt pageZero 0x80001000 0x1fe000 0 := by
  have huser : UserAt pageZero 0x80001000 0x1fe000 (PA2PTE 0 ||| 0x17) := ⟨by decide, rfl, by decide⟩
  refine ⟨fun i hi => ?_, nofun, fun e he => ?_⟩
  · obtain rfl : i = 0 := by omega
    exact ⟨_, huser⟩
  · rw [← huser.unique he]
    decide +kernel

theorem stringAt_twoLetters : StringAt twoLetters 0x80001000 0x1fefff 2 := by
  have hwords : ∀ p ∈ oneLetter.tables 0x80001000, twoLetters.word p = oneLetter.word p := by
    intro p hp
    refine Phys.word_setByte fun heq => ?_
    rw [tables_frame oneLetter_tables] at hp
    exact absurd (tables_twoPages hp) (by rw [heq]; decide)
  have huser : ∀ i ≤ 2, UserAt twoLetters 0x80001000 (0x1fefff + i)
      (if i = 0 then PA2PTE 0x80004000 ||| 0x17 else PA2PTE 0x80005000 ||| 0x17) :=
    fun i hi => (userAt_frame hwords).mpr (userAt_oneLetter (by omega))
  refine ⟨fun i hi => ⟨_, huser i hi⟩, fun i hi e he => ?_, fun e he => ?_⟩
  · rw [← (huser i hi.le).unique he]
    obtain rfl | rfl : i = 0 ∨ i = 1 := by omega
    all_goals decide +kernel
  · rw [← (huser 2 le_rfl).unique he]
    decide +kernel

/-- Strings that `copyinstr` misses: one in the page at address zero, which `walkaddr` does not tell from no
page; one that the buffer overwrites before it is read; one whose next page the buffer unmaps. -/
theorem copyinstr_misses :
    (StringAt pageZero 0x80001000 0x1fe000 0 ∧
      ∃ t, copyinstr 0x80001000 0x80006000 0x1fe000 9 pageZero = .ok (-1, t)) ∧
    (StringAt twoLetters 0x80001000 0x1fefff 2 ∧
      ∃ t, copyinstr 0x80001000 0x80005001 0x1fefff 9 twoLetters = .ok (-1, t)) ∧
    StringAt oneLetter 0x80001000 0x1fefff 1 ∧
      ∃ t, copyinstr 0x80001000 0x80003ff8 0x1fefff 9 oneLetter = .ok (-1, t) :=
  ⟨⟨stringAt_pageZero, run_of_match (by decide +kernel)⟩,
    ⟨stringAt_twoLetters, run_of_match (by decide +kernel)⟩,
    stringAt_oneLetter, run_of_match (by decide +kernel)⟩

end Xv6.Vm
