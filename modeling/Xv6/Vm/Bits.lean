import Xv6.Vm.Basic

/-! # Addresses and entries as numbers

The bit slices of `kernel/riscv.h` as quotients and remainders. A page-aligned virtual address below
`MAXVA` is its three indices, and an entry is a physical page next to ten flags. -/

namespace Xv6.Vm

variable {va va' pa pte f : UInt64} {level : ℕ}

/-- The address of a page. -/
def Aligned (a : UInt64) : Prop := a.toNat % PGSIZE = 0

instance (a : UInt64) : Decidable (Aligned a) := inferInstanceAs (Decidable (_ = _))

theorem toNat_add_of_lt {a b : UInt64} (h : a.toNat + b.toNat < 2 ^ 64) :
    (a + b).toNat = a.toNat + b.toNat := by
  rw [UInt64.toNat_add, Nat.mod_eq_of_lt h]

theorem MAXVA_eq : MAXVA = 2 ^ 38 := rfl

/-- The next page of an address below `MAXVA` is not past the end of the address space. -/
theorem toNat_add_page {a : UInt64} (h : a.toNat < MAXVA) : (a + 4096).toNat = a.toNat + 4096 := by
  have h4096 : (4096 : UInt64).toNat = 4096 := rfl
  rw [MAXVA_eq] at h
  rw [toNat_add_of_lt (by omega), h4096]

theorem aligned_add_page {a : UInt64} (h : Aligned a) : Aligned (a + 4096) := by
  have h4096 : (4096 : UInt64).toNat = 4096 := rfl
  have h : a.toNat % 4096 = 0 := h
  show (a + 4096).toNat % 4096 = 0
  rw [UInt64.toNat_add, h4096]
  omega

/-! ### Rounding -/

theorem toNat_and_not_page (a : UInt64) : (a &&& ~~~(4096 - 1)).toNat = a.toNat / 4096 * 4096 := by
  have hmask : (~~~(4096 - 1) : UInt64).toNat = (2 ^ 52 - 1) <<< 12 := rfl
  have hlt := a.toNat_lt
  rw [UInt64.toNat_and, hmask, show (4096 : ℕ) = 2 ^ 12 from rfl, ← Nat.shiftLeft_eq,
    ← Nat.shiftRight_eq_div_pow]
  -- bit by bit: below the mask there is nothing, and above 64 bits neither
  refine Nat.eq_of_testBit_eq fun i => ?_
  simp only [Nat.testBit_and, Nat.testBit_shiftLeft, Nat.testBit_shiftRight, Nat.testBit_two_pow_sub_one]
  by_cases hi : 12 ≤ i
  · rw [show 12 + (i - 12) = i by omega]
    by_cases hi' : i - 12 < 52
    · simp [hi, hi']
    · have hbit : a.toNat.testBit i = false :=
        Nat.testBit_lt_two_pow (hlt.trans_le (Nat.pow_le_pow_right (by decide) (by omega)))
      simp [hbit]
  · simp [hi]

theorem toNat_PGROUNDDOWN (a : UInt64) : (PGROUNDDOWN a).toNat = a.toNat / 4096 * 4096 :=
  toNat_and_not_page a

theorem aligned_PGROUNDDOWN (a : UInt64) : Aligned (PGROUNDDOWN a) := by
  rw [Aligned, toNat_PGROUNDDOWN]
  exact Nat.mul_mod_left _ _

theorem toNat_PGROUNDUP {a : UInt64} (h : a.toNat + 4095 < 2 ^ 64) :
    (PGROUNDUP a).toNat = (a.toNat + 4095) / 4096 * 4096 := by
  have h4095 : (4096 - 1 : UInt64).toNat = 4095 := rfl
  rw [PGROUNDUP, toNat_and_not_page, add_sub_assoc, toNat_add_of_lt (by rw [h4095]; exact h), h4095]

/-- The offset of an address in its page. -/
theorem toNat_sub_PGROUNDDOWN (a : UInt64) : (a - PGROUNDDOWN a).toNat = a.toNat % 4096 := by
  have hlt := a.toNat_lt
  rw [UInt64.toNat_sub, toNat_PGROUNDDOWN]
  omega

/-- The address of the page `i` pages after `a`. -/
def pageAt (a : UInt64) (i : ℕ) : UInt64 := a + UInt64.ofNat (i * PGSIZE)

@[simp] theorem pageAt_zero (a : UInt64) : pageAt a 0 = a := by
  rw [pageAt, Nat.zero_mul]
  exact add_zero a

theorem pageAt_succ (a : UInt64) (i : ℕ) : pageAt a (i + 1) = pageAt (a + 4096) i := by
  rw [pageAt, pageAt, Nat.succ_mul, UInt64.ofNat_add, add_assoc a, add_comm (4096 : UInt64)]
  rfl

theorem toNat_pageAt (a : UInt64) (i : ℕ) : (pageAt a i).toNat = (a.toNat + i * 4096) % 2 ^ 64 := by
  rw [pageAt, UInt64.toNat_add, UInt64.toNat_ofNat', Nat.add_mod_mod]

theorem aligned_pageAt {a : UInt64} (h : Aligned a) (i : ℕ) : Aligned (pageAt a i) := by
  have h : a.toNat % 4096 = 0 := h
  show (pageAt a i).toNat % 4096 = 0
  rw [toNat_pageAt]
  omega

theorem pageAt_ne_self {a : UInt64} {i : ℕ} (hi : i ≠ 0) (hlt : i * 4096 < 2 ^ 64) : pageAt a i ≠ a := by
  intro h
  have := congrArg UInt64.toNat h
  rw [toNat_pageAt] at this
  have := a.toNat_lt
  omega

theorem PX_val (h : level ≤ 2) (va : UInt64) :
    (PX level va).val = va.toNat / 2 ^ (PGSHIFT + 9 * level) % 512 := by
  have hshift : (PXSHIFT level).toNat % 64 = PGSHIFT + 9 * level := by
    obtain rfl | rfl | rfl : level = 0 ∨ level = 1 ∨ level = 2 := by omega
    all_goals rfl
  have hmask : (0x1FF : UInt64).toNat = 2 ^ 9 - 1 := rfl
  have hlt : va.toNat / 2 ^ (PGSHIFT + 9 * level) % 512 < 512 := Nat.mod_lt _ (by decide)
  rw [PX, Fin.val_ofNat, UInt64.toNat_and, UInt64.toNat_shiftRight, hshift, hmask,
    Nat.and_two_pow_sub_one_eq_mod, Nat.shiftRight_eq_div_pow, Nat.mod_mod]

/-- The three indices determine the page. -/
theorem PX_injective (hva : Aligned va) (hva' : Aligned va') (hlt : va.toNat < MAXVA)
    (hlt' : va'.toNat < MAXVA) (h : ∀ level ≤ 2, PX level va = PX level va') : va = va' := by
  have hval : ∀ level ≤ 2, va.toNat / 2 ^ (PGSHIFT + 9 * level) % 512 =
      va'.toNat / 2 ^ (PGSHIFT + 9 * level) % 512 := by
    intro level hl
    rw [← PX_val hl, ← PX_val hl, h level hl]
  have h0 := hval 0 (by decide)
  have h1 := hval 1 (by decide)
  have h2 := hval 2 (by decide)
  unfold Aligned at hva hva'
  norm_num at h0 h1 h2 hlt hlt' hva hva'
  apply UInt64.toNat_inj.mp
  omega

/-- Every three indices are those of an address. -/
theorem exists_PX (a b c : Fin 512) (ha : a.val < 256) :
    ∃ va : UInt64, Aligned va ∧ va.toNat < MAXVA ∧ PX 2 va = a ∧ PX 1 va = b ∧ PX 0 va = c := by
  obtain ⟨va, hva⟩ : ∃ va : UInt64, va.toNat = a * 2 ^ 30 + b * 2 ^ 21 + c * 2 ^ 12 :=
    ⟨UInt64.ofNat (a * 2 ^ 30 + b * 2 ^ 21 + c * 2 ^ 12), by rw [UInt64.toNat_ofNat']; omega⟩
  have h2 : (PX 2 va).val = va.toNat / 2 ^ 30 % 512 := PX_val le_rfl va
  have h1 : (PX 1 va).val = va.toNat / 2 ^ 21 % 512 := PX_val (by decide) va
  have h0 : (PX 0 va).val = va.toNat / 2 ^ 12 % 512 := PX_val (by decide) va
  have halign : va.toNat % 4096 = 0 := by omega
  refine ⟨va, halign, ?_, Fin.ext ?_, Fin.ext ?_, Fin.ext ?_⟩
  · rw [MAXVA_eq]
    omega
  all_goals omega

/-- The flags next to a page, wherever it is. -/
theorem flags_PA2PTE_or (pa : UInt64) (hf : f.toNat < 2 ^ 10) : PTE_FLAGS (PA2PTE pa ||| f) = f := by
  have hlow : (PA2PTE pa).toNat % 2 ^ 10 = 0 := by
    rw [PA2PTE, UInt64.toNat_shiftLeft, show (10 : UInt64).toNat % 64 = 10 from rfl, Nat.shiftLeft_eq]
    omega
  apply UInt64.toNat_inj.mp
  rw [PTE_FLAGS, UInt64.toNat_and, UInt64.toNat_or, show (0x3FF : UInt64).toNat = 2 ^ 10 - 1 from rfl,
    Nat.and_two_pow_sub_one_eq_mod, Nat.or_mod_two_pow, hlow, Nat.zero_or, Nat.mod_eq_of_lt hf]

theorem toNat_PA2PTE (h : pa.toNat < 2 ^ 56) : (PA2PTE pa).toNat = pa.toNat / 4096 * 1024 := by
  have h12 : (12 : UInt64).toNat % 64 = 12 := rfl
  have h10 : (10 : UInt64).toNat % 64 = 10 := rfl
  rw [PA2PTE, UInt64.toNat_shiftLeft, UInt64.toNat_shiftRight, h12, h10, Nat.shiftRight_eq_div_pow,
    Nat.shiftLeft_eq]
  omega

theorem toNat_PA2PTE_or (h : pa.toNat < 2 ^ 56) (hf : f.toNat < 2 ^ 10) :
    (PA2PTE pa ||| f).toNat = pa.toNat / 4096 * 1024 + f.toNat := by
  rw [UInt64.toNat_or, toNat_PA2PTE h, show (1024 : ℕ) = 2 ^ 10 from rfl, ← Nat.shiftLeft_eq,
    Nat.shiftLeft_add_eq_or_of_lt hf]

theorem toNat_PTE2PA (pte : UInt64) : (PTE2PA pte).toNat = pte.toNat / 1024 * 4096 % 2 ^ 64 := by
  have h12 : (12 : UInt64).toNat % 64 = 12 := rfl
  have h10 : (10 : UInt64).toNat % 64 = 10 := rfl
  rw [PTE2PA, UInt64.toNat_shiftLeft, UInt64.toNat_shiftRight, h12, h10, Nat.shiftRight_eq_div_pow,
    Nat.shiftLeft_eq]

theorem aligned_PTE2PA (e : UInt64) : Aligned (PTE2PA e) := by
  rw [Aligned, toNat_PTE2PA, show PGSIZE = 4096 from rfl]
  omega

theorem toNat_PTE_FLAGS (pte : UInt64) : (PTE_FLAGS pte).toNat = pte.toNat % 1024 := by
  have hmask : (0x3FF : UInt64).toNat = 2 ^ 10 - 1 := rfl
  rw [PTE_FLAGS, UInt64.toNat_and, hmask, Nat.and_two_pow_sub_one_eq_mod]

theorem valid_iff (pte : UInt64) : valid pte = true ↔ pte.toNat % 2 = 1 := by
  have hone : (1 : UInt64).toNat = 2 ^ 1 - 1 := rfl
  have hzero : (0 : UInt64).toNat = 0 := rfl
  rw [valid, decide_eq_true_iff, ne_eq, ← UInt64.toNat_inj, UInt64.toNat_and, hone, hzero,
    Nat.and_two_pow_sub_one_eq_mod]
  omega

/-- An entry gives the page back. -/
theorem PTE2PA_PA2PTE_or (ha : Aligned pa) (h : pa.toNat < 2 ^ 56) (hf : f.toNat < 2 ^ 10) :
    PTE2PA (PA2PTE pa ||| f) = pa := by
  have ha : pa.toNat % 4096 = 0 := ha
  apply UInt64.toNat_inj.mp
  rw [toNat_PTE2PA, toNat_PA2PTE_or h hf]
  omega

/-- An entry gives the flags back. -/
theorem PTE_FLAGS_PA2PTE_or (h : pa.toNat < 2 ^ 56) (hf : f.toNat < 2 ^ 10) :
    PTE_FLAGS (PA2PTE pa ||| f) = f := by
  apply UInt64.toNat_inj.mp
  rw [toNat_PTE_FLAGS, toNat_PA2PTE_or h hf]
  omega

/-- The permissions are among the flags. -/
theorem perms_eq (e : UInt64) :
    e &&& (PTE_R ||| PTE_W ||| PTE_X) = PTE_FLAGS e &&& (PTE_R ||| PTE_W ||| PTE_X) := by
  rw [PTE_FLAGS, UInt64.and_assoc]
  rfl

theorem perms_or_PTE_V (e : UInt64) :
    (e ||| PTE_V) &&& (PTE_R ||| PTE_W ||| PTE_X) = e &&& (PTE_R ||| PTE_W ||| PTE_X) := by
  apply UInt64.toNat_inj.mp
  rw [UInt64.toNat_and, UInt64.toNat_and, UInt64.toNat_or, Nat.and_or_distrib_right]
  exact Nat.or_zero _

theorem valid_or_PTE_V (e : UInt64) : valid (e ||| PTE_V) = true := by
  rw [valid_iff, UInt64.toNat_or, Nat.or_mod_two_eq_one]
  exact .inr rfl

/-- A valid entry has its flag. -/
theorem flags_or_PTE_V {e : UInt64} (h : valid e = true) : PTE_FLAGS e ||| PTE_V = PTE_FLAGS e := by
  have hodd : (PTE_FLAGS e).toNat % 2 = 1 := by
    rw [toNat_PTE_FLAGS]
    have := (valid_iff e).mp h
    omega
  apply UInt64.toNat_inj.mp
  rw [UInt64.toNat_or]
  refine Nat.eq_of_testBit_eq fun i => ?_
  rw [Nat.testBit_or]
  cases i with
  | zero => simp [hodd]
  | succ i =>
    have hbit : PTE_V.toNat.testBit (i + 1) = false := by
      rw [show PTE_V.toNat = 1 from rfl, Nat.testBit_succ]
      exact Nat.zero_testBit i
    rw [hbit, Bool.or_false]

end Xv6.Vm
