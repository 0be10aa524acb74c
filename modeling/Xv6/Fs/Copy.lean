import Xv6.Param

/-! # Copying between the kernel and a user

`readi` and `writei` move bytes to and from a kernel buffer or the memory of a user process.
A process's memory is seen here page by page: a copy stops at the first page that is not mapped
for it, after the pages before it have been copied. -/

namespace Xv6

/-- Replace the bytes from `off` on by those of `bytes`. -/
def splice (l : List UInt8) (off : ℕ) (bytes : List UInt8) : List UInt8 :=
  l.take off ++ bytes ++ l.drop (off + bytes.length)

/-- The memory of a user process: which pages `walkaddr` finds, which of them are writable, and the
bytes at their addresses. -/
structure UserMem where
  mapped : ℕ → Bool
  writable : ℕ → Bool
  byte : ℕ → UInt8

namespace UserMem

/-- `copyin`: the bytes copied before the first page that is not mapped, and whether all were. Each
round copies at least one byte, so `fuel = len` rounds are enough. -/
def copyin (m : UserMem) : ℕ → ℕ → ℕ → List UInt8 × Bool
  | 0, _, _ => ([], true)
  | fuel + 1, srcva, len =>
    if len = 0 then ([], true)
    else if m.mapped (srcva / PGSIZE) then
      let n := min (PGSIZE - srcva % PGSIZE) len
      let rest := m.copyin fuel ((srcva / PGSIZE + 1) * PGSIZE) (len - n)
      ((List.range n).map (fun k => m.byte (srcva + k)) ++ rest.1, rest.2)
    else ([], false)

/-- Store consecutive bytes at `va`. -/
def store (m : UserMem) (va : ℕ) (bytes : List UInt8) : UserMem :=
  { m with byte := fun a => if va ≤ a ∧ a < va + bytes.length then bytes.getD (a - va) 0 else m.byte a }

/-- `copyout`: the memory after the copy, which stops at the first page that is not mapped
writable, and whether all bytes were copied. -/
def copyout (m : UserMem) : ℕ → ℕ → List UInt8 → UserMem × Bool
  | 0, _, _ => (m, true)
  | fuel + 1, dstva, bytes =>
    if bytes = [] then (m, true)
    else if m.mapped (dstva / PGSIZE) ∧ m.writable (dstva / PGSIZE) then
      let n := min (PGSIZE - dstva % PGSIZE) bytes.length
      (m.store dstva (bytes.take n)).copyout fuel ((dstva / PGSIZE + 1) * PGSIZE) (bytes.drop n)
    else (m, false)

/-- The bytes at `len` consecutive addresses. -/
def load (m : UserMem) (va len : ℕ) : List UInt8 := (List.range len).map fun k => m.byte (va + k)

variable {m : UserMem}

theorem load_add (m : UserMem) (va a b : ℕ) :
    m.load va (a + b) = m.load va a ++ m.load (va + a) b := by
  simp [load, List.range_add, Nat.add_assoc]

theorem take_drop_load (m : UserMem) (va : ℕ) {n tot len : ℕ} (h : tot + len ≤ n) :
    ((m.load va n).drop tot).take len = m.load (va + tot) len := by
  have hsplit : n = tot + (len + (n - tot - len)) := by omega
  rw [hsplit, load_add, load_add]
  simp [load]

/-- **`copyin`** of mapped pages copies every byte. -/
theorem copyin_eq_load {fuel va len : ℕ} (hfuel : len ≤ fuel)
    (hmap : ∀ a, va ≤ a → a < va + len → m.mapped (a / PGSIZE) = true) :
    m.copyin fuel va len = (m.load va len, true) := by
  induction fuel generalizing va len with
  | zero =>
    obtain rfl : len = 0 := by omega
    rfl
  | succ fuel ih =>
    rw [copyin]
    rcases eq_or_ne len 0 with rfl | hlen
    · rfl
    · have hpage : va % PGSIZE < PGSIZE := Nat.mod_lt _ (by decide)
      rw [if_neg hlen, if_pos (hmap va (Nat.le_refl _) (by omega))]
      -- the rest starts at the next page, if there is a rest
      set n := min (PGSIZE - va % PGSIZE) len with hn
      have hnext : len - n ≠ 0 → (va / PGSIZE + 1) * PGSIZE = va + n := by
        intro hrest
        have := Nat.div_add_mod va PGSIZE
        simp only [PGSIZE] at *
        omega
      have hrest : m.copyin fuel ((va / PGSIZE + 1) * PGSIZE) (len - n) =
          (m.load ((va / PGSIZE + 1) * PGSIZE) (len - n), true) := by
        refine ih (by omega) fun a h1 h2 => ?_
        have := hnext (by omega)
        exact hmap a (by omega) (by omega)
      simp only [hrest]
      have hsplit : len = n + (len - n) := by omega
      rw [hsplit, load_add, ← hsplit]
      by_cases hzero : len - n = 0
      · simp [hzero, load]
      · rw [hnext hzero]
        rfl

@[simp] theorem store_nil (m : UserMem) (va : ℕ) : m.store va [] = m := by
  unfold store
  congr 1
  funext a
  rw [if_neg]
  simp

/-- Storing two adjacent runs of bytes is storing both at once. -/
theorem store_store (m : UserMem) (va : ℕ) (l l' : List UInt8) :
    (m.store va l).store (va + l.length) l' = m.store va (l ++ l') := by
  unfold store
  congr 1
  funext a
  simp only [List.length_append]
  by_cases h1 : va + l.length ≤ a ∧ a < va + l.length + l'.length
  · rw [if_pos h1, if_pos (by omega), List.getD_append_right _ _ _ _ (by omega)]
    congr 1
    omega
  · rw [if_neg h1]
    by_cases h2 : va ≤ a ∧ a < va + l.length
    · rw [if_pos h2, if_pos (by omega), List.getD_append _ _ _ _ (by omega)]
    · rw [if_neg h2, if_neg (by omega)]

/-- **`copyout`** to pages mapped writable stores every byte. -/
theorem copyout_eq_store {fuel va : ℕ} {bytes : List UInt8} (hfuel : bytes.length ≤ fuel)
    (hmap : ∀ a, va ≤ a → a < va + bytes.length →
      m.mapped (a / PGSIZE) = true ∧ m.writable (a / PGSIZE) = true) :
    m.copyout fuel va bytes = (m.store va bytes, true) := by
  induction fuel generalizing m va bytes with
  | zero =>
    obtain rfl : bytes = [] := List.length_eq_zero_iff.mp (by omega)
    simp [copyout]
  | succ fuel ih =>
    rw [copyout]
    by_cases hnil : bytes = []
    · simp [hnil]
    · have hpos : 0 < bytes.length := List.length_pos_iff.mpr hnil
      have hpage : va % PGSIZE < PGSIZE := Nat.mod_lt _ (by decide)
      rw [if_neg hnil, if_pos (hmap va (Nat.le_refl _) (by omega))]
      set n := min (PGSIZE - va % PGSIZE) bytes.length with hn
      have hnext : bytes.length - n ≠ 0 → (va / PGSIZE + 1) * PGSIZE = va + n := by
        intro hrest
        have := Nat.div_add_mod va PGSIZE
        simp only [PGSIZE] at *
        omega
      simp only
      rw [ih (by rw [List.length_drop]; omega)]
      · by_cases hzero : bytes.length - n = 0
        · have hall : bytes.length ≤ n := by omega
          simp [List.take_of_length_le hall, List.drop_of_length_le hall]
        · have hlen : (bytes.take n).length = n := by
            rw [List.length_take]
            omega
          rw [hnext hzero]
          have := store_store m va (bytes.take n) (bytes.drop n)
          rw [hlen, List.take_append_drop] at this
          rw [this]
      · intro a h1 h2
        rw [List.length_drop] at h2
        have := hnext (by omega)
        exact hmap a (by omega) (by omega)

/-- A copy that succeeds has found every page mapped. -/
theorem mapped_of_copyin {m : UserMem} {fuel va len : ℕ} (hfuel : len ≤ fuel)
    (h : (m.copyin fuel va len).2 = true) :
    ∀ a, va ≤ a → a < va + len → m.mapped (a / PGSIZE) = true := by
  induction fuel generalizing va len with
  | zero =>
    intro a h1 h2
    omega
  | succ fuel ih =>
    intro a h1 h2
    rw [copyin, if_neg (by omega)] at h
    have hmod : va % PGSIZE < PGSIZE := Nat.mod_lt _ (by decide)
    split at h
    · rename_i hmap
      by_cases hpage : a / PGSIZE = va / PGSIZE
      · rwa [hpage]
      · -- the address is on a later page, which a later round copies
        refine ih ?_ h a ?_ ?_ <;> simp only [PGSIZE] at * <;> omega
    · cases h

end UserMem

/-- Where `writei` copies from: a kernel buffer, or a user address. -/
inductive Src
  | kernel (buf : List UInt8)
  | user (m : UserMem) (va : ℕ)

/-- `either_copyin(dst, user_src, src + tot, len)`: the bytes copied, and whether all were. -/
def Src.copyin (src : Src) (tot len : ℕ) : List UInt8 × Bool :=
  match src with
  | .kernel buf => ((List.range len).map fun k => buf.getD (tot + k) 0, true)
  | .user m va => m.copyin len ((va + tot) % 2 ^ 64) len

namespace Src

/-- The first `n` bytes of the source can be read. -/
def Readable (src : Src) (n : ℕ) : Prop :=
  match src with
  | .kernel buf => n ≤ buf.length
  | .user m va => va + n ≤ 2 ^ 64 ∧ ∀ a, va ≤ a → a < va + n → m.mapped (a / PGSIZE) = true

/-- The first `n` bytes of the source. -/
def bytes (src : Src) (n : ℕ) : List UInt8 :=
  match src with
  | .kernel buf => buf.take n
  | .user m va => m.load va n

/-- A copy from a readable source copies every byte asked for. -/
theorem copyin_eq {src : Src} {n tot len : ℕ} (h : src.Readable n) (hlen : tot + len ≤ n) :
    src.copyin tot len = (((src.bytes n).drop tot).take len, true) := by
  cases src with
  | kernel buf =>
    have hn : n ≤ buf.length := h
    simp only [copyin, bytes, Prod.mk.injEq, and_true]
    apply List.ext_getElem
    · simp
      omega
    · intro k h1 h2
      rw [List.length_map, List.length_range] at h1
      rw [List.getElem_map, List.getElem_range, List.getElem_take, List.getElem_drop,
        List.getElem_take, List.getD_eq_getElem _ _ (by omega)]
  | user m va =>
    obtain ⟨hva, hmap⟩ := h
    simp only [copyin, bytes]
    rw [UserMem.take_drop_load m va hlen]
    rcases eq_or_ne len 0 with rfl | h0
    · rfl
    · rw [Nat.mod_eq_of_lt (by omega)]
      exact UserMem.copyin_eq_load (Nat.le_refl _) fun a h1 h2 => hmap a (by omega) (by omega)

@[simp] theorem length_bytes {src : Src} {n : ℕ} (h : src.Readable n) : (src.bytes n).length = n := by
  cases src with
  | kernel buf =>
    have hn : n ≤ buf.length := h
    simp [bytes, hn]
  | user m va => simp [bytes, UserMem.load]

end Src

/-- The memory of a process as `walkaddr` finds it: nothing from `MAXVA` on. -/
structure UserSpace extends UserMem where
  below : ∀ pg, mapped pg = true → pg < MAXVA / PGSIZE

/-- Only the addresses below `MAXVA` can be read, so that no address wraps. -/
theorem UserSpace.le_of_mapped {mem : UserSpace} {va len : ℕ} (hlen : 0 < len)
    (h : ∀ a, va ≤ a → a < va + len → mem.mapped (a / PGSIZE) = true) : va + len ≤ MAXVA := by
  have hlast := mem.below _ (h (va + len - 1) (by omega) (by omega))
  simp only [MAXVA, PGSIZE] at *
  omega

/-- Where `readi` copies to: a kernel buffer, or a user address. -/
inductive Dst
  | kernel (buf : List UInt8)
  | user (m : UserMem) (va : ℕ)

/-- `either_copyout(user_dst, dst + tot, bytes, len)`: the destination after the copy, and whether
all bytes were copied. -/
def Dst.copyout (dst : Dst) (tot : ℕ) (bytes : List UInt8) : Dst × Bool :=
  match dst with
  | .kernel buf => (.kernel (splice buf tot bytes), true)
  | .user m va =>
    let r := m.copyout bytes.length ((va + tot) % 2 ^ 64) bytes
    (.user r.1 va, r.2)

namespace Dst

/-- The first `n` bytes of the destination can be written. -/
def Writable (dst : Dst) (n : ℕ) : Prop :=
  match dst with
  | .kernel buf => n ≤ buf.length
  | .user m va => va + n ≤ 2 ^ 64 ∧ ∀ a, va ≤ a → a < va + n →
      m.mapped (a / PGSIZE) = true ∧ m.writable (a / PGSIZE) = true

theorem Writable.mono {dst : Dst} {m n : ℕ} (h : dst.Writable n) (hmn : m ≤ n) :
    dst.Writable m := by
  cases dst with
  | kernel buf => exact Nat.le_trans hmn h
  | user mem va => exact ⟨by have := h.1; omega, fun a h1 h2 => h.2 a h1 (by omega)⟩

/-- The destination with its first bytes overwritten. -/
def store (dst : Dst) (bytes : List UInt8) : Dst :=
  match dst with
  | .kernel buf => .kernel (splice buf 0 bytes)
  | .user m va => .user (m.store va bytes) va

/-- A copy to a writable destination that continues where the last one ended. -/
theorem copyout_store {dst : Dst} {n : ℕ} {l l' : List UInt8} (h : dst.Writable n)
    (hlen : l.length + l'.length ≤ n) :
    (dst.store l).copyout l.length l' = (dst.store (l ++ l'), true) := by
  cases dst with
  | kernel buf =>
    have hn : n ≤ buf.length := h
    simp only [store, copyout, Prod.mk.injEq, and_true, kernel.injEq, splice]
    simp [Nat.add_comm]
  | user m va =>
    obtain ⟨hva, hmap⟩ := h
    by_cases hnil : l' = []
    · subst hnil
      simp [store, copyout, UserMem.copyout]
    · have hpos : 0 < l'.length := List.length_pos_iff.mpr hnil
      simp only [store, copyout]
      rw [Nat.mod_eq_of_lt (by omega), UserMem.copyout_eq_store (Nat.le_refl _), UserMem.store_store]
      intro a h1 h2
      exact hmap a (by omega) (by omega)

@[simp] theorem store_nil (dst : Dst) : dst.store [] = dst := by
  cases dst with
  | kernel buf => simp [store, splice]
  | user m va => simp [store]

end Dst

end Xv6
