import Xv6.Lib.WordBytes
import Xv6.Lib.Wp
import Xv6.Vm.Bits

/-! # Bytes of physical memory

The kernel reads and writes physical memory byte by byte when it copies. The byte at an address is one of
the eight in a word of the page. -/

namespace Xv6

open Function

namespace Vm

/-! ### Addresses -/

/-- `a + i`. -/
def addr (a : UInt64) (i : ℕ) : UInt64 := a + UInt64.ofNat i

variable {a b : UInt64} {i j n : ℕ}

@[simp] theorem addr_zero (a : UInt64) : addr a 0 = a := add_zero a

theorem addr_addr (a : UInt64) (i j : ℕ) : addr (addr a i) j = addr a (i + j) := by
  rw [addr, addr, addr, UInt64.ofNat_add, add_assoc]

theorem addr_succ (a : UInt64) (i : ℕ) : addr a (i + 1) = addr (a + 1) i := by
  rw [Nat.add_comm, ← addr_addr]
  rfl

theorem addr_succ_sub_one (a : UInt64) (i : ℕ) : addr a (i + 1) - 1 = addr a i := by
  rw [← addr_addr]
  exact add_sub_cancel_right _ _

theorem toNat_addr (a : UInt64) (i : ℕ) : (addr a i).toNat = (a.toNat + i) % 2 ^ 64 := by
  rw [addr, UInt64.toNat_add, UInt64.toNat_ofNat', Nat.add_mod_mod]

theorem toNat_addr_of_lt (h : a.toNat + i < 2 ^ 64) : (addr a i).toNat = a.toNat + i := by
  rw [toNat_addr, Nat.mod_eq_of_lt h]

theorem addr_injective (hi : i < 2 ^ 64) (hj : j < 2 ^ 64) (h : addr a i = addr a j) : i = j := by
  have h := congrArg UInt64.toNat h
  rw [toNat_addr, toNat_addr] at h
  have := a.toNat_lt
  omega

/-- An offset within a page does not leave it. -/
theorem PGROUNDDOWN_addr (ha : Aligned a) (hi : i < 4096) : PGROUNDDOWN (addr a i) = a := by
  have ha : a.toNat % 4096 = 0 := ha
  have hlt := a.toNat_lt
  apply UInt64.toNat_inj.mp
  rw [toNat_PGROUNDDOWN, toNat_addr]
  omega

end Vm

open Vm

namespace Phys

variable {s t : Phys} {a b dst src p : UInt64} {x : UInt8} {i n : ℕ}

/-- The word that an address is in. -/
def wordIndex (a : UInt64) : Fin 512 := Fin.ofNat 512 (a.toNat / 8)

/-- `*(uchar*)a`. -/
def byte (s : Phys) (a : UInt64) : UInt8 :=
  WordBytes.byteAt (s.word (PGROUNDDOWN a) (wordIndex a)) (a.toNat % 8)

/-- `*(uchar*)a = x`. -/
def setByte (s : Phys) (a : UInt64) (x : UInt8) : Phys :=
  { s with
    word := Radix.write s.word (PGROUNDDOWN a) (wordIndex a)
      (WordBytes.withByte (s.word (PGROUNDDOWN a) (wordIndex a)) (a.toNat % 8) x) }

theorem byte_setByte_self (s : Phys) (a : UInt64) (x : UInt8) : (s.setByte a x).byte a = x := by
  have hword : (s.setByte a x).word (PGROUNDDOWN a) (wordIndex a) =
      WordBytes.withByte (s.word (PGROUNDDOWN a) (wordIndex a)) (a.toNat % 8) x := Radix.write_self
  rw [byte, hword, WordBytes.byteAt_withByte_self (Nat.mod_lt _ (by decide))]

/-- Page, word and byte determine the address. -/
theorem eq_of_byte (hpage : PGROUNDDOWN a = PGROUNDDOWN b) (hword : wordIndex a = wordIndex b)
    (hbyte : a.toNat % 8 = b.toNat % 8) : a = b := by
  have hpage := congrArg UInt64.toNat hpage
  have hword := congrArg Fin.val hword
  rw [toNat_PGROUNDDOWN, toNat_PGROUNDDOWN] at hpage
  rw [wordIndex, wordIndex, Fin.val_ofNat, Fin.val_ofNat] at hword
  apply UInt64.toNat_inj.mp
  omega

theorem byte_setByte_of_ne (h : b ≠ a) : (s.setByte a x).byte b = s.byte b := by
  by_cases hslot : PGROUNDDOWN b = PGROUNDDOWN a ∧ wordIndex b = wordIndex a
  · obtain ⟨hpage, hindex⟩ := hslot
    have hoff : b.toNat % 8 ≠ a.toNat % 8 := fun heq => h (eq_of_byte hpage hindex heq)
    have hword : (s.setByte a x).word (PGROUNDDOWN a) (wordIndex a) =
        WordBytes.withByte (s.word (PGROUNDDOWN a) (wordIndex a)) (a.toNat % 8) x := Radix.write_self
    rw [byte, byte, hpage, hindex, hword, WordBytes.byteAt_withByte_of_ne (Nat.mod_lt _ (by decide)) hoff]
  · have hword : (s.setByte a x).word (PGROUNDDOWN b) (wordIndex b) = s.word (PGROUNDDOWN b) (wordIndex b) :=
      Radix.write_of_ne fun hpage hindex => hslot ⟨hpage, hindex⟩
    rw [byte, byte, hword]

theorem word_setByte (h : p ≠ PGROUNDDOWN a) : (s.setByte a x).word p = s.word p :=
  Radix.write_of_ne_page h

/-- Equal words are equal bytes. -/
theorem byte_congr (h : t.word (PGROUNDDOWN a) = s.word (PGROUNDDOWN a)) : t.byte a = s.byte a := by
  rw [byte, byte, h]

/-! ### Moving bytes -/

/-- `while(n-- > 0) *d++ = *s++`. -/
def copyUp : ℕ → UInt64 → UInt64 → Phys → Phys
  | 0, _, _, s => s
  | n + 1, dst, src, s => copyUp n (dst + 1) (src + 1) (s.setByte dst (s.byte src))

/-- `while(n-- > 0) *--d = *--s`. -/
def copyDown : ℕ → UInt64 → UInt64 → Phys → Phys
  | 0, _, _, s => s
  | n + 1, dst, src, s => copyDown n (dst - 1) (src - 1) (s.setByte (dst - 1) (s.byte (src - 1)))

/-- The memory after `memmove`. -/
def moved (s : Phys) (dst src : UInt64) (n : ℕ) : Phys :=
  if n = 0 then s
  else if src < dst ∧ dst < addr src n then copyDown n (addr dst n) (addr src n) s
  else copyUp n dst src s

/-- The bytes at `dst` are what the bytes at `src` were, and nothing else has changed. -/
structure Copied (s t : Phys) (dst src : UInt64) (n : ℕ) : Prop where
  byte : ∀ i < n, t.byte (addr dst i) = s.byte (addr src i)
  frame : ∀ a, (∀ i < n, a ≠ addr dst i) → t.byte a = s.byte a
  word : ∀ p, (∀ i < n, p ≠ PGROUNDDOWN (addr dst i)) → t.word p = s.word p
  freelist : t.freelist = s.freelist
  kend : t.kend = s.kend

theorem Copied.zero (s : Phys) (dst src : UInt64) : Copied s s dst src 0 :=
  ⟨nofun, fun _ _ => rfl, fun _ _ => rfl, rfl, rfl⟩

/-- The first byte, then the rest. -/
theorem Copied.cons (hn : n + 1 ≤ 2 ^ 64) (hdisj : ∀ i < n + 1, ∀ j < n + 1, addr dst i ≠ addr src j)
    (hrest : Copied (s.setByte dst (s.byte src)) t (dst + 1) (src + 1) n) : Copied s t dst src (n + 1) := by
  -- the first byte is not written again
  have hfirst : ∀ i < n, dst ≠ addr (dst + 1) i := by
    intro i hi heq
    rw [← addr_succ, ← addr_zero dst, addr_addr, Nat.zero_add] at heq
    have := addr_injective (by omega) (by omega) heq
    omega
  constructor
  case byte =>
    intro i hi
    cases i with
    | zero => rw [addr_zero, addr_zero, hrest.frame dst hfirst, byte_setByte_self]
    | succ i =>
      rw [addr_succ, addr_succ, hrest.byte i (by omega), byte_setByte_of_ne]
      rw [← addr_succ, ← addr_zero dst]
      exact (hdisj 0 (by omega) (i + 1) hi).symm
  case frame =>
    intro a ha
    rw [hrest.frame a fun i hi => addr_succ dst i ▸ ha (i + 1) (by omega), byte_setByte_of_ne]
    rw [← addr_zero dst]
    exact ha 0 (by omega)
  case word =>
    intro p hp
    rw [hrest.word p fun i hi => addr_succ dst i ▸ hp (i + 1) (by omega), word_setByte]
    rw [← addr_zero dst]
    exact hp 0 (by omega)
  case freelist => exact hrest.freelist
  case kend => exact hrest.kend

theorem disjoint_tail (hdisj : ∀ i < n + 1, ∀ j < n + 1, addr dst i ≠ addr src j) :
    ∀ i < n, ∀ j < n, addr (dst + 1) i ≠ addr (src + 1) j := by
  intro i hi j hj
  rw [← addr_succ, ← addr_succ]
  exact hdisj (i + 1) (by omega) (j + 1) (by omega)

theorem copyUp_copied (hn : n < 2 ^ 64) (hdisj : ∀ i < n, ∀ j < n, addr dst i ≠ addr src j) :
    Copied s (copyUp n dst src s) dst src n := by
  induction n generalizing dst src s with
  | zero => exact .zero s dst src
  | succ n ih => exact .cons hn.le hdisj (ih (by omega) (disjoint_tail hdisj))

theorem copyDown_copied (hn : n < 2 ^ 64) (hdisj : ∀ i < n, ∀ j < n, addr dst i ≠ addr src j) :
    Copied s (copyDown n (addr dst n) (addr src n) s) dst src n := by
  induction n generalizing s with
  | zero => exact .zero s dst src
  | succ n ih =>
    rw [copyDown, addr_succ_sub_one, addr_succ_sub_one]
    have hrest := ih (s := s.setByte (addr dst n) (s.byte (addr src n))) (by omega)
      fun i hi j hj => hdisj i (by omega) j (by omega)
    have hlast : ∀ i < n, addr dst n ≠ addr dst i := by
      intro i hi heq
      have := addr_injective (by omega) (by omega) heq
      omega
    constructor
    case byte =>
      intro i hi
      rcases Nat.lt_succ_iff_lt_or_eq.mp hi with hi | rfl
      · rw [hrest.byte i hi, byte_setByte_of_ne (hdisj n (by omega) i (by omega)).symm]
      · rw [hrest.frame _ hlast, byte_setByte_self]
    case frame =>
      intro a ha
      rw [hrest.frame a fun i hi => ha i (by omega), byte_setByte_of_ne (ha n (by omega))]
    case word =>
      intro p hp
      rw [hrest.word p fun i hi => hp i (by omega), word_setByte (hp n (by omega))]
    case freelist => exact hrest.freelist
    case kend => exact hrest.kend

/-- `memmove` between ranges that do not overlap. -/
theorem moved_copied (hn : n < 2 ^ 64) (hdisj : ∀ i < n, ∀ j < n, addr dst i ≠ addr src j) :
    Copied s (s.moved dst src n) dst src n := by
  unfold moved
  split
  · rename_i h0
    obtain rfl := h0
    exact .zero s dst src
  · split
    · exact copyDown_copied hn hdisj
    · exact copyUp_copied hn hdisj

/-- Writing a page is not seen in another one. -/
theorem byte_setByte_page (ha : Aligned a) (hb : Aligned b) (hne : a ≠ b) (hi : i < 4096) (hn : n < 4096) :
    (s.setByte (addr a i) x).byte (addr b n) = s.byte (addr b n) := by
  refine byte_congr (word_setByte ?_)
  rw [PGROUNDDOWN_addr ha hi, PGROUNDDOWN_addr hb hn]
  exact hne.symm

theorem wordIndex_addr (ha : Aligned a) (j : Fin 512) (k : ℕ) (hk : k < 8) :
    wordIndex (addr a (8 * j + k)) = j ∧ (addr a (8 * j + k)).toNat % 8 = k := by
  have ha : a.toNat % 4096 = 0 := ha
  have hlt := a.toNat_lt
  have hj := j.isLt
  have hval : (addr a (8 * j + k)).toNat = a.toNat + (8 * j + k) := toNat_addr_of_lt (by omega)
  refine ⟨Fin.ext ?_, by omega⟩
  rw [wordIndex, Fin.val_ofNat, hval]
  omega

/-- The bytes of a word of a page. -/
theorem byte_addr (s : Phys) (ha : Aligned a) (j : Fin 512) (k : ℕ) (hk : k < 8) :
    s.byte (addr a (8 * j + k)) = WordBytes.byteAt (s.word a j) k := by
  have hj := j.isLt
  obtain ⟨hindex, hbyte⟩ := wordIndex_addr ha j k hk
  rw [byte, hindex, hbyte, PGROUNDDOWN_addr ha (by omega)]

/-- A whole page is copied. -/
theorem moved_page (hd : Aligned dst) (hs : Aligned src) (hne : dst ≠ src) :
    s.moved dst src 4096 = { s with word := update s.word dst (s.word src) } := by
  have hcopied : Copied s (s.moved dst src 4096) dst src 4096 := by
    refine moved_copied (by decide) fun i hi j hj heq => hne ?_
    rw [← PGROUNDDOWN_addr hd hi, heq, PGROUNDDOWN_addr hs hj]
  have hword : (s.moved dst src 4096).word = update s.word dst (s.word src) := by
    funext p
    rcases eq_or_ne p dst with rfl | hp
    · rw [update_self]
      funext j
      refine WordBytes.ext fun k hk => ?_
      have hj := j.isLt
      rw [← byte_addr _ hd j k hk, ← byte_addr _ hs j k hk]
      exact hcopied.byte _ (by omega)
    · rw [update_of_ne hp]
      exact hcopied.word p fun i hi heq => hp (heq.trans (PGROUNDDOWN_addr hd hi))
  rw [← hword, ← hcopied.freelist, ← hcopied.kend]

/-! ### Bytes from elsewhere -/

/-- The bytes of `l` at `a` and up. -/
def setBytes (s : Phys) (a : UInt64) : List UInt8 → Phys
  | [] => s
  | x :: l => (s.setByte a x).setBytes (a + 1) l

/-- The `n` bytes at `a`. -/
def bytesAt (s : Phys) (a : UInt64) (n : ℕ) : List UInt8 := (List.range n).map fun i => s.byte (addr a i)

@[simp] theorem length_bytesAt (s : Phys) (a : UInt64) (n : ℕ) : (s.bytesAt a n).length = n := by
  rw [bytesAt, List.length_map, List.length_range]

/-- The bytes at `a` are those of `l`, and nothing else has changed. -/
structure Filled (s t : Phys) (a : UInt64) (l : List UInt8) : Prop where
  byte : ∀ i < l.length, t.byte (addr a i) = l.getD i 0
  frame : ∀ b, (∀ i < l.length, b ≠ addr a i) → t.byte b = s.byte b
  word : ∀ p, (∀ i < l.length, p ≠ PGROUNDDOWN (addr a i)) → t.word p = s.word p
  freelist : t.freelist = s.freelist
  kend : t.kend = s.kend

theorem setBytes_filled (s : Phys) (a : UInt64) {l : List UInt8} (hl : l.length < 2 ^ 64) :
    Filled s (s.setBytes a l) a l := by
  induction l generalizing s a with
  | nil => exact ⟨nofun, fun _ _ => rfl, fun _ _ => rfl, rfl, rfl⟩
  | cons x l ih =>
    rw [List.length_cons] at hl
    have hrest := ih (s.setByte a x) (a + 1) (by omega)
    have hfirst : ∀ i < l.length, a ≠ addr (a + 1) i := by
      intro i hi heq
      rw [← addr_succ, ← addr_zero a, addr_addr, Nat.zero_add] at heq
      have := addr_injective (by omega) (by omega) heq
      omega
    constructor
    case byte =>
      intro i hi
      rw [List.length_cons] at hi
      cases i with
      | zero =>
        rw [addr_zero]
        exact (hrest.frame a hfirst).trans (byte_setByte_self s a x)
      | succ i =>
        rw [addr_succ, List.getD_cons_succ]
        exact hrest.byte i (by omega)
    case frame =>
      intro b hb
      rw [List.length_cons] at hb
      refine (hrest.frame b fun i hi => addr_succ a i ▸ hb (i + 1) (by omega)).trans ?_
      exact byte_setByte_of_ne (addr_zero a ▸ hb 0 (by omega))
    case word =>
      intro p hp
      rw [List.length_cons] at hp
      refine (hrest.word p fun i hi => addr_succ a i ▸ hp (i + 1) (by omega)).trans ?_
      exact word_setByte (addr_zero a ▸ hp 0 (by omega))
    case freelist => exact hrest.freelist
    case kend => exact hrest.kend

/-- The byte of a page of zeros. -/
theorem byte_of_zero (h : s.word (PGROUNDDOWN a) = fun _ => 0) : s.byte a = 0 := by
  rw [byte, h, WordBytes.byteAt, UInt64.toNat_zero, Nat.zero_div]
  rfl

/-! ### Strings -/

/-- `for(n = 0; s[n]; n++)`. -/
def strlenFrom (s : Phys) : ℕ → UInt64 → ℕ
  | 0, _ => 0
  | n + 1, a => if s.byte a = 0 then 0 else strlenFrom s n (a + 1) + 1

/-- The string at `a` has `k` bytes before its NUL. -/
structure HasString (s : Phys) (a : UInt64) (k : ℕ) : Prop where
  before : ∀ i < k, s.byte (addr a i) ≠ 0
  nul : s.byte (addr a k) = 0

theorem strlenFrom_eq {k : ℕ} (h : s.HasString a k) (hk : k < n) : strlenFrom s n a = k := by
  induction n generalizing a k with
  | zero => omega
  | succ n ih =>
    rw [strlenFrom]
    cases k with
    | zero =>
      have hnul := h.nul
      rw [addr_zero] at hnul
      rw [if_pos hnul]
    | succ k =>
      have hfirst := h.before 0 (by omega)
      rw [addr_zero] at hfirst
      have hrest : s.HasString (a + 1) k := by
        refine ⟨fun i hi => ?_, ?_⟩
        · rw [← addr_succ]
          exact h.before (i + 1) (by omega)
        · rw [← addr_succ]
          exact h.nul
      rw [if_neg hfirst, ih hrest (by omega)]

end Phys

/-- `strlen(s)`; memory has no more addresses. -/
def Vm.strlen (a : UInt64) : VmM ℕ := do return (← get).strlenFrom (2 ^ 64) a

/-- `memmove(dst, src, n)`. -/
def Vm.memmove (dst src : UInt64) (n : ℕ) : VmM Unit := modify fun s => s.moved dst src n

end Xv6
