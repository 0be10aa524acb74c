import Mathlib

/-! # The bytes of a word

The eight bytes of a 64-bit word, least significant first: writing one leaves the others, and together
they are the word. -/

namespace WordBytes

/-- Byte `k` of a word. -/
def byteAt (w : UInt64) (k : ℕ) : UInt8 := UInt8.ofNat (w.toNat / 256 ^ k)

/-- The number with digit `k` in base 256 replaced. -/
def replace (n k b : ℕ) : ℕ := n / 256 ^ (k + 1) * 256 ^ (k + 1) + (b * 256 ^ k + n % 256 ^ k)

/-- The word with byte `k` replaced. -/
def withByte (w : UInt64) (k : ℕ) (b : UInt8) : UInt64 := UInt64.ofNat (replace w.toNat k b.toNat)

variable {n j k b : ℕ} {w w' : UInt64} {c : UInt8}

/-! ### Digits -/

theorem low_lt (hb : b < 256) : b * 256 ^ k + n % 256 ^ k < 256 ^ (k + 1) := by
  have hmod : n % 256 ^ k < 256 ^ k := Nat.mod_lt _ (Nat.pow_pos (by decide))
  calc b * 256 ^ k + n % 256 ^ k < b * 256 ^ k + 256 ^ k := by omega
    _ = (b + 1) * 256 ^ k := by ring
    _ ≤ 256 * 256 ^ k := Nat.mul_le_mul_right _ hb
    _ = 256 ^ (k + 1) := by ring

theorem replace_div (hb : b < 256) : replace n k b / 256 ^ (k + 1) = n / 256 ^ (k + 1) := by
  rw [replace, Nat.mul_comm, Nat.mul_add_div (Nat.pow_pos (by decide)), Nat.div_eq_of_lt (low_lt hb), Nat.add_zero]

theorem replace_mod : replace n k b % 256 ^ k = n % 256 ^ k := by
  have h : replace n k b = n % 256 ^ k + 256 ^ k * (n / 256 ^ (k + 1) * 256 + b) := by
    rw [replace]
    ring
  rw [h, Nat.add_mul_mod_self_left, Nat.mod_mod]

theorem replace_self (hb : b < 256) : replace n k b / 256 ^ k % 256 = b := by
  have hmod : n % 256 ^ k < 256 ^ k := Nat.mod_lt _ (Nat.pow_pos (by decide))
  have h : replace n k b = n % 256 ^ k + 256 ^ k * (n / 256 ^ (k + 1) * 256 + b) := by
    rw [replace]
    ring
  rw [h, Nat.add_mul_div_left _ _ (Nat.pow_pos (by decide)), Nat.div_eq_of_lt hmod]
  omega

theorem replace_of_ne (hb : b < 256) (h : j ≠ k) : replace n k b / 256 ^ j % 256 = n / 256 ^ j % 256 := by
  rcases Nat.lt_or_gt_of_ne h with hlt | hgt
  · -- a lower digit is one of the remainder
    obtain ⟨m, rfl⟩ : ∃ m, k = j + 1 + m := ⟨k - (j + 1), by omega⟩
    have hdvd : 256 ^ (j + 1) ∣ 256 ^ (j + 1 + m) := pow_dvd_pow 256 (by omega)
    have hmod : replace n (j + 1 + m) b % 256 ^ (j + 1) = n % 256 ^ (j + 1) := by
      rw [← Nat.mod_mod_of_dvd _ hdvd, replace_mod, Nat.mod_mod_of_dvd _ hdvd]
    rw [pow_succ] at hmod
    rw [← Nat.mod_mul_right_div_self, ← Nat.mod_mul_right_div_self, hmod]
  · -- a higher digit is one of the quotient
    obtain ⟨m, rfl⟩ : ∃ m, j = k + 1 + m := ⟨j - (k + 1), by omega⟩
    rw [pow_add, ← Nat.div_div_eq_div_mul, ← Nat.div_div_eq_div_mul, replace_div hb]

theorem replace_lt (hk : k < 8) (hb : b < 256) (hn : n < 256 ^ 8) : replace n k b < 256 ^ 8 := by
  obtain ⟨m, hm⟩ : ∃ m, 8 = k + 1 + m := ⟨8 - (k + 1), by omega⟩
  rw [hm, pow_add] at hn ⊢
  have hdiv : replace n k b / 256 ^ (k + 1) < 256 ^ m := by
    rw [replace_div hb]
    exact Nat.div_lt_of_lt_mul hn
  rw [Nat.mul_comm]
  exact (Nat.div_lt_iff_lt_mul (Nat.pow_pos (by decide))).mp hdiv

/-! ### Bytes -/

theorem toNat_byteAt (w : UInt64) (k : ℕ) : (byteAt w k).toNat = w.toNat / 256 ^ k % 256 := by
  rw [byteAt, UInt8.toNat_ofNat']

theorem toNat_withByte (hk : k < 8) (w : UInt64) (c : UInt8) :
    (withByte w k c).toNat = replace w.toNat k c.toNat := by
  rw [withByte, UInt64.toNat_ofNat']
  exact Nat.mod_eq_of_lt (replace_lt hk c.toNat_lt w.toNat_lt)

theorem byteAt_withByte_self (hk : k < 8) (w : UInt64) (c : UInt8) : byteAt (withByte w k c) k = c := by
  apply UInt8.toNat_inj.mp
  rw [toNat_byteAt, toNat_withByte hk, replace_self c.toNat_lt]

theorem byteAt_withByte_of_ne (hk : k < 8) (h : j ≠ k) : byteAt (withByte w k c) j = byteAt w j := by
  apply UInt8.toNat_inj.mp
  rw [toNat_byteAt, toNat_withByte hk, replace_of_ne c.toNat_lt h, toNat_byteAt]

/-- A word is its bytes. -/
theorem ext (h : ∀ k < 8, byteAt w k = byteAt w' k) : w = w' := by
  have hdigit : ∀ k < 8, w.toNat / 256 ^ k % 256 = w'.toNat / 256 ^ k % 256 := by
    intro k hk
    rw [← toNat_byteAt, ← toNat_byteAt, h k hk]
  have hlow : ∀ k ≤ 8, w.toNat % 256 ^ k = w'.toNat % 256 ^ k := by
    intro k
    induction k with
    | zero =>
      intro _
      rw [pow_zero, Nat.mod_one, Nat.mod_one]
    | succ k ih =>
      intro hk
      rw [pow_succ, Nat.mod_mul, Nat.mod_mul, ih (by omega), hdigit k (by omega)]
  have hmod := hlow 8 le_rfl
  have hlt : ∀ v : UInt64, v.toNat < 256 ^ 8 := fun v => v.toNat_lt
  rw [Nat.mod_eq_of_lt (hlt w), Nat.mod_eq_of_lt (hlt w')] at hmod
  exact UInt64.toNat_inj.mp hmod

end WordBytes
