import Mathlib

/-! # Words in a byte-addressed memory

Little-endian words of `w` bytes at any address: a word that was written is read back, and a word that
does not overlap it is unaffected. -/

namespace ByteMem

/-- The word of `w` bytes at `a`. -/
def readLE (m : ℕ → UInt8) : ℕ → ℕ → ℕ
  | _, 0 => 0
  | a, w + 1 => (m a).toNat + 256 * readLE m (a + 1) w

/-- Store the low `w` bytes of `v` at `a`. -/
def writeLE (m : ℕ → UInt8) (a w v : ℕ) : ℕ → UInt8 := fun x =>
  if a ≤ x ∧ x < a + w then UInt8.ofNat (v / 256 ^ (x - a)) else m x

variable {m m' : ℕ → UInt8} {a b w v x : ℕ}

theorem readLE_congr (h : ∀ x, a ≤ x → x < a + w → m' x = m x) : readLE m' a w = readLE m a w := by
  induction w generalizing a with
  | zero => rfl
  | succ w ih =>
    rw [readLE, readLE, h a le_rfl (by omega), ih fun x hx hlt => h x (by omega) (by omega)]

theorem readLE_lt (m : ℕ → UInt8) (a w : ℕ) : readLE m a w < 256 ^ w := by
  induction w generalizing a with
  | zero => exact Nat.one_pos
  | succ w ih =>
    have hbyte : (m a).toNat < 256 := (m a).toNat_lt
    have hrest := ih (a + 1)
    rw [readLE, pow_succ]
    omega

theorem writeLE_of_outside (h : x < a ∨ a + w ≤ x) : writeLE m a w v x = m x := if_neg (by omega)

/-- A word that was written is read back. -/
theorem readLE_writeLE (m : ℕ → UInt8) (a w v : ℕ) : readLE (writeLE m a w v) a w = v % 256 ^ w := by
  -- the bytes from `i` on, wherever the word starts
  suffices h : ∀ n i, i + n = w → readLE (writeLE m a w v) (a + i) n = v / 256 ^ i % 256 ^ n by
    simpa using h w 0 (by omega)
  intro n
  induction n with
  | zero =>
    intro i _
    rw [readLE, pow_zero, Nat.mod_one]
  | succ n ih =>
    intro i hi
    have hbyte : (writeLE m a w v (a + i)).toNat = v / 256 ^ i % 256 := by
      rw [writeLE, if_pos ⟨by omega, by omega⟩, Nat.add_sub_cancel_left, UInt8.toNat_ofNat']
    rw [readLE, hbyte, Nat.add_assoc, ih (i + 1) (by omega), pow_succ, ← Nat.div_div_eq_div_mul,
      pow_succ 256 n, Nat.mul_comm (256 ^ n), Nat.mod_mul]

/-- A word elsewhere is unaffected. -/
theorem readLE_writeLE_of_disjoint {w' : ℕ} (h : b + w' ≤ a ∨ a + w ≤ b) :
    readLE (writeLE m a w v) b w' = readLE m b w' :=
  readLE_congr fun x _ _ => writeLE_of_outside (by omega)

end ByteMem
