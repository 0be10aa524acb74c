import Mathlib

/-! # Fixed-size byte arrays and little-endian words

`Bytes n` is an array of `n` bytes. Two operations move data in and out of it: `blit` overwrites
a range with a list of bytes and `slice` reads a range back. On top of them sit little-endian
words: `putLE b off w v` stores the low `w` bytes of `v` at offset `off`, `getLE b off w` reads
them. The laws are the usual lens laws: a read of the range just written returns what was written
(`slice_blit_same`, `getLE_putLE_same`), and a read of a disjoint range is unaffected
(`slice_blit_disjoint`, `getLE_putLE_disjoint`). -/

/-- An array of `n` bytes. -/
abbrev Bytes (n : ℕ) : Type := Fin n → UInt8

namespace Bytes

variable {n : ℕ}

/-- The all-zero array, as left by `memset(p, 0, n)`. -/
def zero (n : ℕ) : Bytes n := fun _ => 0

/-- Byte `k` of the array, `0` past its end. -/
def get (b : Bytes n) (k : ℕ) : UInt8 := if h : k < n then b ⟨k, h⟩ else 0

/-- Overwrite the range starting at `off` with the bytes of `l` (`memmove(b + off, l, |l|)`). -/
def blit (b : Bytes n) (off : ℕ) (l : List UInt8) : Bytes n := fun i =>
  if off ≤ i.1 ∧ i.1 < off + l.length then l.getD (i.1 - off) 0 else b i

/-- The `len` bytes from `off` on. -/
def slice (b : Bytes n) (off len : ℕ) : List UInt8 := (List.range len).map fun k => b.get (off + k)

@[simp] theorem get_zero (k : ℕ) : (zero n).get k = 0 := by
  unfold get zero; split <;> rfl

/-- Reading one byte after a `blit`. -/
theorem get_blit (b : Bytes n) (off : ℕ) (l : List UInt8) {k : ℕ} (hk : k < n) :
    (b.blit off l).get k
      = if off ≤ k ∧ k < off + l.length then l.getD (k - off) 0 else b.get k := by
  simp [get, blit, hk]

@[simp] theorem length_slice (b : Bytes n) (off len : ℕ) : (b.slice off len).length = len := by
  simp [slice]

/-- A slice of the range just written is what was written. -/
theorem slice_blit_same (b : Bytes n) (off : ℕ) (l : List UInt8) (h : off + l.length ≤ n) :
    (b.blit off l).slice off l.length = l := by
  apply List.ext_getElem (by simp)
  intro k hk hk'
  have hkn : off + k < n := by omega
  simp only [slice, List.getElem_map, List.getElem_range, get_blit b off l hkn]
  rw [if_pos ⟨by omega, by omega⟩, Nat.add_sub_cancel_left, List.getD_eq_getElem _ _ hk']

/-- A slice disjoint from the range written is unaffected. -/
theorem slice_blit_disjoint (b : Bytes n) {off off' len : ℕ} {l : List UInt8}
    (h : off' + len ≤ off ∨ off + l.length ≤ off') :
    (b.blit off l).slice off' len = b.slice off' len := by
  unfold slice
  apply List.map_congr_left
  intro k hk
  have hk := List.mem_range.mp hk
  by_cases hkn : off' + k < n
  · rw [get_blit b off l hkn, if_neg (by omega)]
  · simp [get, hkn]

/-- The low `w` bytes of `v`, least significant first. -/
def leBytes : ℕ → ℕ → List UInt8
  | 0, _ => []
  | w + 1, v => UInt8.ofNat v :: leBytes w (v / 256)

/-- The number a little-endian byte list denotes. -/
def leNat : List UInt8 → ℕ
  | [] => 0
  | a :: l => a.toNat + 256 * leNat l

@[simp] theorem length_leBytes (w v : ℕ) : (leBytes w v).length = w := by
  induction w generalizing v with
  | zero => rfl
  | succ w ih => simp [leBytes, ih]

/-- **Encoding then decoding** keeps the low `w` bytes of the value. -/
theorem leNat_leBytes (w v : ℕ) : leNat (leBytes w v) = v % 256 ^ w := by
  induction w generalizing v with
  | zero => simp [leBytes, leNat, Nat.mod_one]
  | succ w ih =>
    rw [leBytes, leNat, ih, Nat.pow_succ', Nat.mod_mul]
    simp

/-- Read the `w`-byte little-endian word at `off`. -/
def getLE (b : Bytes n) (off w : ℕ) : ℕ := leNat (b.slice off w)

/-- Store the low `w` bytes of `v` at `off`. -/
def putLE (b : Bytes n) (off w v : ℕ) : Bytes n := b.blit off (leBytes w v)

/-- A word reads back as stored, truncated to its width. -/
theorem getLE_putLE_same (b : Bytes n) (off w v : ℕ) (h : off + w ≤ n) :
    (b.putLE off w v).getLE off w = v % 256 ^ w := by
  have hs := slice_blit_same b off (leBytes w v) (by simpa using h)
  rw [length_leBytes] at hs
  rw [getLE, putLE, hs, leNat_leBytes]

/-- A word disjoint from the one stored is unaffected. -/
theorem getLE_putLE_disjoint (b : Bytes n) {off w off' w' : ℕ} (v : ℕ)
    (h : off' + w' ≤ off ∨ off + w ≤ off') :
    (b.putLE off w v).getLE off' w' = b.getLE off' w' := by
  rw [getLE, putLE, slice_blit_disjoint b (by simpa using h), getLE]

/-- Store consecutive 32-bit words from `off` on (a loop of `a[i] = v_i`). -/
def putWords (b : Bytes n) (off : ℕ) : List ℕ → Bytes n
  | [] => b
  | v :: vs => (b.putLE off 4 v).putWords (off + 4) vs

/-- Read `k` consecutive 32-bit words from `off` on. -/
def getWords (b : Bytes n) (off k : ℕ) : List ℕ := (List.range k).map fun i => b.getLE (off + 4 * i) 4

/-- A word disjoint from the stored run of words is unaffected. -/
theorem getLE_putWords_disjoint (b : Bytes n) {off off' w' : ℕ} (vs : List ℕ)
    (h : off' + w' ≤ off ∨ off + 4 * vs.length ≤ off') :
    (b.putWords off vs).getLE off' w' = b.getLE off' w' := by
  induction vs generalizing b off with
  | nil => rfl
  | cons v vs ih =>
    simp only [List.length_cons] at h
    rw [putWords, ih _ (by omega), getLE_putLE_disjoint b v (by omega)]

/-- Word `i` of a stored run reads back as stored. -/
theorem getLE_putWords (b : Bytes n) (off : ℕ) (vs : List ℕ) (h : off + 4 * vs.length ≤ n) {i : ℕ}
    (hi : i < vs.length) : (b.putWords off vs).getLE (off + 4 * i) 4 = vs.getD i 0 % 2 ^ 32 := by
  induction vs generalizing b off i with
  | nil => simp at hi
  | cons v vs ih =>
    simp only [List.length_cons] at h hi
    rw [putWords]
    cases i with
    | zero =>
      rw [getLE_putWords_disjoint _ _ (by omega)]
      simpa using getLE_putLE_same b off 4 v (by omega)
    | succ i =>
      have := ih (b.putLE off 4 v) (off + 4) (by omega) (i := i) (by omega)
      rw [show off + 4 * (i + 1) = off + 4 + 4 * i by omega, this, List.getD_cons_succ]

/-- **A stored run of words reads back** when every value fits in 32 bits. -/
theorem getWords_putWords (b : Bytes n) {off : ℕ} (vs : List ℕ) (h : off + 4 * vs.length ≤ n)
    (hv : ∀ v ∈ vs, v < 2 ^ 32) : (b.putWords off vs).getWords off vs.length = vs := by
  apply List.ext_getElem (by simp [getWords])
  intro i hi hi'
  simp only [getWords, List.getElem_map, List.getElem_range]
  rw [getLE_putWords b off vs h hi', List.getD_eq_getElem _ _ hi',
    Nat.mod_eq_of_lt (hv _ (List.getElem_mem hi'))]

end Bytes
