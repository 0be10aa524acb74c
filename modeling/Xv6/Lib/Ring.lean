import Mathlib

/-! # Ring buffers

A ring of `cap` cells is read and written at positions that only count up; position `k` is cell
`k % cap`. The contents from position `start` on are a list, to which a write at the end appends and
from which a read at the start takes the head, as long as no more than `cap` cells are in use. -/

universe u

namespace Ring

variable {α : Type u} {cap : ℕ} [NeZero cap]

/-- The `n` elements from position `start` on. -/
def contents (data : Fin cap → α) (start n : ℕ) : List α :=
  (List.range n).map fun k => data (Fin.ofNat cap (start + k))

variable {data : Fin cap → α} {start n : ℕ}

@[simp] theorem contents_zero (data : Fin cap → α) (start : ℕ) : contents data start 0 = [] := rfl

@[simp] theorem length_contents (data : Fin cap → α) (start n : ℕ) :
    (contents data start n).length = n := by
  rw [contents, List.length_map, List.length_range]

/-- Only the cell of a position matters. -/
theorem contents_congr {start' : ℕ} (h : start' % cap = start % cap) (n : ℕ) :
    contents data start' n = contents data start n := by
  refine List.map_congr_left fun k _ => ?_
  have : Fin.ofNat cap (start' + k) = Fin.ofNat cap (start + k) := by
    apply Fin.ext
    rw [Fin.val_ofNat, Fin.val_ofNat, Nat.add_mod, h, ← Nat.add_mod]
  rw [this]

/-- Taking the first element. -/
theorem contents_succ (data : Fin cap → α) (start n : ℕ) :
    contents data start (n + 1) =
      data (Fin.ofNat cap start) :: contents data (start + 1) n := by
  rw [contents, List.range_succ_eq_map, List.map_cons, List.map_map, Nat.add_zero, contents]
  congr 1
  refine List.map_congr_left fun k _ => ?_
  rw [Function.comp_apply, Nat.succ_eq_add_one, Nat.add_assoc, Nat.add_comm 1 k]

/-- Taking the last element. -/
theorem contents_concat (data : Fin cap → α) (start n : ℕ) :
    contents data start (n + 1) = contents data start n ++ [data (Fin.ofNat cap (start + n))] := by
  rw [contents, List.range_succ, List.map_append, List.map_singleton, contents]

/-- The contents up to a position, then those from it on. -/
theorem contents_add (data : Fin cap → α) (start m n : ℕ) :
    contents data start (m + n) = contents data start m ++ contents data (start + m) n := by
  rw [contents, List.range_add, List.map_append, List.map_map, contents, contents]
  congr 1
  refine List.map_congr_left fun k _ => ?_
  rw [Function.comp_apply, Nat.add_assoc]

/-- Different positions within `cap` of each other are different cells. -/
theorem ofNat_add_ne {k : ℕ} (hk : k < n) (hn : n < cap) :
    Fin.ofNat cap (start + k) ≠ Fin.ofNat cap (start + n) := by
  intro h
  have hmod : (start + k) % cap = (start + n) % cap := congrArg Fin.val h
  have hdvd := (Nat.modEq_iff_dvd' (show start + k ≤ start + n by omega)).mp hmod
  have hle := Nat.le_of_dvd (by omega) hdvd
  omega

/-- Writing after the elements leaves them alone. -/
theorem contents_update {m : ℕ} (hnm : n ≤ m) (hm : m < cap) (a : α) :
    contents (Function.update data (Fin.ofNat cap (start + m)) a) start n = contents data start n := by
  refine List.map_congr_left fun k hk => ?_
  have hkm : k < m := lt_of_lt_of_le (List.mem_range.mp hk) hnm
  exact Function.update_of_ne (ofNat_add_ne hkm hm) _ _

/-- Writing after the last element appends, if there is room. -/
theorem contents_push (hn : n < cap) (a : α) :
    contents (Function.update data (Fin.ofNat cap (start + n)) a) start (n + 1) =
      contents data start n ++ [a] := by
  rw [contents_concat, Function.update_self, contents_update le_rfl hn]

/-! ## Counters that wrap

The positions are kept in counters modulo `M`. As long as the capacity divides `M`, this is not seen. -/

section Wrap

variable {M i j : ℕ}

/-- The distance from `i` to `j`, for counters that wrap at `M`. -/
def dist (M i j : ℕ) : ℕ := (M - i + j) % M

theorem dist_eq (hi : i < M) (hj : j < M) : dist M i j = if i ≤ j then j - i else M - i + j := by
  unfold dist
  split
  · have h : M - i + j = j - i + M := by omega
    rw [h, Nat.add_mod_right, Nat.mod_eq_of_lt (by omega)]
  · rw [Nat.mod_eq_of_lt (by omega)]

theorem succ_mod (hj : j < M) : (j + 1) % M = if j + 1 = M then 0 else j + 1 := by
  split
  · rename_i h
    rw [h, Nat.mod_self]
  · rw [Nat.mod_eq_of_lt (by omega)]

theorem dist_eq_zero (hi : i < M) (hj : j < M) : dist M i j = 0 ↔ i = j := by
  rw [dist_eq hi hj]
  split <;> omega

theorem dist_succ (hi : i < M) (hj : j < M) (h : dist M i j + 1 < M) :
    dist M i ((j + 1) % M) = dist M i j + 1 := by
  have hmod := succ_mod hj
  rw [dist_eq hi hj] at h ⊢
  rw [dist_eq hi (Nat.mod_lt _ (by omega)), hmod]
  split at h <;> split <;> split <;> omega

theorem succ_dist (hi : i < M) (hj : j < M) (h : i ≠ j) :
    dist M ((i + 1) % M) j + 1 = dist M i j := by
  have hmod := succ_mod hi
  rw [dist_eq hi hj, dist_eq (Nat.mod_lt _ (by omega)) hj, hmod]
  split <;> split <;> split <;> omega

/-- The cell of a counter. -/
theorem ofNat_add_dist (hM : cap ∣ M) (hi : i < M) (hj : j < M) :
    Fin.ofNat cap (i + dist M i j) = Fin.ofNat cap j := by
  apply Fin.ext
  rw [Fin.val_ofNat, Fin.val_ofNat, dist_eq hi hj]
  split
  · rw [Nat.add_sub_cancel' (by omega)]
  · obtain ⟨k, hk⟩ := hM
    have h : i + (M - i + j) = cap * k + j := by omega
    rw [h, Nat.mul_add_mod]

/-- The elements from counter `i` to counter `j`. -/
def window (data : Fin cap → α) (M i j : ℕ) : List α := contents data i (dist M i j)

@[simp] theorem length_window (data : Fin cap → α) (M i j : ℕ) :
    (window data M i j).length = dist M i j := length_contents data i _

theorem window_eq_nil (hi : i < M) (hj : j < M) : window data M i j = [] ↔ i = j := by
  rw [← List.length_eq_zero_iff, length_window, dist_eq_zero hi hj]

/-- Taking the first element. -/
theorem window_eq_cons (hM : cap ∣ M) (hi : i < M) (hj : j < M) (h : i ≠ j) :
    window data M i j = data (Fin.ofNat cap i) :: window data M ((i + 1) % M) j := by
  rw [window, ← succ_dist hi hj h, contents_succ, window]
  congr 1
  apply contents_congr
  rw [Nat.mod_mod_of_dvd _ hM]

/-- Writing at the end counter leaves the elements alone. -/
theorem window_update (hM : cap ∣ M) (hi : i < M) (hj : j < M) (h : dist M i j < cap) (a : α) :
    window (Function.update data (Fin.ofNat cap j) a) M i j = window data M i j := by
  rw [window, ← ofNat_add_dist hM hi hj, contents_update le_rfl h, window]

/-- Counting the element at the end counter. -/
theorem window_succ (hM : cap ∣ M) (hi : i < M) (hj : j < M) (h : dist M i j + 1 < M) :
    window data M i ((j + 1) % M) = window data M i j ++ [data (Fin.ofNat cap j)] := by
  rw [window, dist_succ hi hj h, contents_concat, ofNat_add_dist hM hi hj, window]

end Wrap

end Ring
