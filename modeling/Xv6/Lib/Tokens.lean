import Mathlib

/-! # References and their owners

Counted objects `ι` are shared by owners `P`: `own p i` is how many references to `i` the owner `p` has,
and `refs own i` how many there are. An owner gets a reference (`gain`) or gives one up (`lose`). An
object with one reference has one owner, which is what protocols for freeing objects rest on. -/

namespace Tokens

variable {P ι : Type*} {own : P → ι → ℕ} {p q : P} {i j : ι}

section Sum

variable [Fintype P]

/-- How many references to an object there are. -/
def refs (own : P → ι → ℕ) (i : ι) : ℕ := ∑ p, own p i

theorem own_le_refs (own : P → ι → ℕ) (p : P) (i : ι) : own p i ≤ refs own i :=
  Finset.single_le_sum (f := fun q => own q i) (fun _ _ => Nat.zero_le _) (Finset.mem_univ p)

end Sum

variable [DecidableEq P]

/-- Two owners have at least two references. -/
theorem two_le_refs [Fintype P] (hpq : p ≠ q) (hp : 0 < own p i) (hq : 0 < own q i) :
    2 ≤ refs own i := by
  have hsub : ∑ r ∈ {p, q}, own r i ≤ refs own i :=
    Finset.sum_le_sum_of_subset (Finset.subset_univ _)
  rw [Finset.sum_pair hpq] at hsub
  omega

/-- If only `p` changes, the sum changes by as much. -/
theorem refs_change [Fintype P] {own' : P → ι → ℕ} {a b : ℕ} (hsame : ∀ q, q ≠ p → own' q i = own q i)
    (hat : own' p i + a = own p i + b) : refs own' i + a = refs own i + b := by
  have hrest : ∑ q ∈ Finset.univ.erase p, own' q i = ∑ q ∈ Finset.univ.erase p, own q i :=
    Finset.sum_congr rfl fun q hq => hsame q (Finset.ne_of_mem_erase hq)
  rw [refs, refs, ← Finset.add_sum_erase _ _ (Finset.mem_univ p),
    ← Finset.add_sum_erase _ _ (Finset.mem_univ p), hrest]
  omega

variable [DecidableEq ι]

/-- Owner `p` has one more reference to `i`. -/
def gain (own : P → ι → ℕ) (p : P) (i : ι) : P → ι → ℕ :=
  Function.update own p (Function.update (own p) i (own p i + 1))

/-- Owner `p` has one reference to `i` less. -/
def lose (own : P → ι → ℕ) (p : P) (i : ι) : P → ι → ℕ :=
  Function.update own p (Function.update (own p) i (own p i - 1))

theorem gain_apply (own : P → ι → ℕ) (p q : P) (i j : ι) :
    gain own p i q j = if q = p ∧ j = i then own q j + 1 else own q j := by
  rcases eq_or_ne q p with rfl | hq
  · by_cases hj : j = i
    · subst hj
      simp [gain]
    · simp [gain, hj]
  · simp [gain, hq]

theorem lose_apply (own : P → ι → ℕ) (p q : P) (i j : ι) :
    lose own p i q j = if q = p ∧ j = i then own q j - 1 else own q j := by
  rcases eq_or_ne q p with rfl | hq
  · by_cases hj : j = i
    · subst hj
      simp [lose]
    · simp [lose, hj]
  · simp [lose, hq]

theorem le_gain (own : P → ι → ℕ) (p q : P) (i j : ι) : own q j ≤ gain own p i q j := by
  rw [gain_apply]
  split <;> omega

theorem lose_of_ne (h : q ≠ p ∨ j ≠ i) : lose own p i q j = own q j := by
  rw [lose_apply, if_neg fun hc => h.elim (absurd hc.1) (absurd hc.2)]

theorem refs_gain [Fintype P] (own : P → ι → ℕ) (p : P) (i j : ι) :
    refs (gain own p i) j = refs own j + if j = i then 1 else 0 := by
  refine refs_change (p := p) (a := 0) (fun q hq => ?_) ?_
  · rw [gain_apply, if_neg fun hc => hq hc.1]
  · rw [gain_apply]
    by_cases hj : j = i <;> simp [hj]

theorem refs_lose [Fintype P] (h : 0 < own p i) (j : ι) :
    refs (lose own p i) j + (if j = i then 1 else 0) = refs own j := by
  refine refs_change (p := p) (b := 0) (fun q hq => lose_of_ne (.inl hq)) ?_
  rw [lose_apply]
  rcases eq_or_ne j i with rfl | hj
  · simp
    omega
  · simp [hj]

end Tokens
