import Mathlib

/-! # Scanning memory

The loop `while(s < es && p(*s)) s++`, over what `read` finds at a position. -/

namespace Scan

variable {α : Type*} {p : α → Bool} {read : ℕ → α} {n s e es : ℕ}

/-- At most `n` rounds of the loop. -/
def scanFor (p : α → Bool) (read : ℕ → α) : ℕ → ℕ → ℕ
  | 0, s => s
  | n + 1, s => if p (read s) then scanFor p read n (s + 1) else s

/-- Where the loop stops. -/
def scan (p : α → Bool) (read : ℕ → α) (es s : ℕ) : ℕ := scanFor p read (es - s) s

theorem scan_step (h : s < es) (hp : p (read s) = true) : scan p read es s = scan p read es (s + 1) := by
  obtain ⟨n, hn⟩ : ∃ n, es - s = n + 1 := ⟨es - s - 1, by omega⟩
  rw [scan, scan, hn, scanFor, if_pos hp, show es - (s + 1) = n by omega]

theorem scan_stop (h : s < es → p (read s) = false) : scan p read es s = s := by
  rcases Nat.lt_or_ge s es with hs | hs
  · obtain ⟨n, hn⟩ : ∃ n, es - s = n + 1 := ⟨es - s - 1, by omega⟩
    rw [scan, hn, scanFor, if_neg (by simp [h hs])]
  · rw [scan, Nat.sub_eq_zero_of_le hs, scanFor]

theorem le_scanFor : s ≤ scanFor p read n s := by
  induction n generalizing s with
  | zero => exact le_rfl
  | succ n ih =>
    rw [scanFor]
    split
    · exact (Nat.le_succ s).trans ih
    · exact le_rfl

theorem scanFor_le : scanFor p read n s ≤ s + n := by
  induction n generalizing s with
  | zero => exact le_rfl
  | succ n ih =>
    rw [scanFor]
    split
    · exact ih.trans (by omega)
    · omega

theorem le_scan : s ≤ scan p read es s := le_scanFor

theorem scan_le (h : s ≤ es) : scan p read es s ≤ es :=
  scanFor_le.trans (Nat.add_sub_cancel' h).le

/-- Short of the end, the scan stops at an element that does not satisfy the predicate. -/
theorem scanFor_stops (h : scanFor p read n s < s + n) : p (read (scanFor p read n s)) = false := by
  induction n generalizing s with
  | zero => exact absurd h (Nat.lt_irrefl s)
  | succ n ih =>
    rw [scanFor] at h ⊢
    split
    · rename_i hp
      rw [if_pos hp] at h
      exact ih (by omega)
    · rename_i hp
      exact Bool.eq_false_iff.mpr hp

theorem scan_stops (h : scan p read es s < es) : p (read (scan p read es s)) = false := by
  have hle : s ≤ scan p read es s := le_scan
  exact scanFor_stops (by rw [Nat.add_sub_cancel' (by omega)]; exact h)

/-- A scan of a list stops behind the elements that satisfy the predicate. -/
theorem scan_append {buf xs rest : List α} {d : α} (h : buf.drop s = xs ++ rest)
    (hxs : ∀ x ∈ xs, p x = true) (hes : s + xs.length ≤ es)
    (hstop : s + xs.length < es → p (buf.getD (s + xs.length) d) = false) :
    scan p (buf.getD · d) es s = s + xs.length := by
  induction xs generalizing s with
  | nil => exact scan_stop hstop
  | cons x xs ih =>
    have hread : buf.getD s d = x := by
      rw [List.getD_eq_getElem?_getD, ← List.head?_drop, h]
      rfl
    have hrest : buf.drop (s + 1) = xs ++ rest := by
      rw [← List.drop_drop, h]
      rfl
    have hlen : s + (x :: xs).length = s + 1 + xs.length := by
      rw [List.length_cons]
      omega
    rw [hlen] at hes hstop ⊢
    rw [scan_step (by omega) (by rw [hread]; exact hxs x List.mem_cons_self)]
    exact ih hrest (fun y hy => hxs y (List.mem_cons_of_mem x hy)) hes hstop

end Scan
