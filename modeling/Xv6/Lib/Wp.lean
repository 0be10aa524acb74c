import Mathlib

/-! # Weakest preconditions for stateful programs that can fail

A program over the state `σ` that can stop with an error `ε` is a `StateT σ (Except ε) α`.
`Wp x E Q s` says that `x`, run from `s`, either returns a value and a state that satisfy `Q`, or
stops with an error that satisfies `E`. There is one rule for each construct a program is built
from, and `Wp.mono` to use the specification of a called program. -/

universe u v w

variable {σ ε α β : Type u}

/-- `x` run from `s` ends in `Q`, or stops with an error in `E`. -/
def Wp (x : StateT σ (Except ε) α) (E : ε → Prop) (Q : α → σ → Prop) (s : σ) : Prop :=
  match x s with
  | .ok (a, s') => Q a s'
  | .error e => E e

variable {E : ε → Prop} {Q Q' : α → σ → Prop} {R : β → σ → Prop} {s : σ}

theorem wp_pure (a : α) : Wp (pure a : StateT σ (Except ε) α) E Q s ↔ Q a s := Iff.rfl

/-- Sequencing. -/
theorem wp_bind (x : StateT σ (Except ε) α) (f : α → StateT σ (Except ε) β) :
    Wp (x >>= f) E R s ↔ Wp x E (fun a => Wp (f a) E R) s := by
  simp only [Wp, bind, StateT.bind, Except.bind]
  cases x s with
  | error e => rfl
  | ok p => rfl

theorem wp_get {Q : σ → σ → Prop} :
    Wp (get : StateT σ (Except ε) σ) E Q s ↔ Q s s := Iff.rfl

theorem wp_set {Q : PUnit → σ → Prop} (t : σ) :
    Wp (set t : StateT σ (Except ε) PUnit) E Q s ↔ Q ⟨⟩ t := Iff.rfl

theorem wp_modify {Q : PUnit → σ → Prop} (f : σ → σ) :
    Wp (modify f : StateT σ (Except ε) PUnit) E Q s ↔ Q ⟨⟩ (f s) := Iff.rfl

theorem wp_throw (e : ε) : Wp (throw e : StateT σ (Except ε) α) E Q s ↔ E e := Iff.rfl

/-- A conditional is proved branch by branch. -/
theorem wp_ite {c : Prop} [Decidable c] {x y : StateT σ (Except ε) α} :
    Wp (if c then x else y) E Q s ↔ (c → Wp x E Q s) ∧ (¬ c → Wp y E Q s) := by
  by_cases h : c <;> simp [h]

/-- **The rule of consequence.** -/
theorem Wp.mono {x : StateT σ (Except ε) α} (h : Wp x E Q s) (hQ : ∀ a t, Q a t → Q' a t) :
    Wp x E Q' s := by
  unfold Wp at h ⊢
  cases hx : x s with
  | error e => simpa [hx] using h
  | ok p =>
    rw [hx] at h
    exact hQ _ _ h

/-- **The rule of sequencing**, with the specification of the first program. -/
theorem Wp.bind {x : StateT σ (Except ε) α} {f : α → StateT σ (Except ε) β} (h : Wp x E Q s)
    (hf : ∀ a t, Q a t → Wp (f a) E R t) : Wp (x >>= f) E R s :=
  (wp_bind x f).mpr (h.mono hf)

/-- Consequence on the errors. -/
theorem Wp.mono_error {x : StateT σ (Except ε) α} {E' : ε → Prop} (h : Wp x E Q s)
    (hE : ∀ e, E e → E' e) : Wp x E' Q s := by
  unfold Wp at h ⊢
  cases hx : x s with
  | error e =>
    rw [hx] at h
    exact hE _ h
  | ok p => simpa [hx] using h

/-- Nothing needs to be shown of a program of which nothing is asked. -/
theorem Wp.trivial {x : StateT σ (Except ε) α} :
    Wp x (fun _ => True) (fun _ _ => True) s := by
  unfold Wp
  cases x s with
  | error e => exact True.intro
  | ok p => exact True.intro

/-- Two specifications of one program hold together. -/
theorem Wp.and {x : StateT σ (Except ε) α} {E' : ε → Prop} (h : Wp x E Q s) (h' : Wp x E' Q' s) :
    Wp x E (fun a t => Q a t ∧ Q' a t) s := by
  unfold Wp at h h' ⊢
  cases hx : x s with
  | error e => simpa [hx] using h
  | ok p =>
    rw [hx] at h h'
    exact ⟨h, h'⟩

/-- A specification may speak of the run itself. -/
theorem Wp.run {x : StateT σ (Except ε) α} (h : Wp x E Q s) :
    Wp x (fun e => E e ∧ x s = .error e) (fun a t => Q a t ∧ x s = .ok (a, t)) s := by
  unfold Wp at h ⊢
  cases hx : x s with
  | error e =>
    rw [hx] at h
    exact ⟨h, rfl⟩
  | ok p =>
    rw [hx] at h
    exact ⟨h, rfl⟩

/-- What a program that meets its specification returns. -/
theorem Wp.ok {x : StateT σ (Except ε) α} (h : Wp x E Q s) {a : α} {t : σ}
    (hx : x s = .ok (a, t)) : Q a t := by
  rw [Wp, hx] at h
  exact h

/-- How a program that meets its specification stops. -/
theorem Wp.error {x : StateT σ (Except ε) α} (h : Wp x E Q s) {e : ε} (hx : x s = .error e) :
    E e := by
  rw [Wp, hx] at h
  exact h

/-- A program that has no error to stop with returns. -/
theorem Wp.total {x : StateT σ (Except ε) α} (h : Wp x (fun _ => False) Q s) :
    ∃ a t, x s = .ok (a, t) ∧ Q a t := by
  unfold Wp at h
  cases hx : x s with
  | error e =>
    rw [hx] at h
    exact h.elim
  | ok p =>
    rw [hx] at h
    exact ⟨p.1, p.2, rfl, h⟩

/-- A program whose errors are ruled out returns. -/
theorem Wp.returns {x : StateT σ (Except ε) α} (h : Wp x E Q s) (hE : ∀ e, ¬ E e) :
    ∃ a t, x s = .ok (a, t) ∧ Q a t :=
  (h.mono_error hE).total

/-- A program that meets two specifications without an error in common returns. -/
theorem Wp.returns_of_disjoint {x : StateT σ (Except ε) α} {E' : ε → Prop} (h : Wp x E Q s)
    (h' : Wp x E' Q' s) (hE : ∀ e, E e → ¬ E' e) : ∃ a t, x s = .ok (a, t) ∧ Q a t := by
  cases hx : x s with
  | error e => exact absurd (h'.error hx) (hE e (h.error hx))
  | ok p => exact ⟨p.1, p.2, rfl, h.ok hx⟩

/-! ### Runs -/

theorem run_bind_error {x : StateT σ (Except ε) α} {e : ε} (f : α → StateT σ (Except ε) β)
    (h : x s = .error e) : (x >>= f) s = .error e := by
  simp only [bind, StateT.bind, Except.bind, h]

theorem run_bind_ok {x : StateT σ (Except ε) α} {a : α} {t : σ} (f : α → StateT σ (Except ε) β)
    (h : x s = .ok (a, t)) : (x >>= f) s = f a t := by
  simp only [bind, StateT.bind, Except.bind, h]

/-- **The loop rule** for `for(k = 0; k < n; k++)`: an invariant indexed by the counter. -/
theorem wp_forM_range {f : ℕ → StateT σ (Except ε) PUnit} (I : ℕ → σ → Prop) (n : ℕ) (h0 : I 0 s)
    (hstep : ∀ k < n, ∀ t, I k t → Wp (f k) E (fun _ => I (k + 1)) t) :
    Wp ((List.range n).forM f) E (fun _ => I n) s := by
  -- the rounds from `k` on, `m` of them
  suffices h : ∀ m k t, k + m = n → I k t → Wp ((List.range' k m).forM f) E (fun _ => I n) t by
    rw [List.range_eq_range']
    exact h n 0 s (Nat.zero_add n) h0
  intro m
  induction m with
  | zero =>
    intro k t hk hI
    obtain rfl : k = n := hk
    exact hI
  | succ m ih =>
    intro k t hk hI
    rw [List.range'_succ]
    show Wp (f k >>= fun _ => (List.range' (k + 1) m).forM f) E (fun _ => I n) t
    refine (hstep k (by omega) t hI).bind fun _ u hu => ?_
    exact ih (k + 1) u (by omega) hu

/-! ## A part of the state -/

/-- A program over a part of the state, as a program over the whole. -/
def zoom {τ ε' : Type u} (part : τ → σ) (put : σ → τ → τ) (inj : ε → ε') (x : StateT σ (Except ε) α) :
    StateT τ (Except ε') α := fun t =>
  match x (part t) with
  | .ok (a, s) => .ok (a, put s t)
  | .error e => .error (inj e)

/-- What the program does with its part is all that happens. -/
theorem wp_zoom {τ ε' : Type u} {part : τ → σ} {put : σ → τ → τ} {inj : ε → ε'}
    {x : StateT σ (Except ε) α} {E : ε' → Prop} {Q : α → τ → Prop} {t : τ} :
    Wp (zoom part put inj x) E Q t ↔ Wp x (fun e => E (inj e)) (fun a s => Q a (put s t)) (part t) := by
  unfold Wp zoom
  cases x (part t) with
  | error e => rfl
  | ok p => rfl
