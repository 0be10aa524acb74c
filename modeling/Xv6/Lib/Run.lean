import Mathlib

/-! # Runs of a transition system

A transition system is a function `step : σ → α → Option σ`: `step s a` is the state after the
action `a`, `none` when `a` is not possible in `s`. `runFrom step s as` performs a list of actions.
An invariant that every step keeps holds at the end of every run (`runFrom_invariant`); if only the
steps that meet a condition keep it, it holds at the end of the runs whose steps all meet the
condition (`runFrom_invariant_of_allSteps`). -/

universe u v

-- The index types of concrete runs.
instance neZero_one : NeZero 1 := ⟨by decide⟩
instance neZero_two : NeZero 2 := ⟨by decide⟩

variable {σ : Type u} {α : Type v}

/-- The state after performing the actions in order, `none` if one of them is not possible. -/
def runFrom (step : σ → α → Option σ) : σ → List α → Option σ
  | s, [] => some s
  | s, a :: as =>
    match step s a with
    | none => none
    | some s' => runFrom step s' as

/-- Every step of the run from `s` along `as` meets the condition `G before action after`. -/
def AllSteps (step : σ → α → Option σ) (G : σ → α → σ → Prop) : σ → List α → Prop
  | _, [] => True
  | s, a :: as => ∀ s', step s a = some s' → G s a s' ∧ AllSteps step G s' as

variable {step : σ → α → Option σ} {s t u : σ} {a : α} {as bs : List α}

@[simp] theorem runFrom_nil : runFrom step s [] = some s := rfl

/-- A step with a guard. -/
theorem of_guard {p : Prop} [Decidable p] (h : (if p then some s else none) = some t) : p ∧ s = t := by
  simpa using h

/-- A run splits into its first step and the rest. -/
theorem runFrom_cons_eq_some :
    runFrom step s (a :: as) = some t ↔ ∃ s', step s a = some s' ∧ runFrom step s' as = some t := by
  rw [runFrom]
  cases step s a with
  | none => simp
  | some s' => simp

/-- A run along `as ++ bs` is a run along `as` followed by one along `bs`. -/
theorem runFrom_append_eq_some : runFrom step s (as ++ bs) = some t ↔
    ∃ s', runFrom step s as = some s' ∧ runFrom step s' bs = some t := by
  induction as generalizing s with
  | nil => simp
  | cons a as ih =>
    rw [List.cons_append, runFrom_cons_eq_some]
    constructor
    · rintro ⟨s', hs, hrest⟩
      obtain ⟨m, hm, ht⟩ := ih.mp hrest
      exact ⟨m, runFrom_cons_eq_some.mpr ⟨s', hs, hm⟩, ht⟩
    · rintro ⟨m, hm, ht⟩
      obtain ⟨s', hs, hm⟩ := runFrom_cons_eq_some.mp hm
      exact ⟨s', hs, ih.mpr ⟨m, hm, ht⟩⟩

/-- A run splits into all but its last step, and the last step. -/
theorem runFrom_concat_eq_some : runFrom step s (as ++ [a]) = some t ↔
    ∃ s', runFrom step s as = some s' ∧ step s' a = some t := by
  rw [runFrom_append_eq_some]
  refine exists_congr fun s' => and_congr_right fun _ => ?_
  rw [runFrom_cons_eq_some]
  simp

/-- **The invariant rule**: what holds initially and is kept by every step holds after every
run. -/
theorem runFrom_invariant {I : σ → Prop} (hstep : ∀ s a t, I s → step s a = some t → I t)
    (h0 : I s) (hrun : runFrom step s as = some t) : I t := by
  induction as generalizing s with
  | nil =>
    cases hrun
    exact h0
  | cons a as ih =>
    obtain ⟨s', hs, hrest⟩ := runFrom_cons_eq_some.mp hrun
    exact ih (hstep s a s' h0 hs) hrest

/-- **The invariant rule for conditioned runs**: what holds initially and is kept by every step
that meets `G` holds after every run whose steps all meet `G`. -/
theorem runFrom_invariant_of_allSteps {I : σ → Prop} {G : σ → α → σ → Prop}
    (hstep : ∀ s a t, I s → step s a = some t → G s a t → I t)
    (h0 : I s) (hG : AllSteps step G s as) (hrun : runFrom step s as = some t) : I t := by
  induction as generalizing s with
  | nil =>
    cases hrun
    exact h0
  | cons a as ih =>
    obtain ⟨s', hs, hrest⟩ := runFrom_cons_eq_some.mp hrun
    obtain ⟨hGa, hGas⟩ := hG s' hs
    exact ih (hstep s a s' h0 hs hGa) hGas hrest

/-- **The simulation rule**: if each step from a state that meets the invariant is a step between the
images under `f`, then so is each run. -/
theorem runFrom_map {σ' : Type*} {step' : σ' → α → Option σ'} {f : σ → σ'} {I : σ → Prop}
    (hkeep : ∀ s a t, I s → step s a = some t → I t)
    (hstep : ∀ s a t, I s → step s a = some t → step' (f s) a = some (f t))
    (h0 : I s) (hrun : runFrom step s as = some t) : runFrom step' (f s) as = some (f t) := by
  induction as generalizing s with
  | nil =>
    cases hrun
    rfl
  | cons a as ih =>
    obtain ⟨s', hs, hrest⟩ := runFrom_cons_eq_some.mp hrun
    exact runFrom_cons_eq_some.mpr ⟨f s', hstep s a s' h0 hs, ih (hkeep s a s' h0 hs) hrest⟩

/-- A condition on the actions alone is met by every step of a run along actions that meet it. -/
theorem allSteps_of_forall {A : α → Prop} (h : ∀ a ∈ as, A a) :
    AllSteps step (fun _ a _ => A a) s as := by
  induction as generalizing s with
  | nil => exact trivial
  | cons a as ih =>
    intro s' _
    exact ⟨h a (List.mem_cons_self), ih fun b hb => h b (List.mem_cons_of_mem a hb)⟩

theorem AllSteps.mono {G G' : σ → α → σ → Prop} (h : AllSteps step G s as)
    (hG : ∀ s a t, G s a t → G' s a t) : AllSteps step G' s as := by
  induction as generalizing s with
  | nil => exact trivial
  | cons a as ih =>
    intro s' hs
    exact ⟨hG s a s' (h s' hs).1, ih (h s' hs).2⟩

/-- Two conditions that agree as long as the first has kept the invariant agree on the whole run. -/
theorem allSteps_iff {I : σ → Prop} {G G' : σ → α → σ → Prop}
    (hiff : ∀ s a t, I s → step s a = some t → (G s a t ↔ G' s a t))
    (hkeep : ∀ s a t, I s → step s a = some t → G s a t → I t) (h0 : I s) :
    AllSteps step G s as ↔ AllSteps step G' s as := by
  induction as generalizing s with
  | nil => rfl
  | cons a as ih =>
    refine forall_congr' fun t => forall_congr' fun hs => ?_
    rw [← hiff s a t h0 hs]
    exact and_congr_right fun hG => ih (hkeep s a t h0 hs hG)

/-- A condition on every step of a run splits like the run. -/
theorem allSteps_concat {G : σ → α → σ → Prop} (hrun : runFrom step s as = some t) :
    AllSteps step G s (as ++ [a]) ↔
      AllSteps step G s as ∧ ∀ u, step t a = some u → G t a u := by
  induction as generalizing s with
  | nil =>
    cases hrun
    simp [AllSteps]
  | cons b as ih =>
    obtain ⟨s', hs, hrest⟩ := runFrom_cons_eq_some.mp hrun
    simp [AllSteps, hs, ih hrest, and_assoc]
