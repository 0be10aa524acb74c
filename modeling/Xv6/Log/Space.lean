import Xv6.Log.Group

/-! # Log space reservation

`begin_op` admits an operation only when the log has room for `MAXOPBLOCKS` blocks of every
outstanding operation. If no operation logs more than `MAXOPBLOCKS` distinct blocks, this is enough
room for every new header entry. It is not enough for `log_write` itself, which tests for a full
header before it looks for the block in it: `log_write` of a block that is already logged panics
when the header holds exactly `LOGSIZE` entries. `not_tooBig_iff` says that nothing else can go
wrong. -/

namespace Xv6

/-- The distinct blocks that operation `o` has passed to `log_write`. -/
def opBlocks (o : ℕ) (h : List Event) : Finset ℕ :=
  (h.filterMap fun
    | .wrote o' b => if o' = o then some b else none
    | _ => none).toFinset

theorem mem_opBlocks {o b : ℕ} {h : List Event} : b ∈ opBlocks o h ↔ .wrote o b ∈ h := by
  rw [opBlocks, List.mem_toFinset, List.mem_filterMap]
  constructor
  · rintro ⟨e, he, heq⟩
    cases e with
    | wrote o' c =>
      simp only [Option.ite_none_right_eq_some, Option.some.injEq] at heq
      obtain ⟨rfl, rfl⟩ := heq
      exact he
    | began => cases heq
    | ended => cases heq
    | committed => cases heq
  · intro he
    exact ⟨_, he, by simp⟩

theorem opBlocks_wrote (o b : ℕ) (h : List Event) :
    opBlocks o (.wrote o b :: h) = insert b (opBlocks o h) := by
  ext c
  simp [mem_opBlocks]

/-- An event that is not a write of `o` adds nothing to its blocks. -/
theorem opBlocks_cons {o : ℕ} {e : Event} (he : ∀ b, e ≠ .wrote o b) (h : List Event) :
    opBlocks o (e :: h) = opBlocks o h := by
  ext b
  simp [mem_opBlocks, (he b).symm]

namespace Group

variable {P : Type*} {s t r : Group P} {a : Action P}

/-- No operation has logged more than `MAXOPBLOCKS` distinct blocks. -/
def Bounded (s : Group P) : Prop := ∀ o < s.nextOp, (opBlocks o s.hist).card ≤ MAXOPBLOCKS

instance (s : Group P) : Decidable s.Bounded :=
  inferInstanceAs (Decidable (∀ o < s.nextOp, (opBlocks o s.hist).card ≤ MAXOPBLOCKS))

/-- What is left of the reservation of process `p`. -/
def reserve (s : Group P) (p : P) : ℕ :=
  match s.pc p with
  | .inOp o => MAXOPBLOCKS - (opBlocks o s.hist).card
  | _ => 0

/-- The header and the reservations of any set of processes fit in the log together. -/
def Fits (s : Group P) : Prop := ∀ S : Finset P, s.log.lh.length + ∑ p ∈ S, s.reserve p ≤ LOGSIZE

theorem reserve_le (s : Group P) (p : P) : s.reserve p ≤ MAXOPBLOCKS := by
  unfold reserve
  split
  · exact Nat.sub_le _ _
  · exact Nat.zero_le _

theorem reserve_of_not_running {p : P} (h : ¬ s.Running p) : s.reserve p = 0 := by
  unfold reserve
  split
  · rename_i o ho
    exact absurd ⟨o, ho⟩ h
  · rfl

theorem fits_init (size : ℤ) : (init size : Group P).Fits := by
  intro S
  simp [init, reserve]

variable [DecidableEq P]

/-- A step only extends the history, and keeps the log size. -/
theorem Step.hist (hs : Step s a t) :
    (∀ e ∈ s.hist, e ∈ t.hist) ∧ s.nextOp ≤ t.nextOp ∧ t.log.size = s.log.size := by
  cases hs <;> simp +contextual

/-- A bounded state was reached through bounded states. -/
theorem Bounded.of_step (hb : t.Bounded) (hs : Step s a t) : s.Bounded := by
  intro o ho
  obtain ⟨hsub, hnext, -⟩ := hs.hist
  refine le_trans (Finset.card_le_card fun b hb' => ?_) (hb o (by omega))
  exact mem_opBlocks.mpr (hsub _ (mem_opBlocks.mp hb'))

/-- The blocks logged by a running operation are in the header. -/
theorem Inv.opBlocks_subset (h : s.Inv) (hnp : s.panicked = none) {p : P} {o b : ℕ}
    (hp : s.pc p = .inOp o) (hb : b ∈ opBlocks o s.hist) : b ∈ s.log.lh := by
  have hni : ∀ q, s.pc q ≠ .install := fun q hq =>
    h.not_committing hp q (by simp [hq, Pc.Committing])
  refine (h.header hnp hni b).mpr ⟨o, ?_⟩
  have hb := mem_opBlocks.mp hb
  rcases since_split s.hist with heq | ⟨H, older, heq⟩
  · rwa [heq]
  · -- the operation is running, so none of its events is older than the last commit
    have hsep := (h.grouped _ H older heq).2 o (h.running p o hp)
    rw [heq] at hb
    rcases List.mem_append.mp hb with hb | hb
    · exact hb
    · exact absurd ⟨_, (List.mem_cons.mp hb).resolve_left (by simp), rfl⟩ hsep

omit [DecidableEq P] in
/-- Fewer header entries and smaller reservations still fit. -/
theorem Fits.mono (h : s.Fits) (hlen : t.log.lh.length ≤ s.log.lh.length)
    (hres : ∀ q, t.reserve q ≤ s.reserve q) : t.Fits := by
  intro S
  have h1 := h S
  have h2 : ∑ q ∈ S, t.reserve q ≤ ∑ q ∈ S, s.reserve q := Finset.sum_le_sum fun q _ => hres q
  omega

/-- A process that leaves an operation, or stays outside, gives its reservation back. -/
theorem reserve_goto_le {p q : P} {c : Pc} (hc : ∀ o, c ≠ .inOp o) :
    (s.goto p c).reserve q ≤ s.reserve q := by
  by_cases hq : q = p
  · have : ¬ (s.goto p c).Running q := by
      rintro ⟨o, ho⟩
      rw [goto_pc, if_pos hq] at ho
      exact hc o ho
    rw [reserve_of_not_running this]
    exact Nat.zero_le _
  · simp [reserve, hq]

omit [DecidableEq P] in
/-- Recording anything but a write leaves the reservations as they are. -/
theorem reserve_record {e : Event} (he : ∀ o b, e ≠ .wrote o b) (q : P) :
    (s.record e).reserve q = s.reserve q := by
  unfold reserve
  rw [record_pc]
  split
  · rename_i o _
    rw [record_hist, opBlocks_cons (he o)]
  · rfl

/-- **Admission** keeps everything fitting: the test in `begin_op` leaves room for `MAXOPBLOCKS`
entries of each outstanding operation and of the new one. -/
theorem Fits.enter (h : s.Inv) {p : P}
    (hroom : (s.log.lh.length : ℤ) + (s.log.outstanding + 1) * 10 ≤ 30) :
    (({ s with log := { s.log with outstanding := s.log.outstanding + 1 },
               nextOp := s.nextOp + 1 }.goto p (.inOp s.nextOp)).record
                 (.began s.nextOp)).Fits := by
  intro S
  obtain ⟨R, hR, hcard⟩ := h.outstanding
  set t := ({ s with log := { s.log with outstanding := s.log.outstanding + 1 },
                     nextOp := s.nextOp + 1 }.goto p (.inOp s.nextOp)).record (.began s.nextOp)
  -- only the running processes and `p` have a reservation
  have hzero : ∀ q ∈ S, q ∉ insert p R → t.reserve q = 0 := by
    intro q _ hq
    rw [Finset.mem_insert, not_or] at hq
    refine reserve_of_not_running fun hrun => hq.2 ((hR q).mpr ?_)
    obtain ⟨o, ho⟩ := hrun
    exact ⟨o, by simpa [t, hq.1] using ho⟩
  have hsum : ∑ q ∈ S, t.reserve q ≤ (insert p R).card * MAXOPBLOCKS := by
    calc ∑ q ∈ S, t.reserve q ≤ ∑ q ∈ S ∩ insert p R, t.reserve q := by
          rw [Finset.sum_subset Finset.inter_subset_left fun q hq hq' =>
            hzero q hq fun hmem => hq' (Finset.mem_inter.mpr ⟨hq, hmem⟩)]
      _ ≤ (S ∩ insert p R).card * MAXOPBLOCKS :=
          Finset.sum_le_card_nsmul _ _ _ fun q _ => reserve_le t q
      _ ≤ (insert p R).card * MAXOPBLOCKS :=
          Nat.mul_le_mul_right _ (Finset.card_le_card Finset.inter_subset_right)
  have hcard' : (insert p R).card ≤ R.card + 1 := Finset.card_insert_le p R
  have hlen : t.log.lh.length = s.log.lh.length := rfl
  rw [hlen]
  simp only [MAXOPBLOCKS, LOGSIZE] at *
  rw [hcard] at hroom
  have h1 : (insert p R).card * 10 ≤ (R.card + 1) * 10 := Nat.mul_le_mul_right _ hcard'
  omega

/-- **A write that does not panic** keeps everything fitting: either the header does not grow, or
the entry is paid for by the writer's reservation. -/
theorem Fits.write (h : s.Inv) (hf : s.Fits) (hnp : s.panicked = none) {p : P} {o b : ℕ}
    (hp : s.pc p = .inOp o)
    (hb : ({ s with log := { s.log with lh := absorb b s.log.lh } }.record (.wrote o b)).Bounded) :
    ({ s with log := { s.log with lh := absorb b s.log.lh } }.record (.wrote o b)).Fits := by
  set t := { s with log := { s.log with lh := absorb b s.log.lh } }.record (.wrote o b)
  have hother : ∀ q, q ≠ p → t.reserve q = s.reserve q := by
    intro q hq
    simp only [reserve, t, record_pc, record_hist]
    split
    · rename_i o' ho'
      rw [opBlocks_cons]
      intro c hc
      obtain ⟨rfl, -⟩ := Event.wrote.inj hc
      exact hq (h.injective q p o ho' hp)
    · rfl
  have hps : s.reserve p = MAXOPBLOCKS - (opBlocks o s.hist).card := by simp [reserve, hp]
  have hpt : t.reserve p = MAXOPBLOCKS - (insert b (opBlocks o s.hist)).card := by
    simp [reserve, t, hp, opBlocks_wrote]
  have ho : o < t.nextOp := h.fresh o ((h.running p o hp).mono fun _ => mem_of_mem_since)
  have hbound : (insert b (opBlocks o s.hist)).card ≤ MAXOPBLOCKS := by
    have := hb o ho
    rwa [record_hist, opBlocks_wrote] at this
  -- the new header entry, if any, takes one unit of the reservation of `p`
  have hpay : t.log.lh.length + t.reserve p ≤ s.log.lh.length + s.reserve p := by
    have hlh : t.log.lh = absorb b s.log.lh := rfl
    rw [hlh, hps, hpt]
    by_cases hmem : b ∈ opBlocks o s.hist
    · rw [absorb_of_mem (h.opBlocks_subset hnp hp hmem), Finset.insert_eq_of_mem hmem]
    · rw [Finset.card_insert_of_notMem hmem] at hbound ⊢
      by_cases hlog : b ∈ s.log.lh
      · rw [absorb_of_mem hlog]
        omega
      · rw [length_absorb_of_notMem hlog]
        omega
  intro S
  have hS := hf (insert p S)
  rw [← Finset.insert_erase (Finset.mem_insert_self p S),
    Finset.sum_insert (Finset.notMem_erase p _)] at hS
  have hsum : ∑ q ∈ (insert p S).erase p, t.reserve q = ∑ q ∈ (insert p S).erase p, s.reserve q :=
    Finset.sum_congr rfl fun q hq => hother q (Finset.ne_of_mem_erase hq)
  have hle : ∑ q ∈ S, t.reserve q ≤ t.reserve p + ∑ q ∈ (insert p S).erase p, t.reserve q := by
    rw [← Finset.sum_insert (Finset.notMem_erase p _),
      Finset.insert_erase (Finset.mem_insert_self p S)]
    exact Finset.sum_le_sum_of_subset (Finset.subset_insert p S)
  omega

/-- Every step that does not panic keeps everything fitting. -/
theorem Fits.step (h : s.Inv) (hf : s.Fits) (hs : s.step a = some t) (hb : t.Bounded)
    (ht : t.panicked = none) : t.Fits := by
  obtain ⟨hnp, hs⟩ := step_inv hs
  cases hs with
  | sleep p hp => exact hf.mono le_rfl fun q => reserve_goto_le (by simp)
  | enter p _ _ hroom => exact Fits.enter h hroom
  | full => simp at ht
  | outside => simp at ht
  | write p b o hp _ _ => exact Fits.write h hf hnp hp hb
  | endPanic => simp at ht
  | endCommit p o _ _ _ =>
    refine hf.mono le_rfl fun q => ?_
    rw [reserve_record (by simp)]
    exact reserve_goto_le (by simp)
  | endOther p o _ _ _ =>
    refine hf.mono le_rfl fun q => ?_
    rw [reserve_record (by simp)]
    exact reserve_goto_le (by simp)
  | writeHead p _ =>
    refine hf.mono le_rfl fun q => ?_
    rw [reserve_record (by simp)]
    exact reserve_goto_le (by simp)
  | install p _ => exact hf.mono (Nat.zero_le _) fun q => reserve_goto_le (by simp)
  | release p _ => exact hf.mono le_rfl fun q => reserve_goto_le (by simp)

/-- Everything fits in every state reached without a panic. -/
theorem fits_of_run {size : ℤ} {as : List (Action P)}
    (hrun : runFrom Group.step (init size) as = some s) (hb : s.Bounded)
    (hnp : s.panicked = none) : s.Fits := by
  induction as using List.reverseRecOn generalizing s with
  | nil =>
    cases hrun
    exact fits_init size
  | append_singleton as a ih =>
    obtain ⟨r, hr, hs⟩ := runFrom_concat_eq_some.mp hrun
    obtain ⟨hrnp, hstep⟩ := step_inv hs
    exact Fits.step (inv_of_run hr) (ih hr (hb.of_step hstep) hrnp) hs hb hnp

theorem size_of_run {size : ℤ} {as : List (Action P)}
    (hrun : runFrom Group.step (init size) as = some s) : s.log.size = size :=
  @runFrom_invariant _ _ _ _ _ _ (fun r : Group P => r.log.size = size)
    (fun _ _ _ h hs => (step_inv hs).2.hist.2.2.trans h) rfl hrun

/-- The action is a `log_write` of a block that the header lists already, while the header holds
exactly `LOGSIZE` entries. -/
def RelogsWhenFull (s : Group P) : Action P → Prop
  | .logWrite _ b => b ∈ s.log.lh ∧ s.log.lh.length = LOGSIZE
  | _ => False

/-- **One step of the reservation argument**: from a state where everything fits, a step reaches
the panic exactly when it re-logs a block of a full header. -/
theorem tooBig_iff_relogsWhenFull (h : s.Inv) (hf : s.Fits) (hsize : LOGSIZE + 1 ≤ s.log.size)
    (hs : s.step a = some t) (hb : t.Bounded) :
    t.panicked = some .tooBigTransaction ↔ s.RelogsWhenFull a := by
  obtain ⟨hnp, hs⟩ := step_inv hs
  have h31 : (31 : ℤ) ≤ s.log.size := hsize
  cases hs with
  | full p b o hp hfull =>
    refine ⟨fun _ => ?_, fun _ => rfl⟩
    have hfit : s.log.lh.length + s.reserve p ≤ 30 := by
      have := hf {p}
      rwa [Finset.sum_singleton] at this
    have hlen : s.log.lh.length = 30 := by omega
    -- the reservation of `p` is used up, so `b` is one of the blocks it has logged
    have hused : MAXOPBLOCKS ≤ (opBlocks o s.hist).card := by
      have : s.reserve p = MAXOPBLOCKS - (opBlocks o s.hist).card := by simp [reserve, hp]
      omega
    have ho : o < s.nextOp := h.fresh o ((h.running p o hp).mono fun _ => mem_of_mem_since)
    have hbound : (insert b (opBlocks o s.hist)).card ≤ MAXOPBLOCKS := by
      have := hb o ho
      rwa [record_hist, opBlocks_wrote] at this
    have hmem : b ∈ opBlocks o s.hist := by
      by_contra hb'
      rw [Finset.card_insert_of_notMem hb'] at hbound
      omega
    exact ⟨h.opBlocks_subset hnp hp hmem, hlen⟩
  | write p b o hp hroom _ =>
    have hne : s.log.lh.length ≠ LOGSIZE := by
      show s.log.lh.length ≠ 30
      omega
    simp [RelogsWhenFull, hnp, hne]
  | outside p b o hp hout =>
    have := h.one_le_outstanding hp
    omega
  | endPanic p o hp hc => simp [RelogsWhenFull]
  | _ => simp [RelogsWhenFull, hnp]

/-- **Log space reservation.** Let the log have room for `LOGSIZE` blocks and its header, and let no
operation of a run log more than `MAXOPBLOCKS` distinct blocks. Then the run does not reach the
panic `too big a transaction` exactly when none of its steps logs a block that is already in the
header while the header holds `LOGSIZE` entries. -/
theorem not_tooBig_iff {size : ℤ} {as : List (Action P)} (hsize : LOGSIZE + 1 ≤ size)
    (hrun : runFrom Group.step (init size) as = some s) (hb : s.Bounded) :
    s.panicked ≠ some .tooBigTransaction ↔
      AllSteps Group.step (fun r a _ => ¬ r.RelogsWhenFull a) (init size) as := by
  induction as using List.reverseRecOn generalizing s with
  | nil =>
    cases hrun
    simp [AllSteps, init]
  | append_singleton as a ih =>
    obtain ⟨r, hr, hs⟩ := runFrom_concat_eq_some.mp hrun
    obtain ⟨hrnp, hstep⟩ := step_inv hs
    have hrb : r.Bounded := hb.of_step hstep
    -- no state before the last step has panicked
    have hbefore := (ih hr hrb).mp (by simp [hrnp])
    have hlast := tooBig_iff_relogsWhenFull (inv_of_run hr) (fits_of_run hr hrb hrnp)
      (by rw [size_of_run hr]; exact hsize) hs hb
    rw [allSteps_concat hr, ne_eq, hlast]
    constructor
    · intro hnot
      exact ⟨hbefore, fun _ _ => hnot⟩
    · intro hall
      exact hall.2 s hs

/-- The theorem on a run of one process that logs a block twice. -/
theorem not_tooBig_iff_one_block : ∃ s : Group ℕ,
    runFrom Group.step (init 31) [.beginOp 0, .logWrite 0 50, .logWrite 0 50] = some s ∧
    s.panicked ≠ some .tooBigTransaction := by
  obtain ⟨s, hrun, hb⟩ : ∃ s : Group ℕ, runFrom Group.step (init 31)
      [.beginOp 0, .logWrite 0 50, .logWrite 0 50] = some s ∧ s.Bounded := ⟨_, rfl, by decide⟩
  refine ⟨s, hrun, (not_tooBig_iff (by decide) hrun hb).mpr ?_⟩
  refine fun _ h1 => ⟨id, fun _ h2 => ⟨?_, fun _ h3 => ⟨?_, trivial⟩⟩⟩
  · cases h1
    simp [RelogsWhenFull, init]
  · cases h1
    cases h2
    exact fun hfull => absurd hfull.2 (by decide)

/-- Three operations log ten blocks each, and the first one logs its first block again. -/
def relogRun : List (Action ℕ) :=
  [.beginOp 0, .beginOp 1, .beginOp 2] ++ (List.range 10).map (fun i => .logWrite 0 (100 + i)) ++
    (List.range 10).map (fun i => .logWrite 1 (110 + i)) ++
    (List.range 10).map (fun i => .logWrite 2 (120 + i)) ++ [.logWrite 0 100]

/-- The reservation is not enough: `relogRun` panics although each of its operations logs only
`MAXOPBLOCKS` distinct blocks. -/
theorem tooBig_of_relogRun : ∃ s : Group ℕ, (LOGSIZE + 1 : ℤ) ≤ 31 ∧
    runFrom Group.step (init 31) relogRun = some s ∧ s.Bounded ∧
    s.panicked = some .tooBigTransaction :=
  ⟨_, by decide, rfl, by decide, rfl⟩

end Group

end Xv6
