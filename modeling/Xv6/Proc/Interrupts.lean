import Xv6.Lib.Update
import Xv6.Lib.Run

/-! # Interrupts and spinlocks

`push_off`, `pop_off`, `acquire` and `release` of `kernel/spinlock.c`, `sched` and the switch of
`scheduler` of `kernel/proc.c`. `noff` and `intena` belong to the CPU, the interrupt-enable bit to its
hardware, and a process thread moves from CPU to CPU whenever it calls `sched`, inside an interrupt
handler or not. Threads acquire and release any spinlocks in any order.

In `push_off` an interrupt may come between `intr_get` and `intr_off`, so these are two steps. -/

namespace Xv6

open Function (forall_update_iff update update_of_ne update_self)

/-- A kernel thread: of a process, or of the scheduler of a CPU. -/
inductive Ctx (T C : Type*)
  | thread (p : T)
  | sched (c : C)
  deriving DecidableEq

/-- Where a kernel thread is. -/
inductive IntrPc (L : Type*)
  | run
  /-- In `push_off`, with the result of `intr_get`; called from `acquire` of a lock, or directly. -/
  | pushing (old : Bool) (l : Option L)
  /-- In `acquire`, after `push_off`. -/
  | spinning (l : L)
  /-- In `release`, before `pop_off`. -/
  | popping
  /-- In `sched`, switched away. -/
  | swtched
  /-- In `sched`, `swtch` has returned and `intena` is not yet restored. -/
  | resumed
  /-- A new process that has not run yet. -/
  | forkret
  deriving DecidableEq

/-- A kernel thread, with how many of its `push_off`s are not undone and whether interrupts were
enabled at the outermost of them. -/
structure Frame (L : Type*) where
  pc : IntrPc L
  /-- Where it was interrupted, the innermost handler first. -/
  traps : List (IntrPc L)
  depth : ℕ
  start : Option Bool
  deriving DecidableEq

/-- `struct cpu`, the interrupt-enable bit and what the CPU executes. -/
structure IntrCpu (T C : Type*) where
  noff : ℕ
  intena : Bool
  ie : Bool
  on : Ctx T C
  deriving DecidableEq

structure IntrSys (T C L : Type*) where
  cpu : C → IntrCpu T C
  ctx : Ctx T C → Frame L
  /-- The local variable `intena` of `sched`. -/
  saved : T → Bool
  /-- The CPU that holds a lock. -/
  holder : L → Option C

/-- The steps of CPU `c`. -/
inductive IntrAction (T C L : Type*)
  /-- `intr_get` in `push_off`. -/
  | pushGet (c : C) (l : Option L)
  /-- The rest of `push_off`. -/
  | pushOff (c : C)
  | lock (c : C)
  | unlock (c : C) (l : L)
  | popOff (c : C)
  | intrOn (c : C)
  | intrOff (c : C)
  | trap (c : C)
  /-- The return from a trap. -/
  | sret (c : C)
  /-- `sched`, up to `swtch`. -/
  | sched (c : C)
  /-- `scheduler` switches to a process. -/
  | swtch (c : C) (p : T)
  /-- `mycpu()->intena = intena`. -/
  | restore (c : C)

namespace IntrSys

variable {T C L : Type*}

/-- Every CPU enters `scheduler`, with interrupts enabled or not. -/
def boot (T L : Type*) (ie : C → Bool) : IntrSys T C L where
  cpu := fun c => ⟨0, false, ie c, .sched c⟩
  ctx
    | .thread _ => ⟨.forkret, [], 1, none⟩
    | .sched _ => ⟨.run, [], 0, none⟩
  saved := fun _ => false
  holder := fun _ => none

variable [DecidableEq T] [DecidableEq C]

/-- CPU `c` and the thread it executes change. -/
def set (σ : IntrSys T C L) (c : C) (u : IntrCpu T C) (f : Frame L) : IntrSys T C L :=
  { σ with
    cpu := update σ.cpu c u
    ctx := update σ.ctx (σ.cpu c).on f }

variable [DecidableEq L]

/-- One step, `none` if it is not possible; `plock p` is the lock of process `p`. -/
def step (plock : T → L) (σ : IntrSys T C L) : IntrAction T C L → Option (IntrSys T C L)
  | .pushGet c l =>
    let u := σ.cpu c
    let f := σ.ctx u.on
    if f.pc = .run then some (σ.set c u { f with pc := .pushing u.ie l }) else none
  | .pushOff c =>
    let u := σ.cpu c
    let f := σ.ctx u.on
    match f.pc with
    | .pushing old l =>
      let u' := { u with
        ie := false
        intena := if u.noff = 0 then old else u.intena
        noff := u.noff + 1 }
      some (σ.set c u' { f with
        pc := match l with
          | some l => .spinning l
          | none => .run
        depth := f.depth + 1
        start := if f.depth = 0 then some u.ie else f.start })
    | _ => none
  | .lock c =>
    let u := σ.cpu c
    let f := σ.ctx u.on
    match f.pc with
    | .spinning l =>
      if σ.holder l = none then
        some { σ.set c u { f with pc := .run } with
          holder := update σ.holder l (some c) }
      else none
    | _ => none
  | .unlock c l =>
    let u := σ.cpu c
    let f := σ.ctx u.on
    if f.pc = .run ∧ σ.holder l = some c then
      some { σ.set c u { f with pc := .popping } with holder := update σ.holder l none }
    else none
  | .popOff c =>
    let u := σ.cpu c
    let f := σ.ctx u.on
    -- the two panics of `pop_off`
    if (f.pc = .popping ∨ f.pc = .run) ∧ u.ie = false ∧ 1 ≤ u.noff then
      some (σ.set c
        { u with
          noff := u.noff - 1
          ie := if u.noff - 1 = 0 ∧ u.intena = true then true else u.ie }
        { f with pc := .run, depth := f.depth - 1 })
    else none
  | .intrOn c =>
    let u := σ.cpu c
    let f := σ.ctx u.on
    if f.pc = .run ∧ f.depth = 0 then some (σ.set c { u with ie := true } f) else none
  | .intrOff c =>
    let u := σ.cpu c
    let f := σ.ctx u.on
    if f.pc = .run ∧ f.depth = 0 then some (σ.set c { u with ie := false } f) else none
  | .trap c =>
    let u := σ.cpu c
    let f := σ.ctx u.on
    if u.ie = true then
      some (σ.set c { u with ie := false } { f with pc := .run, traps := f.pc :: f.traps })
    else none
  | .sret c =>
    let u := σ.cpu c
    let f := σ.ctx u.on
    match f.traps with
    | pc :: rest =>
      if f.pc = .run ∧ f.depth = 0 then
        some (σ.set c { u with ie := true } { f with pc := pc, traps := rest })
      else none
    | [] => none
  | .sched c =>
    let u := σ.cpu c
    let f := σ.ctx u.on
    match u.on with
    | .thread p =>
      -- the checks of `sched`
      if f.pc = .run ∧ σ.holder (plock p) = some c ∧ u.noff = 1 ∧ u.ie = false then
        some { σ.set c { u with on := .sched c } { f with pc := .swtched } with
          saved := update σ.saved p u.intena }
      else none
    | .sched _ => none
  | .swtch c p =>
    let u := σ.cpu c
    let f := σ.ctx u.on
    let g := σ.ctx (.thread p)
    if u.on = .sched c ∧ f.pc = .run ∧ f.traps = [] ∧ f.depth = 1 ∧ σ.holder (plock p) = some c then
      match g.pc with
      | .swtched =>
        some { σ with
          cpu := update σ.cpu c { u with on := .thread p }
          ctx := update σ.ctx (.thread p) { g with pc := .resumed } }
      | .forkret =>
        some { σ with
          cpu := update σ.cpu c { u with on := .thread p }
          ctx := update σ.ctx (.thread p) { g with pc := .run } }
      | _ => none
    else none
  | .restore c =>
    let u := σ.cpu c
    let f := σ.ctx u.on
    match u.on with
    | .thread p =>
      if f.pc = .resumed then
        some (σ.set c { u with intena := σ.saved p } { f with pc := .run })
      else none
    | .sched _ => none

end IntrSys

/-! ## The invariant

`noff` counts the `push_off`s of the thread that the CPU executes, and `intena` is what the outermost of
them found, except between `swtch` and the restoring of `intena`, when the local variable of `sched`
has it. -/

/-- A place where an interrupt can come. -/
def IntrPc.Interruptible {L : Type*} : IntrPc L → Prop
  | .pushing old _ => old = true
  | .swtched | .resumed | .forkret => False
  | _ => True

section Local

variable {T C L : Type*} {u : IntrCpu T C} {f : Frame L} {saved : Bool}

/-- How a CPU fits the thread it executes. -/
structure Frame.On (u : IntrCpu T C) (f : Frame L) : Prop where
  noff_eq : u.noff = f.depth
  off : 0 < u.noff → u.ie = false
  pushing : ∀ old l, f.pc = .pushing old l → u.ie = old
  traps : ∀ q ∈ f.traps, q.Interruptible
  here : f.pc ≠ .swtched ∧ f.pc ≠ .forkret
  resumed : f.pc = .resumed → f.depth = 1

/-- What the outermost `push_off` found is kept. -/
def Frame.Kept (intena saved : Bool) (f : Frame L) : Prop :=
  ∀ b, 0 < f.depth → f.start = some b →
    (f.pc = .resumed → saved = b) ∧ (f.pc ≠ .resumed → intena = b)

/-- A process thread that no CPU executes. -/
structure Frame.Parked (saved : Bool) (f : Frame L) : Prop where
  depth : f.depth = 1
  traps : ∀ q ∈ f.traps, q.Interruptible
  kept : ∀ b, f.start = some b → f.pc = .swtched ∧ saved = b

namespace Frame.On

theorem depth_eq_zero (h : f.On u) (hie : u.ie = true) : f.depth = 0 := by
  by_contra hc
  have hoff := h.off
  rw [hie, h.noff_eq] at hoff
  cases hoff (by omega)

/-- Interrupts can only come where they may. -/
theorem interruptible (h : f.On u) (hie : u.ie = true) : f.pc.Interruptible := by
  have hzero := h.depth_eq_zero hie
  obtain ⟨hne, hne'⟩ := h.here
  cases hpc : f.pc with
  | pushing old l =>
    rw [h.pushing old l hpc] at hie
    exact hie
  | swtched => exact hne hpc
  | forkret => exact hne' hpc
  | resumed =>
    have := h.resumed hpc
    omega
  | _ => trivial

/-- A thread that is not in `push_off` goes on. -/
theorem goto (h : f.On u) {pc : IntrPc L} (hpush : ∀ old l, pc = .pushing old l → u.ie = old)
    (hhere : pc ≠ .swtched ∧ pc ≠ .forkret ∧ pc ≠ .resumed) : ({ f with pc := pc } : Frame L).On u where
  noff_eq := h.noff_eq
  off := h.off
  pushing := hpush
  traps := h.traps
  here := ⟨hhere.1, hhere.2.1⟩
  resumed := fun hc => absurd hc hhere.2.2

end Frame.On

theorem Frame.Kept.goto {intena : Bool} (h : f.Kept intena saved) {pc : IntrPc L}
    (hold : f.pc ≠ .resumed) (hnew : pc ≠ .resumed) :
    ({ f with pc := pc } : Frame L).Kept intena saved := by
  intro b hpos hstart
  exact ⟨fun hc => absurd hc hnew, fun _ => (h b hpos hstart).2 hold⟩

end Local

namespace IntrSys

variable {T C L : Type*} {σ τ : IntrSys T C L} {c : C} {p : T}

structure Inv (σ : IntrSys T C L) : Prop where
  own_sched : ∀ c c', (σ.cpu c).on = .sched c' → c' = c
  once : ∀ c c', (σ.cpu c).on = (σ.cpu c').on → c = c'
  on : ∀ c, (σ.ctx (σ.cpu c).on).On (σ.cpu c)
  kept : ∀ c p, (σ.cpu c).on = .thread p → (σ.ctx (.thread p)).Kept (σ.cpu c).intena (σ.saved p)
  parked : ∀ p, (σ.ctx (.thread p)).pc = .swtched ∨ (σ.ctx (.thread p)).pc = .forkret →
    (σ.ctx (.thread p)).Parked (σ.saved p)
  /-- A scheduler that has switched to a process holds the lock of that process. -/
  waiting : ∀ c, (σ.cpu c).on ≠ .sched c → (σ.ctx (.sched c)).pc = .run ∧
    (σ.ctx (.sched c)).traps = [] ∧ (σ.ctx (.sched c)).depth = 1

theorem boot_inv (ie : C → Bool) : (boot T L ie).Inv where
  own_sched := fun _ _ h => (Ctx.sched.inj h).symm
  once := fun _ _ h => Ctx.sched.inj h
  on := fun _ => ⟨rfl, nofun, nofun, nofun, ⟨nofun, nofun⟩, nofun⟩
  kept := nofun
  parked := fun _ _ => ⟨rfl, nofun, nofun⟩
  waiting := fun _ h => absurd rfl h

namespace Inv

theorem setHolder (h : σ.Inv) (holder : L → Option C) : Inv { σ with holder := holder } :=
  ⟨h.own_sched, h.once, h.on, h.kept, h.parked, h.waiting⟩

/-- What a CPU executes is executed by no other. -/
theorem on_ne (h : σ.Inv) {c' : C} (hc : c' ≠ c) : (σ.cpu c').on ≠ (σ.cpu c).on :=
  fun hk => hc (h.once c' c hk)

theorem sched_ne (h : σ.Inv) {c' : C} (hc : c' ≠ c) : .sched c' ≠ (σ.cpu c).on :=
  fun hk => hc (h.own_sched c c' hk.symm)

variable [DecidableEq T] [DecidableEq C]

/-- **What a step may do**: CPU `c` changes, and a thread `k` that no other CPU executes. -/
theorem change (h : σ.Inv) {u : IntrCpu T C} {k : Ctx T C} {f : Frame L} {saved : T → Bool}
    (hk : ∀ c', c' ≠ c → (σ.cpu c').on ≠ k ∧ .sched c' ≠ k) (hon : ∀ c', c' ≠ c → (σ.cpu c').on ≠ u.on)
    (hsched : ∀ c', u.on = .sched c' → c' = c)
    (hself : (update σ.ctx k f u.on).On u)
    (hkept : ∀ p, u.on = .thread p →
      (update σ.ctx k f (.thread p)).Kept u.intena (saved p))
    (hsaved : ∀ p, k ≠ .thread p → saved p = σ.saved p)
    (hparked : ∀ p, k = .thread p → f.pc = .swtched ∨ f.pc = .forkret → f.Parked (saved p))
    (hwaiting : u.on ≠ .sched c → (update σ.ctx k f (.sched c)).pc = .run ∧
      (update σ.ctx k f (.sched c)).traps = [] ∧
      (update σ.ctx k f (.sched c)).depth = 1) :
    Inv { σ with
      cpu := update σ.cpu c u
      ctx := update σ.ctx k f
      saved := saved } := by
  constructor <;> dsimp only
  case own_sched =>
    exact (forall_update_iff σ.cpu fun c u => ∀ c', u.on = .sched c' → c' = c).mpr
      ⟨hsched, fun c _ => h.own_sched c⟩
  case once =>
    intro c₁ c₂ hc
    by_cases hc₁ : c₁ = c
    · by_cases hc₂ : c₂ = c
      · rw [hc₁, hc₂]
      · rw [hc₁, update_self, update_of_ne hc₂] at hc
        exact absurd hc.symm (hon c₂ hc₂)
    · by_cases hc₂ : c₂ = c
      · rw [hc₂, update_self, update_of_ne hc₁] at hc
        exact absurd hc (hon c₁ hc₁)
      · rw [update_of_ne hc₁, update_of_ne hc₂] at hc
        exact h.once c₁ c₂ hc
  case on =>
    refine (forall_update_iff σ.cpu fun _ u => (update σ.ctx k f u.on).On u).mpr
      ⟨hself, fun c' hc => ?_⟩
    rw [update_of_ne (hk c' hc).1]
    exact h.on c'
  case kept =>
    refine (forall_update_iff σ.cpu fun _ u => ∀ p, u.on = .thread p →
      (update σ.ctx k f (.thread p)).Kept u.intena (saved p)).mpr ⟨hkept, fun c' hc p hp => ?_⟩
    have hne : .thread p ≠ k := hp ▸ (hk c' hc).1
    rw [update_of_ne hne, hsaved p (Ne.symm hne)]
    exact h.kept c' p hp
  case parked =>
    intro p hp
    by_cases hkp : .thread p = k
    · rw [← hkp, update_self] at hp ⊢
      exact hparked p hkp.symm hp
    · rw [update_of_ne hkp] at hp ⊢
      rw [hsaved p (Ne.symm hkp)]
      exact h.parked p hp
  case waiting =>
    refine (forall_update_iff σ.cpu fun c u => u.on ≠ .sched c →
      (update σ.ctx k f (.sched c)).pc = .run ∧ (update σ.ctx k f (.sched c)).traps = [] ∧
        (update σ.ctx k f (.sched c)).depth = 1).mpr ⟨hwaiting, fun c' hc => ?_⟩
    rw [update_of_ne (hk c' hc).2]
    exact h.waiting c'

/-- A step of the thread that a CPU executes. -/
theorem set (h : σ.Inv) {u : IntrCpu T C} {f : Frame L} (hon : u.on = (σ.cpu c).on) (hf : f.On u)
    (hkept : ∀ p, u.on = .thread p → f.Kept u.intena (σ.saved p)) : (σ.set c u f).Inv := by
  refine h.change (fun c' hc => ⟨h.on_ne hc, h.sched_ne hc⟩) (hon ▸ fun c' hc => h.on_ne hc)
    (hon ▸ h.own_sched c) (by rwa [hon, update_self]) (fun p hp => ?_) (fun _ _ => rfl)
    (fun _ _ hc => (hc.elim hf.here.1 hf.here.2).elim) fun hc => ?_
  · rw [← hp, hon, update_self]
    exact hkept p hp
  · rw [hon] at hc
    rw [update_of_ne (Ne.symm hc)]
    exact h.waiting c hc

/-- A process thread calls `sched`: what it found at its outermost `push_off` goes from the CPU to its
local variable. -/
theorem park (h : σ.Inv) (hon : (σ.cpu c).on = .thread p) (hpc : (σ.ctx (.thread p)).pc = .run)
    (hnoff : (σ.cpu c).noff = 1) :
    Inv { σ.set c { σ.cpu c with on := .sched c } { σ.ctx (.thread p) with pc := .swtched } with
      saved := update σ.saved p (σ.cpu c).intena } := by
  have hself := h.on c
  rw [hon] at hself
  have hne : (σ.cpu c).on ≠ .sched c := by
    rw [hon]
    nofun
  obtain ⟨hrun, htraps, hdepth⟩ := h.waiting c hne
  refine h.change (fun c' hc => ⟨h.on_ne hc, h.sched_ne hc⟩)
    (fun c' hc hk => hc (h.own_sched c' c hk).symm) (fun c' hc => (Ctx.sched.inj hc).symm) ?_ nofun
    (fun q hq => ?_) (fun q hq _ => ?_) fun hc => absurd rfl hc
  · dsimp only
    rw [update_of_ne (Ne.symm hne)]
    refine ⟨hnoff.trans hdepth.symm, hself.off, ?_, ?_, ?_, ?_⟩
    · rw [hrun]
      nofun
    · rw [htraps]
      nofun
    · rw [hrun]
      exact ⟨nofun, nofun⟩
    · rw [hrun]
      nofun
  · exact update_of_ne (fun hc => hq (hon.trans (congrArg Ctx.thread hc.symm))) ..
  · obtain rfl := Ctx.thread.inj (hon.symm.trans hq)
    have hdepth' : (σ.ctx (.thread p)).depth = 1 := hself.noff_eq ▸ hnoff
    refine ⟨hdepth', hself.traps, fun b hb => ⟨rfl, ?_⟩⟩
    rw [update_self]
    refine (h.kept c p hon b ?_ hb).2 ?_
    · exact hdepth' ▸ Nat.one_pos
    · rw [hpc]
      nofun

/-- A scheduler switches to a process thread, which goes on with the lock count of the scheduler. -/
theorem resume (h : σ.Inv) {pc : IntrPc L} (hon : (σ.cpu c).on = .sched c)
    (hrun : (σ.ctx (.sched c)).pc = .run) (htraps : (σ.ctx (.sched c)).traps = [])
    (hdepth : (σ.ctx (.sched c)).depth = 1)
    (hpc : (σ.ctx (.thread p)).pc = .swtched ∧ pc = .resumed ∨
      (σ.ctx (.thread p)).pc = .forkret ∧ pc = .run) :
    Inv { σ with
      cpu := update σ.cpu c { σ.cpu c with on := .thread p }
      ctx := update σ.ctx (.thread p) { σ.ctx (.thread p) with pc := pc } } := by
  have hoff : (σ.ctx (.thread p)).pc = .swtched ∨ (σ.ctx (.thread p)).pc = .forkret :=
    hpc.imp And.left And.left
  have hparked := h.parked p hoff
  -- a thread that is switched away is on no CPU
  have hnot : ∀ c', (σ.cpu c').on ≠ .thread p := by
    intro c' hc
    have hhere := (h.on c').here
    rw [hc] at hhere
    exact hoff.elim hhere.1 hhere.2
  have hself := h.on c
  rw [hon] at hself
  refine h.change (fun c' _ => ⟨hnot c', nofun⟩) (fun c' _ => hnot c') nofun ?_ ?_ (fun _ _ => rfl)
    (fun q _ hc => ?_) fun _ => ?_
  · dsimp only
    rw [update_self]
    refine ⟨?_, hself.off, ?_, hparked.traps, ?_, fun _ => hparked.depth⟩
    · exact (hself.noff_eq.trans hdepth).trans hparked.depth.symm
    · rcases hpc with ⟨-, rfl⟩ | ⟨-, rfl⟩ <;> nofun
    · rcases hpc with ⟨-, rfl⟩ | ⟨-, rfl⟩ <;> exact ⟨nofun, nofun⟩
  · rintro _ ⟨⟩ b hpos hb
    rw [update_self] at hb ⊢
    obtain ⟨hsw, hsaved⟩ := hparked.kept b hb
    rcases hpc with ⟨-, rfl⟩ | ⟨hfork, -⟩
    · exact ⟨fun _ => hsaved, fun hc => absurd rfl hc⟩
    · rw [hfork] at hsw
      cases hsw
  · rcases hpc with ⟨-, rfl⟩ | ⟨-, rfl⟩ <;> rcases hc with hc | hc <;> cases hc
  · rw [update_of_ne (by nofun)]
    exact ⟨hrun, htraps, hdepth⟩

/-- A step that only moves the thread on. -/
theorem goto (h : σ.Inv) {pc : IntrPc L} (hold : (σ.ctx (σ.cpu c).on).pc ≠ .resumed)
    (hpush : ∀ old l, pc = .pushing old l → (σ.cpu c).ie = old := by nofun)
    (hhere : pc ≠ .swtched ∧ pc ≠ .forkret ∧ pc ≠ .resumed := by exact ⟨nofun, nofun, nofun⟩) :
    (σ.set c (σ.cpu c) { σ.ctx (σ.cpu c).on with pc := pc }).Inv := by
  refine h.set rfl ((h.on c).goto hpush hhere) fun p hp => ?_
  have hkept := h.kept c p hp
  rw [hp] at hold ⊢
  exact hkept.goto hold hhere.2.2

/-- `intr_on` and `intr_off` outside of all `push_off`s. -/
theorem setBit (h : σ.Inv) (hpc : (σ.ctx (σ.cpu c).on).pc = .run)
    (hdepth : (σ.ctx (σ.cpu c).on).depth = 0) (b : Bool) :
    (σ.set c { σ.cpu c with ie := b } (σ.ctx (σ.cpu c).on)).Inv := by
  have hon := h.on c
  refine h.set rfl ⟨hon.noff_eq, ?_, ?_, hon.traps, hon.here, hon.resumed⟩ ?_
  · intro hpos
    rw [hon.noff_eq, hdepth] at hpos
    cases hpos
  · rw [hpc]
    nofun
  · intro p _ b hpos
    rw [hdepth] at hpos
    cases hpos

variable [DecidableEq L]

theorem step (h : σ.Inv) {plock : T → L} {a : IntrAction T C L} (hstep : IntrSys.step plock σ a = some τ) :
    τ.Inv := by
  cases a with
  | pushGet c l =>
    obtain ⟨hpc, rfl⟩ := of_guard hstep
    exact h.goto (by rw [hpc]; nofun) fun old l' hc => (IntrPc.pushing.inj hc).1
  | pushOff c =>
    simp only [IntrSys.step] at hstep
    split at hstep
    · rename_i old l hpc
      cases hstep
      have hon := h.on c
      have hie := hon.pushing old l hpc
      refine h.set rfl ⟨?_, fun _ => rfl, ?_, hon.traps, ?_, ?_⟩ ?_
      · exact congrArg (· + 1) hon.noff_eq
      · cases l <;> nofun
      · cases l <;> exact ⟨nofun, nofun⟩
      · cases l <;> nofun
      · intro p hp b _ hb
        refine ⟨fun hc => ?_, fun _ => ?_⟩
        · cases l <;> cases hc
        dsimp only at hb hp ⊢
        rw [hon.noff_eq]
        split at hb
        · -- the outermost `push_off`: what it found goes to `intena`
          rename_i hzero
          rw [if_pos hzero, ← hie]
          exact Option.some.inj hb
        · rename_i hzero
          rw [if_neg hzero]
          have hkept := h.kept c p hp b
          rw [← hp] at hkept
          refine (hkept (by omega) hb).2 ?_
          rw [hpc]
          nofun
    · cases hstep
  | lock c =>
    simp only [IntrSys.step] at hstep
    split at hstep
    · rename_i l hpc
      obtain ⟨-, rfl⟩ := of_guard hstep
      have hgo : (σ.set c (σ.cpu c) { σ.ctx (σ.cpu c).on with pc := .run }).Inv :=
        h.goto (by rw [hpc]; nofun)
      exact hgo.setHolder _
    · cases hstep
  | unlock c l =>
    obtain ⟨⟨hpc, -⟩, rfl⟩ := of_guard hstep
    have hgo : (σ.set c (σ.cpu c) { σ.ctx (σ.cpu c).on with pc := .popping }).Inv :=
      h.goto (by rw [hpc]; nofun)
    exact hgo.setHolder _
  | popOff c =>
    obtain ⟨⟨hpc, hie, hnoff⟩, rfl⟩ := of_guard hstep
    have hon := h.on c
    refine h.set rfl ⟨?_, ?_, nofun, hon.traps, ⟨nofun, nofun⟩, nofun⟩ ?_
    · exact congrArg (· - 1) hon.noff_eq
    · intro hpos
      dsimp only at hpos ⊢
      rw [if_neg (by omega)]
      exact hie
    · intro p hp b hpos hb
      dsimp only at hp hpos hb ⊢
      have hkept := h.kept c p hp b
      rw [← hp] at hkept
      refine ⟨nofun, fun _ => (hkept (by omega) hb).2 ?_⟩
      rcases hpc with hpc | hpc <;> rw [hpc] <;> nofun
  | intrOn c =>
    obtain ⟨⟨hpc, hdepth⟩, rfl⟩ := of_guard hstep
    exact h.setBit hpc hdepth true
  | intrOff c =>
    obtain ⟨⟨hpc, hdepth⟩, rfl⟩ := of_guard hstep
    exact h.setBit hpc hdepth false
  | trap c =>
    obtain ⟨hie, rfl⟩ := of_guard hstep
    have hon := h.on c
    refine h.set rfl ⟨hon.noff_eq, fun _ => rfl, nofun, ?_, ⟨nofun, nofun⟩, nofun⟩ ?_
    · intro q hq
      rcases List.mem_cons.mp hq with rfl | hq
      · exact hon.interruptible hie
      · exact hon.traps q hq
    · intro p _ b hpos
      exact absurd hpos (by rw [hon.depth_eq_zero hie]; exact Nat.lt_irrefl 0)
  | sret c =>
    simp only [IntrSys.step] at hstep
    split at hstep
    · rename_i pc rest htraps
      obtain ⟨⟨hpc, hdepth⟩, rfl⟩ := of_guard hstep
      have hon := h.on c
      have htraps' := hon.traps
      rw [htraps] at htraps'
      have hint := htraps' pc (List.mem_cons_self ..)
      refine h.set rfl ⟨hon.noff_eq, ?_, ?_, ?_, ?_, ?_⟩ ?_
      · intro hpos
        rw [hon.noff_eq, hdepth] at hpos
        cases hpos
      · rintro old l rfl
        exact hint.symm
      · exact fun q hq => htraps' q (List.mem_cons_of_mem _ hq)
      · constructor <;> rintro rfl <;> exact hint
      · rintro rfl
        exact hint.elim
      · intro p _ b hpos
        exact absurd hpos (by rw [hdepth]; exact Nat.lt_irrefl 0)
    · cases hstep
  | sched c =>
    simp only [IntrSys.step] at hstep
    split at hstep
    · rename_i p hon
      obtain ⟨⟨hpc, -, hnoff, -⟩, rfl⟩ := of_guard hstep
      rw [hon] at hpc ⊢
      exact h.park hon hpc hnoff
    · cases hstep
  | swtch c p =>
    obtain ⟨⟨hon, hrun, htraps, hdepth, -⟩, hτ⟩ := Option.ite_none_right_eq_some.mp hstep
    rw [hon] at hrun htraps hdepth
    split at hτ
    · rename_i hpc
      cases hτ
      exact h.resume hon hrun htraps hdepth (.inl ⟨hpc, rfl⟩)
    · rename_i hpc
      cases hτ
      exact h.resume hon hrun htraps hdepth (.inr ⟨hpc, rfl⟩)
    · cases hτ
  | restore c =>
    simp only [IntrSys.step] at hstep
    split at hstep
    · rename_i p hon
      obtain ⟨hpc, rfl⟩ := of_guard hstep
      have hf := h.on c
      refine h.set rfl ⟨hf.noff_eq, hf.off, nofun, hf.traps, ⟨nofun, nofun⟩, nofun⟩ ?_
      intro q hq b hpos hb
      obtain rfl := Ctx.thread.inj (hon.symm.trans hq)
      have hkept := h.kept c p hon b
      rw [← hon] at hkept
      exact ⟨nofun, fun _ => (hkept hpos hb).1 hpc⟩
    · cases hstep

end Inv

variable [DecidableEq T] [DecidableEq C] [DecidableEq L]

/-- **Interrupt state follows the thread**: in every run, interrupts are disabled on a CPU whose `noff` is
positive, and the `pop_off` that undoes the outermost `push_off` of a process thread, on whatever CPU,
leaves interrupts enabled iff they were enabled at that `push_off`. -/
theorem interrupts_follow_thread {plock : T → L} {ie : C → Bool} {as : List (IntrAction T C L)}
    (hrun : runFrom (IntrSys.step plock) (boot T L ie) as = some σ) :
    (∀ c, 0 < (σ.cpu c).noff → (σ.cpu c).ie = false) ∧
    ∀ c p b τ, (σ.cpu c).on = .thread p → (σ.ctx (.thread p)).depth = 1 →
      (σ.ctx (.thread p)).start = some b → IntrSys.step plock σ (.popOff c) = some τ →
      (τ.ctx (.thread p)).depth = 0 ∧ (τ.cpu c).ie = b := by
  have h : σ.Inv := runFrom_invariant (I := Inv) (fun _ _ _ hI hs => hI.step hs) (boot_inv ie) hrun
  refine ⟨fun c => (h.on c).off, ?_⟩
  intro c p b τ hon hdepth hstart hstep
  obtain ⟨⟨hpc, hie, -⟩, rfl⟩ := of_guard hstep
  have hnoff := (h.on c).noff_eq
  rw [hon] at hpc hnoff
  have hintena : (σ.cpu c).intena = b := by
    refine (h.kept c p hon b (by omega) hstart).2 ?_
    rcases hpc with hpc | hpc <;> rw [hpc] <;> nofun
  dsimp only [IntrSys.set]
  rw [hon, update_self, update_self]
  refine ⟨by dsimp only; omega, ?_⟩
  dsimp only
  rw [hintena, hie, hnoff, hdepth]
  cases b <;> rfl

/-- A process thread takes its lock on CPU 0 with interrupts enabled, calls `sched`, and is resumed on
CPU 1, where they are disabled. -/
def migrates : List (IntrAction (Fin 1) (Fin 2) (Fin 1)) :=
  [.pushGet 0 (some 0), .pushOff 0, .lock 0, .swtch 0 0, .unlock 0 0, .popOff 0,
    .pushGet 0 (some 0), .pushOff 0, .lock 0, .sched 0, .unlock 0 0, .popOff 0,
    .intrOff 1, .pushGet 1 (some 0), .pushOff 1, .lock 1, .swtch 1 0, .restore 1, .unlock 1 0]

theorem interrupts_follow_thread_migrates : ∃ σ τ,
    runFrom (IntrSys.step fun _ => 0) (boot (Fin 1) (Fin 1) fun _ => true) migrates = some σ ∧
    IntrSys.step (fun _ => 0) σ (.popOff 1) = some τ ∧ (τ.cpu 1).ie = true := by
  have hany : ((runFrom (IntrSys.step fun _ => 0) (boot (Fin 1) (Fin 1) fun _ => true) migrates).any
      fun σ : IntrSys (Fin 1) (Fin 2) (Fin 1) => decide ((σ.cpu 1).on = .thread 0 ∧
        (σ.ctx (.thread 0)).depth = 1 ∧ (σ.ctx (.thread 0)).start = some true) &&
        (IntrSys.step (fun _ => 0) σ (.popOff 1)).isSome) = true := by
    decide +kernel
  obtain ⟨σ, hrun, hσ⟩ := (Option.any_eq_true _ _).mp hany
  obtain ⟨hdec, hsome⟩ := (Bool.and_eq_true _ _).mp hσ
  obtain ⟨hon, hdepth, hstart⟩ := of_decide_eq_true hdec
  obtain ⟨τ, hτ⟩ := Option.isSome_iff_exists.mp hsome
  exact ⟨σ, τ, hrun, hτ, ((interrupts_follow_thread hrun).2 1 0 true τ hon hdepth hstart hτ).2⟩

end IntrSys

end Xv6
