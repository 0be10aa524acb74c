import Xv6.Virtio.Requests

/-! # Every request is matched with its completion -/

namespace Xv6

open Function

/-- The call holds `vdisk_lock`. -/
def RwPc.holds {B : Type*} : RwPc B → Bool
  | .alloc _ | .format _ _ | .ring _ _ | .bump _ _ | .wait _ _ | .finish _ _ => true
  | _ => false

/-- The handler holds `vdisk_lock`. -/
def IntrHandlerPc.holds : IntrHandlerPc → Bool
  | .loop | .process => true
  | _ => false

namespace Virtio

variable {P I B : Type*} [DecidableEq P] [DecidableEq I] [DecidableEq B]

/-- What holds in every state. -/
structure Inv (σ : Virtio P I B) : Prop where
  core : σ.toVirtioMem.Core fun p => (σ.pc p).view
  thread : ∀ p, (σ.pc p).holds = true → σ.lock = some (.inl p)
  handler : ∀ i, (σ.handler i).holds = true → σ.lock = some (.inr i)
  bump : ∀ p c ch, σ.pc p = .bump c ch → σ.disk.availRing (ringCell σ.disk.availIdx) = ch.i0
  /-- The handler goes on only if there is something to process. -/
  process : ∀ i, σ.handler i = .process → σ.processed.length < σ.published.length
  panicked : σ.panicked = false

variable {σ τ : Virtio P I B} {p : P} {i : I}

/-- The call or handler holds `vdisk_lock`. -/
def holds (σ : Virtio P I B) : P ⊕ I → Bool
  | .inl p => (σ.pc p).holds
  | .inr i => (σ.handler i).holds

omit [DecidableEq P] [DecidableEq I] [DecidableEq B] in
theorem Inv.holder (h : σ.Inv) {x : P ⊕ I} (hx : σ.holds x = true) : σ.lock = some x := by
  cases x with
  | inl p => exact h.thread p hx
  | inr i => exact h.handler i hx

omit [DecidableEq P] [DecidableEq I] [DecidableEq B] in
/-- While one is in its critical section, or nobody is, nobody else is. -/
theorem Inv.exclusive (h : σ.Inv) {x y : P ⊕ I} (hx : σ.holds x = true ∨ σ.lock = none) (hy : y ≠ x) :
    σ.holds y = false := by
  by_contra hc
  have hlock := h.holder (x := y) (by simpa using hc)
  rcases hx with hx | hnone
  · exact hy (Option.some.inj (hlock.symm.trans (h.holder hx)))
  · exact nomatch hnone.symm.trans hlock

omit [DecidableEq P] [DecidableEq I] [DecidableEq B] in
/-- A step of `x` in its critical section, or into it. -/
theorem Inv.critical (h : σ.Inv) (x : P ⊕ I) (hx : σ.holds x = true ∨ σ.lock = none)
    (hcore : τ.toVirtioMem.Core fun p => (τ.pc p).view)
    (hothers : ∀ y, y ≠ x → τ.holds y = σ.holds y ∨ τ.holds y = false)
    (hlock : τ.holds x = true → τ.lock = some x)
    (hbump : ∀ p c ch, x = .inl p → τ.pc p = .bump c ch →
      τ.disk.availRing (ringCell τ.disk.availIdx) = ch.i0)
    (hprocess : ∀ i, x = .inr i → τ.handler i = .process → τ.processed.length < τ.published.length)
    (hpanicked : τ.panicked = σ.panicked) : τ.Inv := by
  have hfree : ∀ y, τ.holds y = true → y = x := by
    intro y hy
    by_contra hne
    rcases hothers y hne with heq | hf
    · rw [heq, h.exclusive hx hne] at hy
      cases hy
    · rw [hf] at hy
      cases hy
  have hheld : ∀ y, τ.holds y = true → τ.lock = some y := by
    intro y hy
    obtain rfl := hfree y hy
    exact hlock hy
  constructor
  case core => exact hcore
  case thread => exact fun q hq => hheld (.inl q) hq
  case handler => exact fun i hi => hheld (.inr i) hi
  case bump => exact fun q c ch hq => hbump q c ch (hfree (.inl q) (by rw [holds, hq]; rfl)).symm hq
  case process => exact fun i hi => hprocess i (hfree (.inr i) (by rw [holds, hi]; rfl)).symm hi
  case panicked => exact hpanicked.trans h.panicked

omit [DecidableEq P] [DecidableEq I] [DecidableEq B] in
/-- A step outside of the critical sections, which may wake calls. -/
theorem Inv.outside (h : σ.Inv) (hcore : τ.toVirtioMem.Core fun p => (τ.pc p).view)
    (hpc : ∀ q, τ.pc q = σ.pc q ∨ (τ.pc q).holds = false)
    (hhandler : ∀ i, τ.handler i = σ.handler i ∨ (τ.handler i).holds = false)
    (hlock : τ.lock = σ.lock) (hring : τ.disk.availRing = σ.disk.availRing)
    (hidx : τ.disk.availIdx = σ.disk.availIdx)
    (hcount : σ.processed.length < σ.published.length → τ.processed.length < τ.published.length)
    (hpanicked : τ.panicked = σ.panicked) : τ.Inv := by
  constructor
  case core => exact hcore
  case thread =>
    intro q hq
    rcases hpc q with heq | hf
    · rw [hlock]
      exact h.thread q (heq ▸ hq)
    · rw [hf] at hq
      cases hq
  case handler =>
    intro i hi
    rcases hhandler i with heq | hf
    · rw [hlock]
      exact h.handler i (heq ▸ hi)
    · rw [hf] at hi
      cases hi
  case bump =>
    intro q c ch hq
    rw [hring, hidx]
    rcases hpc q with heq | hf
    · exact h.bump q c ch (heq ▸ hq)
    · rw [hq] at hf
      cases hf
  case process =>
    intro i hi
    rcases hhandler i with heq | hf
    · exact hcount (h.process i (heq ▸ hi))
    · rw [hi] at hf
      cases hf
  case panicked => exact hpanicked.trans h.panicked

omit [DecidableEq P] [DecidableEq I] [DecidableEq B] in
/-- A step of the device. -/
theorem Inv.device (h : σ.Inv) {s : VirtioMem B} (hcore : s.Core fun p => (σ.pc p).view)
    (hring : s.disk.availRing = σ.disk.availRing := by rfl) (hidx : s.disk.availIdx = σ.disk.availIdx := by rfl)
    (hcount : σ.processed.length < σ.published.length → s.processed.length < s.published.length := by
      exact id) : Inv ({ σ with toVirtioMem := s } : Virtio P I B) :=
  h.outside hcore (fun _ => .inl rfl) (fun _ => .inl rfl) rfl hring hidx hcount rfl

/-! ### Callers -/

omit [DecidableEq P] [DecidableEq B] in
theorem view_wakeFree_pc (pc : P → RwPc B) : (fun q => (pc q).wakeFree.view) = fun q => (pc q).view := by
  funext q
  exact RwPc.view_wakeFree _

omit [DecidableEq P] [DecidableEq B] in
theorem holds_wakeFree (pc : RwPc B) : pc.wakeFree = pc ∨ pc.wakeFree.holds = false := by
  cases pc with
  | asleepFree c => exact .inr rfl
  | _ => exact .inl rfl

omit [DecidableEq I] [DecidableEq B] in
/-- The views after a call has gone on. -/
theorem view_goto (σ : Virtio P I B) (p : P) (c : RwPc B) :
    (fun q => ((σ.goto p c).pc q).view) = update (fun q => (σ.pc q).view) p c.view :=
  proj_update RwPc.view σ.pc p c

omit [DecidableEq I] [DecidableEq B] in
theorem goto_others (σ : Virtio P I B) (c : RwPc B) (q : P) (hq : q ≠ p) :
    (σ.goto p c).pc q = σ.pc q := by
  rw [goto]
  exact update_of_ne hq _ _

omit [DecidableEq I] [DecidableEq B] in
theorem goto_self (σ : Virtio P I B) (p : P) (c : RwPc B) : (σ.goto p c).pc p = c := by
  rw [goto]
  exact update_self ..

omit [DecidableEq I] [DecidableEq B] in
/-- A step of one call in its critical section, or into it, that leaves the others where they are. -/
theorem Inv.caller (h : σ.Inv) {c : RwPc B} (hp : (σ.pc p).holds = true ∨ σ.lock = none)
    (hpc : τ.pc = (σ.goto p c).pc) (hcore : τ.toVirtioMem.Core (update (fun q => (σ.pc q).view) p c.view))
    (hlock : c.holds = true → τ.lock = some (.inl p))
    (hbump : ∀ c' ch, c = .bump c' ch → τ.disk.availRing (ringCell τ.disk.availIdx) = ch.i0)
    (hhandler : τ.handler = σ.handler := by rfl) (hpanicked : τ.panicked = σ.panicked := by rfl) : τ.Inv := by
  have hself : τ.pc p = c := by rw [hpc, goto_self]
  apply h.critical (.inl p) hp
  case hcore =>
    rw [hpc, view_goto]
    exact hcore
  case hothers =>
    intro y hy
    left
    cases y with
    | inl q => rw [holds, holds, hpc, goto_others σ c q fun hc => hy (congrArg _ hc)]
    | inr i => rw [holds, holds, hhandler]
  case hlock => exact fun hh => hlock (hself ▸ hh)
  case hbump =>
    rintro _ c' ch ⟨⟩ hc
    exact hbump c' ch (hself.symm.trans hc)
  case hprocess => nofun
  case hpanicked => exact hpanicked

omit [DecidableEq I] [DecidableEq B] in
/-- A call that goes on without touching the shared memory. -/
theorem core_goto_same {c : RwPc B} (hview : c.view = (σ.pc p).view) {s : VirtioMem B}
    (hcore : s.Core fun q => (σ.pc q).view) : s.Core (update (fun q => (σ.pc q).view) p c.view) := by
  rw [hview, update_eq_self p fun q => (σ.pc q).view]
  exact hcore

omit [DecidableEq I] [DecidableEq B] in
theorem Inv.takeLock (h : σ.Inv) {c : RwPc B} (hview : c.view = (σ.pc p).view)
    (hbump : ∀ c' ch, c ≠ .bump c' ch) (hstep : σ.takeLock p c = some τ) : τ.Inv := by
  obtain ⟨hlock, rfl⟩ := of_guard hstep
  exact h.caller (.inr hlock) rfl (core_goto_same hview h.core) (fun _ => rfl)
    fun c' ch hc => absurd hc (hbump c' ch)

omit [DecidableEq I] [DecidableEq B] in
/-- A step of a call that changes only the shared memory and where the call is. -/
theorem Inv.advance (h : σ.Inv) (hp : (σ.pc p).holds = true) {c : RwPc B} {s : VirtioMem B}
    (hcore : s.Core (update (fun q => (σ.pc q).view) p c.view))
    (hbump : ∀ c' ch, c = .bump c' ch → s.disk.availRing (ringCell s.disk.availIdx) = ch.i0) :
    Inv ({ σ.goto p c with toVirtioMem := s } : Virtio P I B) :=
  h.caller (.inl hp) rfl hcore (fun _ => h.thread p hp) hbump

omit [DecidableEq I] [DecidableEq B] in
/-- A call that gives up the lock, and may wake calls that wait for descriptors. -/
theorem Inv.leave (h : σ.Inv) (hp : (σ.pc p).holds = true) {c : RwPc B} (hc : c.holds = false)
    (hpc : τ.pc = update (fun q => (σ.pc q).wakeFree) p c)
    (hcore : τ.toVirtioMem.Core (update (fun q => (σ.pc q).view) p c.view))
    (hhandler : τ.handler = σ.handler := by rfl) (hpanicked : τ.panicked = σ.panicked := by rfl) : τ.Inv := by
  have hself : τ.pc p = c := by rw [hpc, update_self]
  apply h.critical (.inl p) (.inl hp)
  case hcore =>
    rw [hpc, proj_update RwPc.view, view_wakeFree_pc]
    exact hcore
  case hothers =>
    intro y hy
    cases y with
    | inl q =>
      rw [holds, holds, hpc, update_of_ne fun hc => hy (congrArg _ hc)]
      exact (holds_wakeFree (σ.pc q)).imp_left (congrArg _)
    | inr i => exact .inl (by rw [holds, holds, hhandler])
  case hlock =>
    rw [holds, hself, hc]
    nofun
  case hbump =>
    rintro _ c' ch ⟨⟩ hc'
    rw [← hself, hc'] at hc
    cases hc
  case hprocess => nofun
  case hpanicked => exact hpanicked

omit [DecidableEq I] in
theorem Inv.next (h : σ.Inv) (hstep : σ.next p = some τ) : τ.Inv := by
  unfold Virtio.next at hstep
  cases hpc : σ.pc p <;> simp only [hpc] at hstep
  case idle | asleepFree | asleep => cases hstep
  case acquire c => exact h.takeLock (c := .alloc c) (hpc ▸ rfl) nofun hstep
  case reacquire c ch => exact h.takeLock (c := .wait c ch) (hpc ▸ rfl) nofun hstep
  case alloc c =>
    have hholds : (σ.pc p).holds = true := hpc ▸ rfl
    have hview : (σ.pc p).view = .calling c := hpc ▸ rfl
    obtain ⟨d, o, halloc, hsame, hspec⟩ := σ.disk.alloc3Desc_spec
    rw [halloc] at hstep
    cases o with
    | none =>
      cases hstep
      obtain ⟨hfree, hdesc⟩ := hspec
      exact h.leave hholds (c := .asleepFree c) rfl rfl
        (core_goto_same (c := .asleepFree c) hview.symm (h.core.allocFail hsame hfree hdesc))
    | some ch =>
      cases hstep
      obtain ⟨hfree, hdesc, hnodup, htaken⟩ := hspec
      exact h.advance hholds (c := .format c ch)
        (h.core.alloc hsame hview hfree hdesc hnodup htaken) nofun
  case format c ch =>
    cases hstep
    have hview : (σ.pc p).view = .raw c ch := hpc ▸ rfl
    exact h.advance (hpc ▸ rfl) (c := .ring c ch) (h.core.format hview) nofun
  case ring c ch =>
    cases hstep
    have hview : (σ.pc p).view = .built c ch := hpc ▸ rfl
    refine h.advance (hpc ▸ rfl) (c := .bump c ch)
      (core_goto_same (c := .bump c ch) hview.symm (h.core.ring hview)) fun c' ch' hc => ?_
    cases hc
    exact update_self ..
  case bump c ch =>
    cases hstep
    have hview : (σ.pc p).view = .built c ch := hpc ▸ rfl
    exact h.advance (hpc ▸ rfl) (c := .wait c ch)
      (h.core.bump hview (h.bump p c ch hpc)) nofun
  case wait c ch =>
    have hview : (σ.pc p).view = .posted c ch := hpc ▸ rfl
    split at hstep
    · cases hstep
      exact h.caller (.inl (hpc ▸ rfl)) rfl (core_goto_same (c := .asleep c ch) hview.symm h.core) nofun nofun
    · rename_i hb
      cases hstep
      exact h.advance (hpc ▸ rfl) (c := .finish c ch)
        (h.core.notice hview (by simpa using hb)) nofun
  case finish c ch =>
    have hview : (σ.pc p).view = .done c ch := hpc ▸ rfl
    have hfmt := h.core.requests.formatted p c ch (by show (σ.pc p).view.formatted = _; rw [hview]; rfl)
    have hchain : (σ.pc p).view.chain = some ch := hview ▸ rfl
    obtain ⟨d, hd, hfree, hsame, hdesc⟩ := VDisk.freeChain_spec
      (d := { σ.disk with
        info := update σ.disk.info ch.i0 { σ.disk.info ch.i0 with b := none } })
      hfmt rfl (h.core.chains.nodup p ch hchain) (h.core.chains.taken p ch hchain)
    rw [hd] at hstep
    cases hstep
    have hrings : σ.disk.SameRings d :=
      ⟨hsame.availRing, hsame.availIdx, hsame.usedRing, hsame.usedIdx, hsame.seenIdx⟩
    exact h.leave (by rw [hpc]; rfl) (c := .idle) rfl rfl
      (h.core.finish hview hrings hsame.ops hsame.info hfree hdesc)

/-! ### The interrupt handler -/

omit [DecidableEq P] [DecidableEq B] in
/-- A step of a handler in its critical section, or into it. -/
theorem Inv.handling (h : σ.Inv) (hi : (σ.handler i).holds = true ∨ σ.lock = none)
    (hcore : τ.toVirtioMem.Core fun p => (τ.pc p).view)
    (hpc : ∀ q, τ.pc q = σ.pc q ∨ (τ.pc q).holds = false) {c : IntrHandlerPc}
    (hhandler : τ.handler = update σ.handler i c)
    (hlock : c.holds = true → τ.lock = some (.inr i))
    (hprocess : c = .process → τ.processed.length < τ.published.length)
    (hpanicked : τ.panicked = σ.panicked) : τ.Inv := by
  have hself : τ.handler i = c := by rw [hhandler, update_self]
  apply h.critical (.inr i) hi hcore
  case hothers =>
    intro y hy
    cases y with
    | inl q => exact (hpc q).imp_left (congrArg RwPc.holds)
    | inr j => exact .inl (by rw [holds, holds, hhandler, update_of_ne fun hc => hy (congrArg _ hc)])
  case hlock => exact fun hh => hlock (hself ▸ hh)
  case hbump => nofun
  case hprocess =>
    rintro _ ⟨⟩ hc
    exact hprocess (hself.symm.trans hc)
  case hpanicked => exact hpanicked

omit [DecidableEq P] in
theorem view_wakeBuf_pc (pc : P → RwPc B) (b : B) :
    (fun q => ((pc q).wakeBuf b).view) = fun q => (pc q).view := by
  funext q
  exact RwPc.view_wakeBuf b _

theorem holds_wakeBuf (pc : RwPc B) (b : B) : pc.wakeBuf b = pc ∨ (pc.wakeBuf b).holds = false := by
  cases pc with
  | asleep c ch =>
    refine .inr ?_
    unfold RwPc.wakeBuf
    dsimp only
    split <;> rfl
  | _ => exact .inl rfl

theorem Inv.handle (h : σ.Inv) (hstep : σ.handle i = some τ) : τ.Inv := by
  unfold Virtio.handle at hstep
  cases hi : σ.handler i <;> simp only [hi] at hstep
  case idle => cases hstep
  case acquire =>
    obtain ⟨hlock, rfl⟩ := of_guard hstep
    exact h.handling (.inr hlock) h.core (fun _ => .inl rfl) rfl (fun _ => rfl) nofun rfl
  case loop =>
    have hholds : (σ.handler i).holds = true := hi ▸ rfl
    split at hstep
    · rename_i hne
      cases hstep
      refine h.handling (.inl hholds) h.core (fun _ => .inl rfl) rfl (fun _ => h.handler i hholds)
        (fun _ => ?_) rfl
      -- the indices differ, so something was published that is not processed
      obtain ⟨p, c, ch, -, -, -, -, -, -, hused⟩ := h.core.next_used hne
      have hlen := congrArg List.length h.core.processed
      rw [hused, List.length_append, List.length_cons] at hlen
      dsimp only
      omega
    · cases hstep
      exact h.handling (.inl hholds) h.core (fun _ => .inl rfl) rfl nofun nofun rfl
  case process =>
    have hholds : (σ.handler i).holds = true := hi ▸ rfl
    have hne : σ.disk.seenIdx ≠ σ.disk.usedIdx := by
      intro heq
      have hnil : σ.used = [] := by
        rw [VirtioMem.used, Ring.window_eq_nil σ.disk.seenIdx.toNat_lt σ.disk.usedIdx.toNat_lt, heq]
      have hlen := congrArg List.length h.core.processed
      rw [hnil, List.append_nil] at hlen
      have := h.process i hi
      omega
    obtain ⟨p, c, ch, hp, hid, -, hstatus, hinfo, hserved, hused⟩ := h.core.next_used hne
    rw [← hid, if_neg (not_not.mpr hstatus), hinfo] at hstep
    cases hstep
    apply h.handling (.inl hholds)
    case hcore =>
      have hV := view_wakeBuf_pc σ.pc c.b
      exact hV ▸ h.core.process hp hserved hused
    case hpc => exact fun q => holds_wakeBuf (σ.pc q) c.b
    case hhandler => rfl
    case hlock => exact fun _ => h.handler i hholds
    case hprocess => nofun
    case hpanicked => rfl

/-! ### All steps -/

theorem Inv.step (h : σ.Inv) {a : VirtioAction P I B} (hstep : Virtio.step σ a = some τ) : τ.Inv := by
  unfold Virtio.step at hstep
  rw [if_neg (by rw [h.panicked]; decide)] at hstep
  cases a with
  | next p => exact h.next hstep
  | handle i => exact h.handle hstep
  | rw p c =>
    dsimp only at hstep
    split at hstep
    · rename_i hpc
      split at hstep
      · cases hstep
      · rename_i hheld
        cases hstep
        apply h.outside
        case hcore =>
          have hview : (σ.pc p).view = .out := hpc ▸ rfl
          have hV := view_goto σ p (.acquire c)
          exact hV ▸ h.core.enter hview (by simpa using hheld)
        case hpc =>
          intro q
          rcases eq_or_ne q p with rfl | hne
          · refine .inr ?_
            dsimp only [goto]
            rw [update_self]
            rfl
          · exact .inl (goto_others σ _ q hne)
        case hhandler => exact fun _ => .inl rfl
        case hlock | hring | hidx | hpanicked => rfl
        case hcount => exact id
    · cases hstep
  | wake p =>
    cases hstep
    apply h.outside
    case hcore =>
      rw [view_goto]
      exact core_goto_same (RwPc.view_wake (σ.pc p)) h.core
    case hpc =>
      intro q
      rcases eq_or_ne q p with rfl | hne
      · dsimp only [goto]
        rw [update_self]
        cases σ.pc q with
        | asleepFree c => exact .inr rfl
        | asleep c ch => exact .inr rfl
        | _ => exact .inl rfl
      · exact .inl (goto_others σ _ q hne)
    case hhandler => exact fun _ => .inl rfl
    case hlock | hring | hidx | hpanicked => rfl
    case hcount => exact id
  | intr i =>
    obtain ⟨-, rfl⟩ := of_guard hstep
    apply h.outside
    case hcore => exact h.core
    case hpc => exact fun _ => .inl rfl
    case hhandler =>
      intro j
      dsimp only
      rcases eq_or_ne j i with rfl | hne
      · rw [update_self]
        exact .inr rfl
      · rw [update_of_ne hne]
        exact .inl rfl
    case hlock | hring | hidx | hpanicked => rfl
    case hcount => exact id
  | consume =>
    obtain ⟨hne, rfl⟩ := of_guard hstep
    exact h.device (h.core.consume hne)
  | complete k =>
    dsimp only at hstep
    split at hstep
    · rename_i i hpub hk
      obtain ⟨hlt, hget⟩ := List.getElem?_eq_some_iff.mp hk
      have hperm : σ.service.Perm (i :: σ.service.eraseIdx k) := by
        rw [← hget]
        exact (List.getElem_cons_eraseIdx_perm hlt).symm
      have hmem : i ∈ σ.inFlight :=
        List.mem_append_left _ (List.mem_append_right _ (hperm.mem_iff.mpr List.mem_cons_self))
      obtain ⟨p, c, ch, hp, rfl, -⟩ := h.core.requests.queue i hmem
      have hfmt := h.core.requests.formatted p c ch (hp ▸ rfl)
      rw [VDisk.serve_eq hfmt] at hstep
      cases hstep
      exact h.device (h.core.complete hpub hp hperm)
    all_goals cases hstep
  | publish =>
    dsimp only at hstep
    split at hstep
    · cases hstep
    · rename_i i hpub
      cases hstep
      refine h.device (h.core.publish hpub) rfl rfl fun hlt => ?_
      dsimp only
      rw [List.length_append]
      exact Nat.lt_add_right _ hlt

omit [DecidableEq P] [DecidableEq I] [DecidableEq B] in
theorem boot_inv : (boot : Virtio P I B).Inv := by
  have havail : (boot : Virtio P I B).avail = [] :=
    (Ring.window_eq_nil (UInt16.toNat_lt _) (UInt16.toNat_lt _)).mpr rfl
  have hused : (boot : Virtio P I B).used = [] :=
    (Ring.window_eq_nil (UInt16.toNat_lt _) (UInt16.toNat_lt _)).mpr rfl
  have hin : (boot : Virtio P I B).inFlight = [] := by
    rw [VirtioMem.inFlight, VirtioMem.completed, havail, hused]
    rfl
  constructor
  case core =>
    constructor
    case calls => constructor <;> (intros; contradiction)
    case chains => constructor <;> (intros; contradiction)
    case requests =>
      constructor
      case queue | distinct =>
        rw [hin]
        simp
      all_goals (intros; contradiction)
    case publishing => (intros; contradiction)
    case submitted =>
      rw [havail]
      rfl
    case processed =>
      rw [hused]
      rfl
  case thread | handler | bump | process => (intros; contradiction)
  case panicked => rfl

theorem inv_of_run {as : List (VirtioAction P I B)} (h : runFrom step boot as = some σ) : σ.Inv :=
  runFrom_invariant (I := Inv) (fun _ _ _ hi hs => hi.step hs) boot_inv h

/-! ### Returning -/

omit [DecidableEq I] in
/-- The last step of a call: the device has done what the call asks for, and the descriptors of the
call, no others, are freed. -/
theorem Inv.finish (h : σ.Inv) {c : RwCall B} {ch : Chain} (hpc : σ.pc p = .finish c ch) :
    σ.Served c ∧ ∃ τ, σ.next p = some τ ∧ τ.pc p = .idle ∧ τ.disk.free = setFree σ.disk.free ch true := by
  have hview : (σ.pc p).view = .done c ch := hpc ▸ rfl
  have hfmt := h.core.requests.formatted p c ch (by show (σ.pc p).view.formatted = _; rw [hview]; rfl)
  have hchain : (σ.pc p).view.chain = some ch := hview ▸ rfl
  obtain ⟨d, hd, hfree, -, -⟩ := VDisk.freeChain_spec
    (d := { σ.disk with
      info := update σ.disk.info ch.i0 { σ.disk.info ch.i0 with b := none } })
    hfmt rfl (h.core.chains.nodup p ch hchain) (h.core.chains.taken p ch hchain)
  refine ⟨(h.core.requests.done p c ch hview).2, ?_⟩
  unfold Virtio.next
  simp only [hpc, hd]
  refine ⟨_, rfl, ?_, hfree⟩
  dsimp only
  rw [update_self]

omit [DecidableEq I] in
/-- The write of `avail->ring` leaves what the device has not consumed as it is. -/
theorem Inv.ring (h : σ.Inv) {c : RwCall B} {ch : Chain} (hpc : σ.pc p = .ring c ch)
    (hstep : σ.next p = some τ) : τ.avail = σ.avail := by
  unfold Virtio.next at hstep
  simp only [hpc] at hstep
  cases hstep
  exact h.core.avail_ring (p := p) (c := c) (hpc ▸ rfl)

end Virtio

end Xv6
