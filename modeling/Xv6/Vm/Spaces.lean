import Xv6.Vm.Fork
import Xv6.Vm.Free

/-! # The address spaces of all processes

Any number of processes make, copy, grow and free address spaces, in any order, in a memory that may run
out at any time. No page is lost, and none has two owners. -/

namespace Xv6.Vm

open Function Phys

/-- What a process does with an address space. -/
inductive SpaceCall (P : Type)
  /-- `proc_pagetable`. -/
  | create (p : P) (trapframe : UInt64)
  /-- `fork` copies the memory of a process to a new one. -/
  | copy (p np : P)
  | grow (p : P) (n : Int32)
  /-- `proc_freepagetable`. -/
  | free (p : P)

variable {P : Type} [DecidableEq P] {σ : P → Option UserMem} {trampoline : UInt64} {s t : Phys} {p : P}
  {o : Option UserMem} {U : Set UInt64}

/-- A call that finds what it needs is made; others change nothing. -/
def SpaceCall.run (trampoline : UInt64) (σ : P → Option UserMem) : SpaceCall P → VmM (P → Option UserMem)
  | .create p trapframe =>
    match σ p with
    | some _ => return σ
    | none => return update σ p ((← procPagetable trampoline trapframe).map (⟨·, 0⟩))
  | .copy p np =>
    match σ p, σ np with
    | some m, some c => do
      if p = np ∨ c.sz ≠ 0 then return σ
      let r ← uvmcopy m.pagetable c.pagetable m.sz
      return update σ np (some (if r < 0 then c else { c with sz := m.sz }))
    | _, _ => return σ
  | .grow p n =>
    match σ p with
    | some m => return update σ p (some (← growproc m n).2)
    | none => return σ
  | .free p =>
    match σ p with
    | some m => do
      procFreepagetable m.pagetable m.sz
      return update σ p none
    | none => return σ

/-- The pages of an address space. -/
def pages (s : Phys) : Option UserMem → Set UInt64
  | some m => owned s m.pagetable (numPages m.sz)
  | none => ∅

/-- A process has an address space of the size it has, below its trapframe and the trampoline. -/
def Shaped (trampoline : UInt64) (s : Phys) (o : Option UserMem) : Prop :=
  ∀ m, o = some m → ∃ trapframe, Space s m.pagetable (numPages m.sz) (fixed trampoline trapframe)

/-- The pages `U` are divided among the address spaces and the free list. -/
structure SpacesInv (trampoline : UInt64) (U : Set UInt64) (σ : P → Option UserMem) (s : Phys) : Prop where
  kmem : s.Kmem
  shaped : ∀ p, Shaped trampoline s (σ p)
  divided : Divided U s.freelist fun p => pages s (σ p)

namespace SpacesInv

theorem isPage (h : Shaped trampoline s o) : ∀ q ∈ pages s o, s.IsPage q := by
  cases o with
  | none => simp [pages]
  | some m =>
    obtain ⟨_, hm⟩ := h m rfl
    exact hm.isPage

/-- What one process does leaves the others as they are. -/
theorem turn (h : SpacesInv trampoline U σ s) (hm : Moves s t (pages s (σ p)) (pages t o))
    (ho : Shaped trampoline t o) : SpacesInv trampoline U (update σ p o) t := by
  have hpage := isPage (h.shaped p)
  have hsame : ∀ p' ≠ p, Shaped trampoline t (σ p') ∧ pages t (σ p') = pages s (σ p') := by
    intro p' hne
    cases hm' : σ p' with
    | none => exact ⟨by simp [Shaped], rfl⟩
    | some m =>
      obtain ⟨tf, hspace⟩ := h.shaped p' m hm'
      have hframe := hspace.frame hm hpage fun q hq hqp =>
        hne (h.divided.apart p' p q (by rw [hm']; exact hq) hqp)
      refine ⟨?_, hframe.owned⟩
      rintro _ ⟨⟩
      exact ⟨tf, hframe.space⟩
  have hpages : (fun p' => pages t (update σ p o p')) = update (fun p' => pages s (σ p')) p (pages t o) := by
    funext p'
    rcases eq_or_ne p' p with rfl | hne
    · simp
    · simp [hne, (hsame p' hne).2]
  refine ⟨(hm.isPage hpage h.kmem).1, ?_, hpages ▸ h.divided.transfer hm.toTransfer⟩
  rw [forall_update_iff σ fun _ o => Shaped trampoline t o]
  exact ⟨ho, fun p' hne => (hsame p' hne).1⟩

theorem resize {m m' : UserMem} {tf : UInt64} (h : SpacesInv trampoline U σ s) (hp : σ p = some m)
    (hroot : m'.pagetable = m.pagetable)
    (hres : Resized s t m.pagetable (numPages m.sz) (numPages m'.sz) (fixed trampoline tf)) :
    SpacesInv trampoline U (update σ p (some m')) t := by
  refine h.turn ?_ ?_
  · rw [hp, pages, pages, hroot]
    exact hres.moves
  · rintro _ ⟨⟩
    exact ⟨tf, hroot ▸ hres.space⟩

theorem run (h : SpacesInv trampoline U σ s) (a : SpaceCall P) :
    Wp (a.run trampoline σ) (fun _ => False) (SpacesInv trampoline U) s := by
  cases a with
  | create p trapframe =>
    simp only [SpaceCall.run]
    cases hp : σ p with
    | some m => exact h
    | none =>
      refine (procPagetable_spec _ _ h.kmem).bind ?_
      rintro _ t (⟨rfl, hm⟩ | ⟨root, rfl, hspace, hm⟩)
      · exact h.turn (hp ▸ hm) (by simp [Shaped])
      · rw [← numPages_zero] at hspace hm
        refine h.turn (hp ▸ hm) ?_
        rintro _ ⟨⟩
        exact ⟨trapframe, hspace⟩
  | copy p np =>
    simp only [SpaceCall.run]
    split
    · rename_i m c hp hnp
      rw [wp_ite]
      refine ⟨fun _ => h, fun hcan => ?_⟩
      obtain ⟨hne, hsz⟩ := not_or.mp hcan
      obtain ⟨_, hm⟩ := h.shaped p m hp
      obtain ⟨tf, hc⟩ := h.shaped np c hnp
      have hzero : numPages c.sz = 0 := by rw [not_not.mp hsz, numPages_zero]
      rw [hzero] at hc
      have hapart : Apart s m.pagetable c.pagetable (numPages m.sz) 0 := by
        intro q hq hqc
        refine hne (h.divided.apart p np q ?_ ?_)
        · rwa [hp]
        · rwa [hnp, pages, hzero]
      refine (uvmcopyLoop_spec hm.maps hc (above_fixed _ _) hapart rfl (Nat.zero_le _) (by decide)).bind ?_
      rintro _ t ⟨-, ⟨rfl, hres, -⟩ | ⟨rfl, hres⟩⟩
      all_goals
        rw [← hzero] at hres
        exact h.resize hnp rfl hres
    · exact h
  | grow p n =>
    simp only [SpaceCall.run]
    cases hp : σ p with
    | none => exact h
    | some m =>
      obtain ⟨tf, hspace⟩ := h.shaped p m hp
      refine (growproc_spec hspace (above_fixed _ _) n).bind ?_
      rintro ⟨r, m'⟩ t hgrows
      obtain ⟨-, hroot, ⟨-, -, hres, -⟩ | ⟨-, rfl, hres⟩⟩ | ⟨-, heq, rfl⟩ := hgrows
      · exact h.resize hp hroot hres
      · exact h.resize hp rfl hres
      · cases heq
        exact h.resize hp rfl (.refl hspace)
  | free p =>
    simp only [SpaceCall.run]
    cases hp : σ p with
    | none => exact h
    | some m =>
      obtain ⟨tf, hspace⟩ := h.shaped p m hp
      refine (procFreepagetable_spec _ _ hspace).bind fun _ t hm => ?_
      exact h.turn (by rw [hp]; exact hm) (by simp [Shaped])

end SpacesInv

/-- **No page is lost**, and none has two owners, whatever processes do with their address spaces. Nothing
panics, and every process keeps an address space of the size it has. -/
theorem pages_conserved (hk : s.Kmem) (as : List (SpaceCall P)) :
    ∃ σ t, as.foldlM (SpaceCall.run trampoline) (fun _ => none) s = .ok (σ, t) ∧
      SpacesInv trampoline {q | q ∈ s.freelist} σ t := by
  have hrun : ∀ (as : List (SpaceCall P)) {U σ s}, SpacesInv trampoline U σ s →
      Wp (as.foldlM (SpaceCall.run trampoline) σ) (fun _ => False) (SpacesInv trampoline U) s := by
    intro as
    induction as with
    | nil => exact fun h => h
    | cons a as ih => exact fun h => (h.run a).bind fun _ _ h' => ih h'
  exact (hrun as ⟨hk, fun _ => by simp [Shaped], hk.nodup, by simp [pages], by simp [pages], by simp [pages]⟩).total

/-- A process grows, and is freed after an attempt to copy it. -/
theorem pages_conserved_copy : ∃ σ t, [.create false 0, .grow false 10, .create true 0, .copy false true,
      .free false].foldlM (SpaceCall.run 0) (fun _ => none) ninePages = .ok (σ, t) ∧
    SpacesInv 0 {q | q ∈ ninePages.freelist} σ t :=
  pages_conserved ninePages_kmem _

end Xv6.Vm
