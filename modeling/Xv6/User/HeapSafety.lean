import Xv6.User.Malloc

/-! # Programs that allocate

A program calls `malloc` and `free` and writes to the blocks it has. As long as the memory it asks for
can be asked for with an `int`, and there is less of it than a `uint` of units can count, every block it
has is its own. -/

namespace Xv6.Program

open Heap

variable {σ τ : Program} {F : List ℕ} {n : UInt32} {p x : ℕ}

/-- The headers of the blocks the program has. -/
def headers (σ : Program) : List ℕ := σ.live.map fun b => b.1 - HEADER

/-- The request fits an `int`, and the memory stays below `2 ^ 36` bytes. -/
def Small (σ : Program) : HeapCall → Prop
  | .malloc n answers => n.toNat ≤ 2 ^ 31 - 32 ∧ ∀ gap rest, answers = some gap :: rest →
      σ.heap.top + gap + (request (units n)).toNat * HEADER ≤ 2 ^ 36
  | _ => True

/-- Every block has as many bytes as were asked for. -/
def Usable (σ : Program) : Prop :=
  ∀ b ∈ σ.live, HEADER ≤ b.1 ∧ b.1 + b.2.toNat ≤ σ.heap.stop (b.1 - HEADER)

/-- What holds between calls. -/
structure Valid (σ : Program) (F : List ℕ) : Prop where
  inv : σ.heap.Inv F σ.headers
  usable : σ.Usable

/-- The allocator has not been called yet. -/
structure Fresh (σ : Program) : Prop where
  freep : σ.heap.freep = 0
  live : σ.live = []
  regions : σ.heap.regions = []
  base_pos : σ.heap.base ≠ 0
  base_le : σ.heap.base + HEADER ≤ σ.heap.top
  top_le : σ.heap.top ≤ 2 ^ 36

/-- The invariant of a program. -/
def Inv (σ : Program) : Prop := σ.Fresh ∨ ∃ F, σ.Valid F

/-! ### Calls -/

theorem malloc_returns (h : σ.Inv) {answers : List (Option ℕ)} (hs : σ.Small (.malloc n answers)) :
    ∃ h' q, (σ.heap.withAnswers answers).malloc n = some (h', q) ∧
      Allocates σ.heap σ.headers (units n) h' q ∧ σ.heap.top ≤ h'.top := by
  obtain ⟨hn, hans⟩ := hs
  rcases h with hfresh | ⟨F, hvalid⟩
  · have hinit : (σ.heap.withAnswers answers).initialised.Inv [σ.heap.base] [] :=
      initialised_inv hfresh.regions hfresh.base_pos hfresh.base_le hfresh.top_le
    obtain ⟨h', q, hres, ⟨hbase, -, hcase⟩, htop⟩ :=
      hinit.mallocLoop (units_ne_zero n) (request_lt hn) hans
    have hnil : σ.headers = [] := by rw [headers, hfresh.live, List.map_nil]
    have hfree : (σ.heap.withAnswers answers).freep = 0 := hfresh.freep
    refine ⟨h', q, (malloc_eq_init hfree).trans hres, ⟨hbase, ?_, hnil ▸ hcase⟩, htop⟩
    rw [hnil]
    exact nofun
  · have hinv := hvalid.inv.setAnswers answers
    obtain ⟨h', q, hres, halloc, htop⟩ := hinv.mallocLoop (units_ne_zero n) (request_lt hn) hans
    exact ⟨h', q, (malloc_eq hinv.freep_ne_zero).trans hres, halloc, htop⟩

/-- A block that keeps its bytes is as good as it was. -/
theorem Valid.keeps {h' : Heap} (h : σ.Valid F) {b : ℕ × UInt32} (hb : b ∈ σ.live)
    (hk : ∀ z ∈ Tile.points (σ.heap.block (b.1 - HEADER)), h'.mem z = σ.heap.mem z) :
    HEADER ≤ b.1 ∧ b.1 + b.2.toNat ≤ h'.stop (b.1 - HEADER) := by
  rw [stop_congr (h.inv.size_keeps (List.mem_map_of_mem hb) hk)]
  exact h.usable b hb

theorem Inv.malloc (h : σ.Inv) {answers : List (Option ℕ)} (hs : σ.Small (.malloc n answers))
    (hstep : σ.step (.malloc n answers) = some τ) : τ.Inv := by
  obtain ⟨h', q, hres, ⟨hbase, hkeep, hcase⟩, -⟩ := malloc_returns h hs
  have hold : ∀ b ∈ σ.live, HEADER ≤ b.1 ∧ b.1 + b.2.toNat ≤ h'.stop (b.1 - HEADER) := by
    rcases h with hfresh | ⟨F, hvalid⟩
    · rw [hfresh.live]
      exact nofun
    · exact fun b hb => hvalid.keeps hb (hkeep _ (List.mem_map_of_mem hb))
  unfold Program.step at hstep
  dsimp only at hstep
  rw [hres] at hstep
  cases hstep
  rcases hcase with ⟨rfl, F', hinv⟩ | ⟨F', t, rfl, hinv, ht⟩
  · exact .inr ⟨F', hinv, hold⟩
  · refine .inr ⟨F', ?_, ?_⟩
    · have hheaders : headers ⟨h', (t + HEADER, n) :: σ.live⟩ = t :: σ.headers := by
        rw [headers, List.map_cons, Nat.add_sub_cancel]
        rfl
      show h'.Inv F' (headers ⟨h', (t + HEADER, n) :: σ.live⟩)
      rw [hheaders]
      exact hinv
    · intro b hb
      rcases List.mem_cons.mp hb with rfl | hb
      · refine ⟨Nat.le_add_left .., ?_⟩
        have hu := toNat_units n
        show t + HEADER + n.toNat ≤ h'.stop (t + HEADER - HEADER)
        rw [Nat.add_sub_cancel, stop, ht]
        unfold HEADER
        omega
      · exact hold b hb

/-- The block that is freed, and the others. -/
theorem live_erase (hp : (σ.live.map Prod.fst).contains p = true) :
    ∃ n l₁ l₂, σ.live = l₁ ++ (p, n) :: l₂ ∧ σ.live.eraseP (fun b => b.1 = p) = l₁ ++ l₂ := by
  obtain ⟨b, hb, rfl⟩ := List.mem_map.mp (List.contains_iff_mem.mp hp)
  obtain ⟨c, l₁, l₂, -, hc, hlive, herase⟩ :=
    List.exists_of_eraseP (p := fun c => decide (c.1 = b.1)) hb (decide_eq_true rfl)
  obtain ⟨q, n⟩ := c
  obtain rfl : q = b.1 := of_decide_eq_true hc
  exact ⟨n, l₁, l₂, hlive, herase⟩

theorem free_returns (h : σ.Inv) (hp : (σ.live.map Prod.fst).contains p = true) :
    ∃ h' F', σ.heap.free p = some h' ∧
      h'.Inv F' ((σ.live.eraseP fun b => b.1 = p).map fun b => b.1 - HEADER) ∧
      Keeps σ.heap h' ((σ.live.eraseP fun b => b.1 = p).map fun b => b.1 - HEADER) := by
  obtain ⟨n, l₁, l₂, hlive, herase⟩ := live_erase hp
  rcases h with hfresh | ⟨F, hvalid⟩
  · rw [hfresh.live] at hlive
    simp at hlive
  · have hle : HEADER ≤ p := (hvalid.usable (p, n) (by rw [hlive]; simp)).1
    have hinv := hvalid.inv
    have hperm : (F ++ σ.headers).Perm (F ++ (p - HEADER) :: (l₁ ++ l₂).map fun b => b.1 - HEADER) := by
      rw [headers, hlive, List.map_append, List.map_cons, List.map_append]
      exact List.Perm.append_left F List.perm_middle
    have hinv' : σ.heap.Inv F ((p - HEADER) :: (l₁ ++ l₂).map fun b => b.1 - HEADER) :=
      ⟨hinv.blocks.perm hperm, hinv.first, hinv.linked, hinv.gaps, hinv.freep⟩
    obtain ⟨h', F', hfree, hres, -, -, hkeep⟩ := hinv'.free
    rw [Nat.sub_add_cancel hle] at hfree
    rw [herase]
    exact ⟨h', F', hfree, hres, hkeep⟩

theorem Inv.free (h : σ.Inv) (hstep : σ.step (.free p) = some τ) : τ.Inv := by
  unfold Program.step at hstep
  dsimp only at hstep
  split at hstep
  · rename_i hp
    obtain ⟨h', F', hfree, hinv, hkeep⟩ := free_returns h hp
    rw [hfree] at hstep
    cases hstep
    rcases h with hfresh | ⟨F, hvalid⟩
    · rw [hfresh.live] at hp
      cases hp
    · refine .inr ⟨F', hinv, fun b hb => ?_⟩
      exact hvalid.keeps (List.mem_of_mem_eraseP hb) (hkeep _ (List.mem_map_of_mem hb))
  · cases hstep

/-! ### Writes -/

/-- A byte of a block that is not in its header. -/
theorem Valid.payload (h : σ.Valid F) {b : ℕ × UInt32} (hb : b ∈ σ.live) (hx : b.1 ≤ x)
    (hx' : x < b.1 + b.2.toNat) {c : ℕ} (hc : c ∈ F ++ σ.headers) : x < c ∨ c + HEADER ≤ x := by
  obtain ⟨hle, hstop⟩ := h.usable b hb
  have hmem : b.1 - HEADER ∈ σ.headers := List.mem_map_of_mem hb
  obtain ⟨hall, -, hne⟩ := h.inv.allocated hmem
  rcases eq_or_ne c (b.1 - HEADER) with rfl | hcb
  · omega
  · refine h.inv.blocks.notHeader hall hc hcb ⟨?_, ?_⟩ hne
    · show b.1 - HEADER ≤ x
      omega
    · show x < σ.heap.stop (b.1 - HEADER)
      omega

theorem Inv.write (h : σ.Inv) {v : UInt8} (hstep : σ.step (.write x v) = some τ) : τ.Inv := by
  unfold Program.step at hstep
  dsimp only at hstep
  obtain ⟨hany, rfl⟩ := of_guard hstep
  obtain ⟨b, hb, hbx⟩ := List.any_eq_true.mp hany
  obtain ⟨hx, hx'⟩ := of_decide_eq_true hbx
  rcases h with hfresh | ⟨F, hvalid⟩
  · rw [hfresh.live] at hb
    cases hb
  · obtain ⟨h', hh'⟩ : ∃ h', h' = { σ.heap with mem := Function.update σ.heap.mem x v } := ⟨_, rfl⟩
    rw [← hh']
    have hmem : ∀ c ∈ F ++ σ.headers, ∀ z, c ≤ z → z < c + HEADER → h'.mem z = σ.heap.mem z := by
      intro c hc z hz hz'
      have := hvalid.payload hb hx hx' hc
      rw [hh']
      refine Function.update_of_ne ?_ _ _
      omega
    have hsize : ∀ c ∈ F ++ σ.headers, h'.size c = σ.heap.size c := by
      intro c hc
      rw [Heap.size, Heap.size, ByteMem.readLE_congr fun z hz hz' => hmem c hc z (by omega) ?_]
      unfold HEADER
      omega
    have hptr : ∀ c ∈ F ++ σ.headers, h'.ptr c = σ.heap.ptr c := by
      intro c hc
      rw [Heap.ptr, Heap.ptr, ByteMem.readLE_congr fun z hz hz' => hmem c hc z hz ?_]
      unfold HEADER
      omega
    have hvars : SameVars σ.heap h' := by
      rw [hh']
      exact ⟨rfl, rfl, rfl, rfl⟩
    have hfreep : h'.freep = σ.heap.freep := by rw [hh']
    refine .inr ⟨F, hvalid.inv.congr hvars hfreep hsize fun c hc => hptr c (List.mem_append_left _ hc), ?_⟩
    intro c hc
    have hhead : c.1 - HEADER ∈ F ++ σ.headers := List.mem_append_right F (List.mem_map_of_mem hc)
    show HEADER ≤ c.1 ∧ c.1 + c.2.toNat ≤ h'.stop (c.1 - HEADER)
    rw [stop_congr (hsize _ hhead)]
    exact hvalid.usable c hc

/-! ### Runs -/

theorem Inv.step (h : σ.Inv) {c : HeapCall} (hs : σ.Small c) (hstep : σ.step c = some τ) : τ.Inv := by
  cases c with
  | malloc n answers => exact h.malloc hs hstep
  | free p => exact h.free hstep
  | write x v => exact h.write hstep

variable {mem : ℕ → UInt8} {base top : ℕ} {cs : List HeapCall}

theorem inv_of_run (hbase : base ≠ 0) (hle : base + HEADER ≤ top) (htop : top ≤ 2 ^ 36)
    (hall : AllSteps Program.step (fun σ c _ => σ.Small c) (start mem base top) cs)
    (hrun : runFrom Program.step (start mem base top) cs = some σ) : σ.Inv := by
  have hstep : ∀ σ c τ, Inv σ → Program.step σ c = some τ → Small σ c → Inv τ :=
    fun σ c τ hi hstep hs => hi.step hs hstep
  exact runFrom_invariant_of_allSteps (I := Inv) hstep (.inl ⟨rfl, rfl, rfl, hbase, hle, htop⟩) hall hrun

/-- The blocks that are there before and after a call keep their bytes. -/
theorem Inv.keeps (h : σ.Inv) {c : HeapCall} (hs : σ.Small c) (hstep : σ.step c = some τ)
    (hcall : ∀ x v, c ≠ .write x v) {b : ℕ × UInt32} (hb : b ∈ σ.live) (hb' : b ∈ τ.live)
    (hz : x ∈ Tile.points (σ.heap.block (b.1 - HEADER))) : τ.heap.mem x = σ.heap.mem x := by
  unfold Program.step at hstep
  cases c with
  | malloc n answers =>
    obtain ⟨h', q, hres, ⟨-, hkeep, -⟩, -⟩ := malloc_returns h hs
    dsimp only at hstep
    rw [hres] at hstep
    cases hstep
    exact hkeep _ (List.mem_map_of_mem hb) x hz
  | free p =>
    dsimp only at hstep
    split at hstep
    · rename_i hp
      obtain ⟨h', F', hfree, -, hkeep⟩ := free_returns h hp
      rw [hfree] at hstep
      cases hstep
      exact hkeep _ (List.mem_map_of_mem hb') x hz
    · cases hstep
  | write x v => exact absurd rfl (hcall x v)

/-- In every run in which the requests are small, between any two calls: the free list is a circle in
the order of the addresses, with no two free blocks touching, and its blocks and those of the program
tile the memory that `sbrk` returned; every block has the bytes that were asked for; every call of
`malloc`, and of `free` on a block the program has, returns; and it leaves the blocks in use as they
are. -/
theorem heap_sound (hbase : base ≠ 0) (hle : base + HEADER ≤ top) (htop : top ≤ 2 ^ 36)
    (hall : AllSteps Program.step (fun σ c _ => σ.Small c) (start mem base top) cs)
    (hrun : runFrom Program.step (start mem base top) cs = some σ) :
    (σ.heap.freep = 0 ∧ σ.live = [] ∧ σ.heap.regions = [] ∨
      ∃ F, F.head? = some σ.heap.base ∧ Linked σ.heap.ptr (F ++ [σ.heap.base]) ∧ F.Pairwise (· < ·) ∧
        F.IsChain (fun a b => σ.heap.stop a < b) ∧ σ.heap.freep ∈ F ∧
        Tiles ((F ++ σ.headers).map σ.heap.block) σ.heap.memory) ∧
    (∀ b ∈ σ.live, HEADER ≤ b.1 ∧ b.1 + b.2.toNat ≤ σ.heap.stop (b.1 - HEADER)) ∧
    (∀ n answers, σ.Small (.malloc n answers) → ∃ τ, σ.step (.malloc n answers) = some τ) ∧
    (∀ b ∈ σ.live, ∃ τ, σ.step (.free b.1) = some τ) ∧
    ∀ c τ, σ.Small c → σ.step c = some τ → (∀ x v, c ≠ .write x v) → ∀ b ∈ σ.live, b ∈ τ.live →
      ∀ x ∈ Tile.points (σ.heap.block (b.1 - HEADER)), τ.heap.mem x = σ.heap.mem x := by
  have h := inv_of_run hbase hle htop hall hrun
  refine ⟨?_, ?_, ?_, ?_, fun c τ hs hstep hcall b hb hb' x hx => h.keeps hs hstep hcall hb hb' hx⟩
  · rcases h with hfresh | ⟨F, hvalid⟩
    · exact .inl ⟨hfresh.freep, hfresh.live, hfresh.regions⟩
    · exact .inr ⟨F, hvalid.inv.first, hvalid.inv.linked, hvalid.inv.sorted, hvalid.inv.gaps,
        hvalid.inv.freep, hvalid.inv.blocks.tiles⟩
  · rcases h with hfresh | ⟨F, hvalid⟩
    · rw [hfresh.live]
      exact nofun
    · exact hvalid.usable
  · intro n answers hs
    obtain ⟨h', q, hres, -⟩ := malloc_returns h hs
    rw [Program.step, hres]
    exact ⟨_, rfl⟩
  · intro b hb
    have hp : (σ.live.map Prod.fst).contains b.1 = true :=
      List.contains_iff_mem.mpr (List.mem_map_of_mem hb)
    obtain ⟨h', F', hfree, -⟩ := free_returns h hp
    rw [Program.step, if_pos hp, hfree]
    exact ⟨_, rfl⟩

/-- Two blocks, of which the first one is freed and its memory used again. -/
def reuse : List HeapCall :=
  [.malloc 100 [some 0], .malloc 40 [], .write 73552 7, .free 73616, .malloc 24 []]

theorem reuse_small :
    AllSteps Program.step (fun σ c _ => σ.Small c) (start (fun _ => 0) 4096 8192) reuse := by
  intro σ _
  refine ⟨⟨by decide, ?_⟩, ?_⟩
  · intro gap rest hans
    obtain ⟨rfl, -⟩ : 0 = gap ∧ [] = rest := by simpa using hans
    decide
  · refine (allSteps_of_forall (A := fun c => ∀ σ : Program, σ.Small c) ?_).mono fun σ c τ h => h σ
    intro c hc σ
    simp only [List.mem_cons, List.not_mem_nil, or_false] at hc
    rcases hc with rfl | rfl | rfl | rfl
    · exact ⟨by decide, nofun⟩
    · exact trivial
    · exact trivial
    · exact ⟨by decide, nofun⟩

theorem heap_sound_reuse : ∃ σ,
    runFrom Program.step (start (fun _ => 0) 4096 8192) reuse = some σ ∧
      σ.live = [(73696, 24), (73552, 40)] ∧
      ∀ b ∈ σ.live, HEADER ≤ b.1 ∧ b.1 + b.2.toNat ≤ σ.heap.stop (b.1 - HEADER) := by
  have hrun : ((runFrom Program.step (start (fun _ => 0) 4096 8192) reuse).any
      fun σ => decide (σ.live = [(73696, 24), (73552, 40)])) = true := by
    decide +kernel
  obtain ⟨σ, hσ, hlive⟩ := (Option.any_eq_true _ _).mp hrun
  exact ⟨σ, hσ, of_decide_eq_true hlive,
    (heap_sound (by decide) (by decide) (by decide) reuse_small hσ).2.1⟩

/-- A request of `2 ^ 32 - 1` bytes is one of `2 ^ 32 + 16` with its header, for which `sbrk` is called
with 16: the block that `malloc` returns has no byte in the memory that `sbrk` returned. -/
theorem malloc_beyond_sbrk : ∃ σ,
    runFrom Program.step (start (fun _ => 0) 4096 8192) [.malloc 0xFFFFFFFF [some 0]] = some σ ∧
      σ.live = [(8208, 0xFFFFFFFF)] ∧ σ.heap.regions = [(8192, 16)] ∧ 8208 ∉ σ.heap.memory := by
  have hrun : ((runFrom Program.step (start (fun _ => 0) 4096 8192) [.malloc 0xFFFFFFFF [some 0]]).any
      fun σ => decide (σ.live = [(8208, 0xFFFFFFFF)]) && decide (σ.heap.regions = [(8192, 16)])) = true := by
    decide +kernel
  obtain ⟨σ, hσ, hall⟩ := (Option.any_eq_true _ _).mp hrun
  rw [Bool.and_eq_true] at hall
  have hreg : σ.heap.regions = [(8192, 16)] := of_decide_eq_true hall.2
  refine ⟨σ, hσ, of_decide_eq_true hall.1, hreg, ?_⟩
  rintro ⟨r, hr, -, hlt⟩
  rw [hreg] at hr
  obtain rfl := List.mem_singleton.mp hr
  exact absurd hlt (by decide)

end Xv6.Program
