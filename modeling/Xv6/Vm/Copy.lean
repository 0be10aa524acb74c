import Xv6.Vm.Bytes
import Xv6.Vm.PageTable

/-! # Copying between the kernel and user space

`copyin`, `copyout` and `copyinstr` of `kernel/vm.c` go through user memory page by page. They agree with a
memory of bytes at virtual addresses, whatever address and length a user passes. -/

namespace Xv6.Vm

/-! ### The functions -/

/-- How much of a page from `va` on is copied: `n = PGSIZE - (va - va0); if(n > len) n = len`. -/
def chunk (va len : UInt64) : UInt64 :=
  let n := 4096 - (va - PGROUNDDOWN va)
  if len < n then len else n

/-- The loop of `copyout`. The first argument is at least `len`: every round copies a byte. -/
def copyoutLoop (pagetable : UInt64) : ℕ → UInt64 → UInt64 → UInt64 → VmM Int
  | 0, _, _, _ => return 0
  | k + 1, dstva, src, len => do
    if len = 0 then return 0
    let va0 := PGROUNDDOWN dstva
    if MAXVA ≤ va0.toNat then return -1
    match ← walk pagetable va0 false with
    | none => return -1
    | some pte =>
      let e ← load pte
      if !valid e ∨ e &&& PTE_U = 0 ∨ e &&& PTE_W = 0 then return -1
      let pa0 := PTE2PA e
      let n := chunk dstva len
      memmove (pa0 + (dstva - va0)) src n.toNat
      copyoutLoop pagetable k (va0 + 4096) (src + n) (len - n)

/-- Copy `len` bytes from `src` to virtual address `dstva` in a given page table. -/
def copyout (pagetable dstva src len : UInt64) : VmM Int := copyoutLoop pagetable len.toNat dstva src len

/-- The loop of `copyin`, with the same count. -/
def copyinLoop (pagetable : UInt64) : ℕ → UInt64 → UInt64 → UInt64 → VmM Int
  | 0, _, _, _ => return 0
  | k + 1, dst, srcva, len => do
    if len = 0 then return 0
    let va0 := PGROUNDDOWN srcva
    match ← walkaddr pagetable va0 with
    | none => return -1
    | some pa0 =>
      if pa0 = 0 then return -1
      let n := chunk srcva len
      memmove dst (pa0 + (srcva - va0)) n.toNat
      copyinLoop pagetable k (dst + n) (va0 + 4096) (len - n)

/-- Copy `len` bytes to `dst` from virtual address `srcva` in a given page table. -/
def copyin (pagetable dst srcva len : UInt64) : VmM Int := copyinLoop pagetable len.toNat dst srcva len

/-! ### User memory -/

/-- The byte at the virtual address `x` is in a page with the entry `e`, which users may access. -/
structure UserAt (s : Phys) (root : UInt64) (x : ℕ) (e : UInt64) : Prop where
  lt : x < MAXVA
  lookup : lookup s root (PGROUNDDOWN (UInt64.ofNat x)) = some e
  user : e &&& PTE_U ≠ 0

/-- The physical address of the byte at `x` in the page of the entry `e`. -/
def physAt (e : UInt64) (x : ℕ) : UInt64 := addr (PTE2PA e) (x % 4096)

/-- Users may read the byte at `x`. -/
def Readable (s : Phys) (root : UInt64) (x : ℕ) : Prop := ∃ e, UserAt s root x e

/-- Users may write the byte at `x`. -/
def Writable (s : Phys) (root : UInt64) (x : ℕ) : Prop := ∃ e, UserAt s root x e ∧ e &&& PTE_W ≠ 0

variable {s t u : Phys} {root va src dst buf len e : UInt64} {x y i k : ℕ}

theorem UserAt.congr (h : UserAt s root x e) (hxy : y / 4096 = x / 4096) : UserAt s root y e := by
  have hx := h.lt
  rw [MAXVA_eq] at hx
  have hpage : PGROUNDDOWN (UInt64.ofNat y) = PGROUNDDOWN (UInt64.ofNat x) := by
    apply UInt64.toNat_inj.mp
    rw [toNat_PGROUNDDOWN, toNat_PGROUNDDOWN, UInt64.toNat_ofNat', UInt64.toNat_ofNat']
    omega
  refine ⟨?_, hpage ▸ h.lookup, h.user⟩
  rw [MAXVA_eq]
  omega

theorem UserAt.unique {e' : UInt64} (h : UserAt s root x e) (h' : UserAt s root x e') : e = e' :=
  Option.some.inj (h.lookup.symm.trans h'.lookup)

theorem userAt_frame (h : ∀ p ∈ s.tables root, t.word p = s.word p) :
    UserAt t root x e ↔ UserAt s root x e :=
  ⟨fun hx => ⟨hx.lt, (lookup_frame h _).symm.trans hx.lookup, hx.user⟩,
    fun hx => ⟨hx.lt, (lookup_frame h _).trans hx.lookup, hx.user⟩⟩

/-- The pages that users may access are pages of their own: no two virtual pages share one, none is at
address zero, and none is a page of the page table. -/
structure Separate (s : Phys) (root : UInt64) : Prop where
  injective : ∀ x y e e', UserAt s root x e → UserAt s root y e' → PTE2PA e = PTE2PA e' → x / 4096 = y / 4096
  ne_zero : ∀ x e, UserAt s root x e → PTE2PA e ≠ 0
  notTable : ∀ x e, UserAt s root x e → PTE2PA e ∉ s.tables root

/-- A buffer of the kernel: none of its bytes is in a page of the user or of the page table. -/
structure KernelBuffer (s : Phys) (root buf : UInt64) (n : ℕ) : Prop where
  notUser : ∀ i < n, ∀ x e, UserAt s root x e → PGROUNDDOWN (addr buf i) ≠ PTE2PA e
  notTable : ∀ i < n, PGROUNDDOWN (addr buf i) ∉ s.tables root

theorem Separate.frame (h : Separate s root) (hword : ∀ p ∈ s.tables root, t.word p = s.word p) :
    Separate t root where
  injective := fun x y e e' hx hy => h.injective x y e e' ((userAt_frame hword).mp hx) ((userAt_frame hword).mp hy)
  ne_zero := fun x e hx => h.ne_zero x e ((userAt_frame hword).mp hx)
  notTable := fun x e hx => tables_frame hword ▸ h.notTable x e ((userAt_frame hword).mp hx)

theorem KernelBuffer.frame {n : ℕ} (h : KernelBuffer s root buf n)
    (hword : ∀ p ∈ s.tables root, t.word p = s.word p) : KernelBuffer t root buf n where
  notUser := fun i hi x e hx => h.notUser i hi x e ((userAt_frame hword).mp hx)
  notTable := fun i hi => tables_frame hword ▸ h.notTable i hi

theorem KernelBuffer.drop {n : ℕ} (h : KernelBuffer s root buf n) {m : ℕ} (hm : k + m ≤ n) :
    KernelBuffer s root (addr buf k) m where
  notUser := fun i hi => addr_addr buf k i ▸ h.notUser (k + i) (by omega)
  notTable := fun i hi => addr_addr buf k i ▸ h.notTable (k + i) (by omega)

/-! ### Pages -/

theorem PGROUNDDOWN_physAt (e : UInt64) (x : ℕ) : PGROUNDDOWN (physAt e x) = PTE2PA e :=
  PGROUNDDOWN_addr (aligned_PTE2PA e) (Nat.mod_lt _ (by decide))

/-- Different virtual addresses have different physical ones. -/
theorem Separate.physAt_injective {e' : UInt64} (h : Separate s root) (hx : UserAt s root x e)
    (hy : UserAt s root y e') (heq : physAt e x = physAt e' y) : x = y := by
  have hpage := congrArg PGROUNDDOWN heq
  rw [PGROUNDDOWN_physAt, PGROUNDDOWN_physAt] at hpage
  have hdiv := h.injective x y e e' hx hy hpage
  rw [physAt, physAt, hpage] at heq
  have hmod := addr_injective (by omega) (by omega) heq
  omega

/-- The bytes of a page from `x` on. -/
theorem addr_physAt (h : (x + i) / 4096 = x / 4096) : addr (physAt e x) i = physAt e (x + i) := by
  rw [physAt, addr_addr, physAt]
  congr 1
  omega

theorem physAt_toNat (e va : UInt64) : PTE2PA e + (va - PGROUNDDOWN va) = physAt e va.toNat := by
  rw [physAt, addr, ← toNat_sub_PGROUNDDOWN, UInt64.ofNat_toNat]

theorem toNat_chunk (va len : UInt64) : (chunk va len).toNat = min (4096 - va.toNat % 4096) len.toNat := by
  have hoff := toNat_sub_PGROUNDDOWN va
  have hn : (4096 - (va - PGROUNDDOWN va)).toNat = 4096 - va.toNat % 4096 := by
    rw [UInt64.toNat_sub, hoff, show (4096 : UInt64).toNat = 4096 from rfl]
    omega
  unfold chunk
  dsimp only
  split
  · rename_i hlt
    rw [UInt64.lt_iff_toNat_lt, hn] at hlt
    omega
  · rename_i hge
    rw [UInt64.lt_iff_toNat_lt, hn] at hge
    omega

/-- What is known of a round: its bytes are in one page, and the rest begins at the next page. -/
structure Round (va len n : UInt64) : Prop where
  pos : len ≠ 0 → 0 < n.toNat
  le : n.toNat ≤ len.toNat
  lt : n.toNat < 2 ^ 64
  page : ∀ i < n.toNat, (va.toNat + i) / 4096 = va.toNat / 4096
  rest : (len - n).toNat = len.toNat - n.toNat
  next : va.toNat < MAXVA → ∀ i < (len - n).toNat,
    (PGROUNDDOWN va + 4096).toNat + i = va.toNat + (n.toNat + i)

theorem chunk_round (va len : UInt64) : Round va len (chunk va len) := by
  have hn := toNat_chunk va len
  have hrest : (len - chunk va len).toNat = len.toNat - (chunk va len).toNat := by
    have := len.toNat_lt
    rw [UInt64.toNat_sub]
    omega
  refine ⟨fun h0 => ?_, by omega, UInt64.toNat_lt _, fun i hi => by omega, hrest, fun hlt i hi => ?_⟩
  · have : len.toNat ≠ 0 := fun h => h0 (UInt64.toNat_inj.mp h)
    omega
  · have hdown := toNat_PGROUNDDOWN va
    have hpage := toNat_add_page (a := PGROUNDDOWN va) (by omega)
    omega

/-! ### `copyout` -/

/-- Only bytes that users may write have changed, at `va` up to `va + n`. -/
structure WritesOnly (s t : Phys) (root : UInt64) (va n : ℕ) : Prop where
  byte : ∀ a, t.byte a ≠ s.byte a → ∃ i < n, ∃ e, UserAt s root (va + i) e ∧ e &&& PTE_W ≠ 0 ∧
    a = physAt e (va + i)
  word : ∀ p, t.word p ≠ s.word p → ∃ i < n, ∃ e, UserAt s root (va + i) e ∧ e &&& PTE_W ≠ 0 ∧ p = PTE2PA e
  freelist : t.freelist = s.freelist
  kend : t.kend = s.kend

/-- The bytes at the virtual addresses from `va` on are those at `src`. -/
def Stored (s t : Phys) (root : UInt64) (va : ℕ) (src : UInt64) (n : ℕ) : Prop :=
  ∀ i < n, ∀ e, UserAt s root (va + i) e → t.byte (physAt e (va + i)) = s.byte (addr src i)

/-- How `copyout` ends. -/
def CopyoutEnd (s t : Phys) (root : UInt64) (va : ℕ) (src : UInt64) (n : ℕ) (r : Int) : Prop :=
  r = 0 ∧ (∀ i < n, Writable s root (va + i)) ∧ Stored s t root va src n ∨
    r = -1 ∧ ∃ i < n, ¬ Writable s root (va + i)

theorem WritesOnly.refl (s : Phys) (root : UInt64) (va n : ℕ) : WritesOnly s s root va n :=
  ⟨fun _ h => absurd rfl h, fun _ h => absurd rfl h, rfl, rfl⟩

/-- No page of the page table has changed. -/
theorem WritesOnly.tables {n : ℕ} (h : WritesOnly s t root x n) (hsep : Separate s root) :
    ∀ p ∈ s.tables root, t.word p = s.word p := by
  intro p hp
  by_contra hne
  obtain ⟨i, -, e, he, -, rfl⟩ := h.word p hne
  exact hsep.notTable _ e he hp

/-- The kernel's buffer has not changed. -/
theorem WritesOnly.buffer {n m : ℕ} (h : WritesOnly s t root x n) (hbuf : KernelBuffer s root buf m) (hi : i < m) :
    t.byte (addr buf i) = s.byte (addr buf i) := by
  refine Phys.byte_congr ?_
  by_contra hne
  obtain ⟨j, -, e, he, -, hpage⟩ := h.word _ hne
  exact hbuf.notUser i hi _ e he hpage

section Rounds

variable {n m : ℕ} (hsep : Separate s root)

include hsep

theorem WritesOnly.trans (h : WritesOnly s u root x n) (h' : WritesOnly u t root y m)
    (hpos : ∀ i < m, y + i = x + (n + i)) : WritesOnly s t root x (n + m) := by
  have hframe : ∀ z e, UserAt u root z e → UserAt s root z e :=
    fun z e => (userAt_frame (h.tables hsep)).mp
  constructor
  case byte =>
    intro a hne
    by_cases hu : t.byte a = u.byte a
    · obtain ⟨i, hi, e, he, hw, ha⟩ := h.byte a fun heq => hne (hu.trans heq)
      exact ⟨i, by omega, e, he, hw, ha⟩
    · obtain ⟨i, hi, e, he, hw, ha⟩ := h'.byte a hu
      rw [hpos i hi] at he ha
      exact ⟨n + i, by omega, e, hframe _ e he, hw, ha⟩
  case word =>
    intro p hne
    by_cases hu : t.word p = u.word p
    · obtain ⟨i, hi, e, he, hw, hp⟩ := h.word p fun heq => hne (hu.trans heq)
      exact ⟨i, by omega, e, he, hw, hp⟩
    · obtain ⟨i, hi, e, he, hw, hp⟩ := h'.word p hu
      rw [hpos i hi] at he
      exact ⟨n + i, by omega, e, hframe _ e he, hw, hp⟩
  case freelist => exact h'.freelist.trans h.freelist
  case kend => exact h'.kend.trans h.kend

theorem Stored.trans (h : WritesOnly s u root x n) (hst : Stored s u root x src n)
    (h' : WritesOnly u t root y m) (hst' : Stored u t root y (addr src n) m)
    (hbuf : KernelBuffer s root src (n + m)) (hpos : ∀ i < m, y + i = x + (n + i)) :
    Stored s t root x src (n + m) := by
  have hframe : ∀ z e, UserAt u root z e ↔ UserAt s root z e := fun z e => userAt_frame (h.tables hsep)
  intro i hi e he
  rcases Nat.lt_or_ge i n with hin | hge
  · -- the later pages are other pages
    have hkeep : t.byte (physAt e (x + i)) = u.byte (physAt e (x + i)) := by
      by_contra hne
      obtain ⟨j, hj, e', he', -, heq⟩ := h'.byte _ hne
      rw [hpos j hj] at he' heq
      have := hsep.physAt_injective he ((hframe _ e').mp he') heq
      omega
    rw [hkeep, hst i hin e he]
  · obtain ⟨j, rfl⟩ : ∃ j, i = n + j := ⟨i - n, by omega⟩
    have hj : j < m := by omega
    have hy := hst' j hj e (by rw [hpos j hj]; exact (hframe _ e).mpr he)
    rw [hpos j hj, addr_addr] at hy
    rw [hy, h.buffer hbuf hi]

end Rounds

/-- One round of `copyout`. -/
theorem copyout_round {n : UInt64} (hbuf : KernelBuffer s root src len.toNat)
    (hr : Round va len n) (he : UserAt s root va.toNat e) (hw : e &&& PTE_W ≠ 0) :
    WritesOnly s (s.moved (physAt e va.toNat) src n.toNat) root va.toNat n.toNat ∧
      Stored s (s.moved (physAt e va.toNat) src n.toNat) root va.toNat src n.toNat := by
  have haddr : ∀ i < n.toNat, addr (physAt e va.toNat) i = physAt e (va.toNat + i) :=
    fun i hi => addr_physAt (hr.page i hi)
  have huser : ∀ i < n.toNat, UserAt s root (va.toNat + i) e := fun i hi => he.congr (hr.page i hi)
  have hle := hr.le
  have hcopied : Phys.Copied s (s.moved (physAt e va.toNat) src n.toNat) (physAt e va.toNat) src n.toNat := by
    refine Phys.moved_copied hr.lt fun i hi j hj heq => ?_
    have hpage := congrArg PGROUNDDOWN heq
    rw [haddr i hi, PGROUNDDOWN_physAt] at hpage
    exact hbuf.notUser j (by omega) _ e he hpage.symm
  refine ⟨⟨?_, ?_, hcopied.freelist, hcopied.kend⟩, ?_⟩
  · intro a hne
    by_contra hnone
    refine hne (hcopied.frame a fun i hi heq => hnone ?_)
    exact ⟨i, hi, e, huser i hi, hw, heq.trans (haddr i hi)⟩
  · intro p hne
    by_contra hnone
    refine hne (hcopied.word p fun i hi heq => hnone ?_)
    rw [haddr i hi, PGROUNDDOWN_physAt] at heq
    exact ⟨i, hi, e, huser i hi, hw, heq⟩
  · intro i hi e' he'
    obtain rfl := (huser i hi).unique he'
    rw [← haddr i hi]
    exact hcopied.byte i hi

/-- What the walk to a page finds is what `lookup` says. -/
theorem lookup_walk (hlt : va.toNat < MAXVA) :
    s.node root (pathFrom va 2) = none ∧ lookup s root va = none ∨
      ∃ p, s.node root (pathFrom va 2) = some p ∧
        lookup s root va = if valid (s.word p (PX 0 va)) then some (s.word p (PX 0 va)) else none := by
  rw [lookup_eq s root hlt]
  cases hp : s.node root (pathFrom va 2) with
  | none => exact .inl ⟨rfl, rfl⟩
  | some p => exact .inr ⟨p, rfl, rfl⟩

theorem userAt_iff (va : UInt64) :
    UserAt s root va.toNat e ↔
      (PGROUNDDOWN va).toNat < MAXVA ∧ lookup s root (PGROUNDDOWN va) = some e ∧ e &&& PTE_U ≠ 0 := by
  have hdown := toNat_PGROUNDDOWN va
  constructor
  · intro h
    have hlt := h.lt
    have hlookup := h.lookup
    rw [UInt64.ofNat_toNat] at hlookup
    exact ⟨by omega, hlookup, h.user⟩
  · rintro ⟨hlt, hlookup, huser⟩
    refine ⟨?_, by rw [UInt64.ofNat_toNat]; exact hlookup, huser⟩
    rw [MAXVA_eq] at hlt ⊢
    omega

theorem copyoutLoop_spec (va : UInt64) (hsep : Separate s root) (hbuf : KernelBuffer s root src len.toNat)
    (hk : len.toNat ≤ k) :
    Wp (copyoutLoop root k va src len) (fun _ => False)
      (fun r t => WritesOnly s t root va.toNat len.toNat ∧ CopyoutEnd s t root va.toNat src len.toNat r) s := by
  induction k generalizing s va src len with
  | zero =>
    rw [copyoutLoop, wp_pure]
    have hlen : len.toNat = 0 := by omega
    rw [hlen]
    exact ⟨.refl s root _ _, .inl ⟨rfl, nofun, nofun⟩⟩
  | succ k ih =>
    have hfail : ¬ Writable s root va.toNat → len ≠ 0 →
        CopyoutEnd s s root va.toNat src len.toNat (-1) := by
      intro hnot h0
      have : len.toNat ≠ 0 := fun h => h0 (UInt64.toNat_inj.mp h)
      exact .inr ⟨rfl, 0, by omega, hnot⟩
    rw [copyoutLoop]
    simp only [wp_bind, wp_ite, wp_pure]
    refine ⟨fun h0 => ?_, fun h0 => ⟨fun hge => ?_, fun hlt => ?_⟩⟩
    · rw [h0]
      exact ⟨.refl s root _ _, .inl ⟨rfl, nofun, nofun⟩⟩
    · refine ⟨.refl s root _ _, hfail ?_ h0⟩
      rintro ⟨e, he, -⟩
      exact absurd ((userAt_iff va).mp he).1 (by omega)
    · have hlt : (PGROUNDDOWN va).toNat < MAXVA := by omega
      rw [wp_walk_false hlt]
      rcases lookup_walk hlt with ⟨hnode, hnone⟩ | ⟨p, hnode, hsome⟩
      · rw [hnode]
        refine ⟨.refl s root _ _, hfail ?_ h0⟩
        rintro ⟨e, he, -⟩
        rw [((userAt_iff va).mp he).2.1] at hnone
        cases hnone
      · rw [hnode]
        simp only [Option.map_some, load, wp_bind, wp_get, wp_pure, wp_ite]
        refine ⟨fun hbad => ⟨.refl s root _ _, hfail ?_ h0⟩, fun hgood => ?_⟩
        · rintro ⟨e, he, hw⟩
          obtain ⟨-, hlookup, huser⟩ := (userAt_iff va).mp he
          obtain ⟨hv, heq⟩ := Option.ite_none_right_eq_some.mp (hsome.symm.trans hlookup)
          cases heq
          rcases hbad with hbad | hbad | hbad
          · rw [hv] at hbad
            cases hbad
          · exact huser hbad
          · exact hw hbad
        · obtain ⟨hv, huser, hw⟩ := not_or.mp hgood |>.imp_right not_or.mp
          rw [if_pos (by simpa using hv)] at hsome
          obtain ⟨e, hword⟩ : ∃ e, s.word p (PX 0 (PGROUNDDOWN va)) = e := ⟨_, rfl⟩
          rw [hword] at hsome huser hw ⊢
          have he : UserAt s root va.toNat e := (userAt_iff va).mpr ⟨hlt, hsome, huser⟩
          have hround := chunk_round va len
          obtain ⟨honly, hstored⟩ := copyout_round hbuf hround he hw
          have hwords := honly.tables hsep
          have hrest := hround.rest
          have hle := hround.le
          have hpos := hround.pos h0
          have hnext := hround.next he.lt
          have hlen : (chunk va len).toNat + (len - chunk va len).toNat = len.toNat := by omega
          rw [memmove, wp_modify, physAt_toNat]
          have hsrc : src + chunk va len = addr src (chunk va len).toNat := by
            rw [addr, UInt64.ofNat_toNat]
          rw [hsrc]
          refine (ih _ (hsep.frame hwords) ((hbuf.drop hlen.le).frame hwords) (by omega)).mono ?_
          rintro r t ⟨honly', hend⟩
          have htotal := honly.trans hsep honly' hnext
          rw [hlen] at htotal
          refine ⟨htotal, ?_⟩
          have hwritable : ∀ y, Writable (s.moved (physAt e va.toNat) src (chunk va len).toNat) root y ↔
              Writable s root y := fun y => exists_congr fun e => and_congr_left' (userAt_frame hwords)
          rcases hend with ⟨hr, hall, hst⟩ | ⟨hr, i, hi, hnot⟩
          · refine .inl ⟨hr, ?_, ?_⟩
            · intro i hi
              rcases Nat.lt_or_ge i (chunk va len).toNat with hin | hge
              · exact ⟨e, he.congr (hround.page i hin), hw⟩
              · obtain ⟨j, rfl⟩ : ∃ j, i = (chunk va len).toNat + j := ⟨i - (chunk va len).toNat, by omega⟩
                have hj : j < (len - chunk va len).toNat := by omega
                rw [← hnext j hj]
                exact (hwritable _).mp (hall j hj)
            · rw [← hlen] at hbuf ⊢
              exact Stored.trans hsep honly hstored honly' hst hbuf hnext
          · refine .inr ⟨hr, (chunk va len).toNat + i, by omega, ?_⟩
            rw [← hnext i hi]
            exact fun hy => hnot ((hwritable _).mpr hy)

/-! ### `copyin` -/

/-- `walkaddr` in terms of the lookup. -/
theorem wp_walkaddr {E : VmPanic → Prop} {Q : Option UInt64 → Phys → Prop} :
    Wp (walkaddr root va) E Q s ↔
      Q ((lookup s root va).bind fun e => if e &&& PTE_U = 0 then none else some (PTE2PA e)) s := by
  unfold walkaddr
  rcases Nat.lt_or_ge va.toNat MAXVA with hlt | hge
  · rw [if_neg (by omega), wp_bind, wp_walk_false hlt]
    rcases lookup_walk hlt with ⟨hnode, hnone⟩ | ⟨p, hnode, hsome⟩
    · rw [hnode, hnone]
      rfl
    · rw [hnode, hsome]
      simp only [Option.map_some, load, wp_bind, wp_get, wp_pure]
      cases hv : valid (s.word p (PX 0 va)) with
      | false => rfl
      | true =>
        by_cases hu : s.word p (PX 0 va) &&& PTE_U = 0
        · simp [hu, wp_pure]
        · simp [hu, wp_pure]
  · rw [if_pos hge, lookup_of_le s root hge]
    rfl

/-- Only the kernel's buffer has changed. -/
structure BufferOnly (s t : Phys) (dst : UInt64) (n : ℕ) : Prop where
  byte : ∀ a, (∀ i < n, a ≠ addr dst i) → t.byte a = s.byte a
  word : ∀ p, (∀ i < n, p ≠ PGROUNDDOWN (addr dst i)) → t.word p = s.word p
  freelist : t.freelist = s.freelist
  kend : t.kend = s.kend

/-- The buffer holds the bytes at the virtual addresses from `va` on. -/
def Loaded (s t : Phys) (root dst : UInt64) (va n : ℕ) : Prop :=
  ∀ i < n, ∀ e, UserAt s root (va + i) e → t.byte (addr dst i) = s.byte (physAt e (va + i))

/-- How `copyin` ends. -/
def CopyinEnd (s t : Phys) (root dst : UInt64) (va n : ℕ) (r : Int) : Prop :=
  r = 0 ∧ (∀ i < n, Readable s root (va + i)) ∧ Loaded s t root dst va n ∨
    r = -1 ∧ ∃ i < n, ¬ Readable s root (va + i)

theorem BufferOnly.refl (s : Phys) (dst : UInt64) (n : ℕ) : BufferOnly s s dst n :=
  ⟨fun _ _ => rfl, fun _ _ => rfl, rfl, rfl⟩

theorem BufferOnly.trans {n m : ℕ} (h : BufferOnly s u dst n) (h' : BufferOnly u t (addr dst n) m) :
    BufferOnly s t dst (n + m) where
  byte := by
    intro a ha
    rw [h'.byte a fun i hi => by rw [addr_addr]; exact ha (n + i) (by omega),
      h.byte a fun i hi => ha i (by omega)]
  word := by
    intro p hp
    rw [h'.word p fun i hi => by rw [addr_addr]; exact hp (n + i) (by omega),
      h.word p fun i hi => hp i (by omega)]
  freelist := h'.freelist.trans h.freelist
  kend := h'.kend.trans h.kend

theorem BufferOnly.tables {n : ℕ} (h : BufferOnly s t dst n) (hbuf : KernelBuffer s root dst n) :
    ∀ p ∈ s.tables root, t.word p = s.word p := by
  intro p hp
  refine h.word p fun i hi heq => ?_
  exact hbuf.notTable i hi (heq ▸ hp)

/-- The user's memory has not changed. -/
theorem BufferOnly.user {n : ℕ} (h : BufferOnly s t dst n) (hbuf : KernelBuffer s root dst n)
    (he : UserAt s root x e) : t.byte (physAt e x) = s.byte (physAt e x) := by
  refine Phys.byte_congr (h.word _ fun i hi heq => ?_)
  rw [PGROUNDDOWN_physAt] at heq
  exact hbuf.notUser i hi x e he heq.symm

theorem Loaded.trans {n m l : ℕ} (h : BufferOnly s u dst n) (hl : Loaded s u root dst x n)
    (h' : BufferOnly u t (addr dst n) l) (hl' : Loaded u t root (addr dst n) y m)
    (hbuf : KernelBuffer s root dst n) (hml : m ≤ l) (hnl : n + l < 2 ^ 64)
    (hpos : ∀ i < m, y + i = x + (n + i)) : Loaded s t root dst x (n + m) := by
  intro i hi e he
  rcases Nat.lt_or_ge i n with hin | hge
  · -- the bytes that came later went to the rest of the buffer
    have hkeep : t.byte (addr dst i) = u.byte (addr dst i) := by
      refine h'.byte _ fun j hj heq => ?_
      rw [addr_addr] at heq
      have := addr_injective (by omega) (by omega) heq
      omega
    rw [hkeep, hl i hin e he]
  · obtain ⟨j, rfl⟩ : ∃ j, i = n + j := ⟨i - n, by omega⟩
    have hj : j < m := by omega
    have huser : UserAt u root (y + j) e := by
      rw [hpos j hj]
      exact (userAt_frame (h.tables hbuf)).mpr he
    have hy := hl' j hj e huser
    rw [hpos j hj, addr_addr] at hy
    rw [hy, h.user hbuf he]

/-- The bytes of a round are not those of the buffer. -/
theorem KernelBuffer.disjoint {n : UInt64} (hbuf : KernelBuffer s root dst len.toNat) (hr : Round va len n)
    (he : UserAt s root va.toNat e) :
    ∀ i < n.toNat, ∀ j < n.toNat, addr dst i ≠ addr (physAt e va.toNat) j := by
  intro i hi j hj heq
  have hle := hr.le
  have hpage := congrArg PGROUNDDOWN heq
  rw [addr_physAt (hr.page j hj), PGROUNDDOWN_physAt] at hpage
  exact hbuf.notUser i (by omega) _ e he hpage

/-- What a copy into the buffer does, if it comes from one page. -/
theorem loaded_of_copied {n : ℕ} (h : s.Copied t dst (physAt e x) n) (he : UserAt s root x e)
    (hpage : ∀ i < n, (x + i) / 4096 = x / 4096) : BufferOnly s t dst n ∧ Loaded s t root dst x n := by
  refine ⟨⟨h.frame, h.word, h.freelist, h.kend⟩, ?_⟩
  intro i hi e' he'
  obtain rfl := (he.congr (hpage i hi)).unique he'
  rw [← addr_physAt (hpage i hi)]
  exact h.byte i hi

/-- One round of `copyin`. -/
theorem copyin_round {n : UInt64} (hbuf : KernelBuffer s root dst len.toNat) (hr : Round va len n)
    (he : UserAt s root va.toNat e) :
    BufferOnly s (s.moved dst (physAt e va.toNat) n.toNat) dst n.toNat ∧
      Loaded s (s.moved dst (physAt e va.toNat) n.toNat) root dst va.toNat n.toNat :=
  loaded_of_copied (Phys.moved_copied hr.lt (hbuf.disjoint hr he)) he hr.page

/-- A page that users may not read has no address. -/
theorem walkaddr_none (hread : ¬ Readable s root va.toNat) :
    ((lookup s root (PGROUNDDOWN va)).bind fun e => if e &&& PTE_U = 0 then none else some (PTE2PA e)) = none := by
  cases hl : lookup s root (PGROUNDDOWN va) with
  | none => rfl
  | some e =>
    rw [Option.bind_some, if_pos]
    by_contra hu
    exact hread ⟨e, (userAt_iff va).mpr ⟨lt_of_lookup hl, hl, hu⟩⟩

theorem walkaddr_some (he : UserAt s root va.toNat e) :
    ((lookup s root (PGROUNDDOWN va)).bind fun e => if e &&& PTE_U = 0 then none else some (PTE2PA e)) =
      some (PTE2PA e) := by
  obtain ⟨-, hlookup, huser⟩ := (userAt_iff va).mp he
  rw [hlookup, Option.bind_some, if_neg huser]

theorem KernelBuffer.take {n m : ℕ} (h : KernelBuffer s root buf n) (hm : m ≤ n) : KernelBuffer s root buf m where
  notUser := fun i hi => h.notUser i (by omega)
  notTable := fun i hi => h.notTable i (by omega)

theorem copyinLoop_spec (va : UInt64) (hsep : Separate s root) (hbuf : KernelBuffer s root dst len.toNat)
    (hk : len.toNat ≤ k) :
    Wp (copyinLoop root k dst va len) (fun _ => False)
      (fun r t => BufferOnly s t dst len.toNat ∧ CopyinEnd s t root dst va.toNat len.toNat r) s := by
  induction k generalizing s va dst len with
  | zero =>
    rw [copyinLoop, wp_pure]
    have hlen : len.toNat = 0 := by omega
    rw [hlen]
    exact ⟨.refl s dst _, .inl ⟨rfl, nofun, nofun⟩⟩
  | succ k ih =>
    have hfail : ¬ Readable s root va.toNat → len ≠ 0 →
        CopyinEnd s s root dst va.toNat len.toNat (-1) := by
      intro hnot h0
      have : len.toNat ≠ 0 := fun h => h0 (UInt64.toNat_inj.mp h)
      exact .inr ⟨rfl, 0, by omega, hnot⟩
    rw [copyinLoop]
    simp only [wp_bind, wp_ite, wp_pure]
    refine ⟨fun h0 => ?_, fun h0 => ?_⟩
    · rw [h0]
      exact ⟨.refl s dst _, .inl ⟨rfl, nofun, nofun⟩⟩
    · rw [wp_walkaddr]
      by_cases hread : Readable s root va.toNat
      · obtain ⟨e, he⟩ := hread
        rw [walkaddr_some he]
        dsimp only
        rw [if_neg (hsep.ne_zero _ e he), wp_bind, memmove, wp_modify, physAt_toNat]
        have hround := chunk_round va len
        obtain ⟨honly, hloaded⟩ := copyin_round hbuf hround he
        have hrest := hround.rest
        have hle := hround.le
        have hpos := hround.pos h0
        have hnext := hround.next he.lt
        have hlen : (chunk va len).toNat + (len - chunk va len).toNat = len.toNat := by omega
        have hhere := hbuf.take hle
        have hwords := honly.tables hhere
        have hdst : dst + chunk va len = addr dst (chunk va len).toNat := by
          rw [addr, UInt64.ofNat_toNat]
        rw [hdst]
        refine (ih _ (hsep.frame hwords) ((hbuf.drop hlen.le).frame hwords) (by omega)).mono ?_
        rintro r t ⟨honly', hend⟩
        have htotal := honly.trans honly'
        rw [hlen] at htotal
        refine ⟨htotal, ?_⟩
        have hreadable : ∀ y, Readable (s.moved dst (physAt e va.toNat) (chunk va len).toNat) root y ↔
            Readable s root y := fun y => exists_congr fun e => userAt_frame hwords
        rcases hend with ⟨hr, hall, hl⟩ | ⟨hr, i, hi, hnot⟩
        · refine .inl ⟨hr, ?_, ?_⟩
          · intro i hi
            rcases Nat.lt_or_ge i (chunk va len).toNat with hin | hge
            · exact ⟨e, he.congr (hround.page i hin)⟩
            · obtain ⟨j, rfl⟩ : ∃ j, i = (chunk va len).toNat + j := ⟨i - (chunk va len).toNat, by omega⟩
              have hj : j < (len - chunk va len).toNat := by omega
              rw [← hnext j hj]
              exact (hreadable _).mp (hall j hj)
          · have hlt64 := len.toNat_lt
            rw [← hlen] at hlt64 ⊢
            exact Loaded.trans honly hloaded honly' hl hhere le_rfl hlt64 hnext
        · refine .inr ⟨hr, (chunk va len).toNat + i, by omega, ?_⟩
          rw [← hnext i hi]
          exact fun hy => hnot ((hreadable _).mpr hy)
      · rw [walkaddr_none hread]
        exact ⟨.refl s dst _, hfail hread h0⟩

/-! ### Both ways -/

/-- **Copying agrees with a memory of bytes.** Whatever address and length are asked for: `copyin` returns
`0` if users may read all of the bytes, and then the buffer holds them, and `-1` otherwise; `copyout`
returns `0` if users may write all of them, and then they are those of the buffer, and `-1` otherwise; it
changes no byte but those, and what it stored is what `copyin` loads again. -/
theorem copy_agrees (hsep : Separate s root) (hbuf : KernelBuffer s root buf len.toNat) (va : UInt64) :
    (∃ r t, copyin root buf va len s = .ok (r, t) ∧ (r = 0 ∨ r = -1) ∧
      (r = 0 ↔ ∀ i < len.toNat, Readable s root (va.toNat + i)) ∧
      (r = 0 → ∀ i < len.toNat, ∀ e, UserAt s root (va.toNat + i) e →
        t.byte (addr buf i) = s.byte (physAt e (va.toNat + i)))) ∧
    ∃ r t, copyout root va buf len s = .ok (r, t) ∧ (r = 0 ∨ r = -1) ∧
      (r = 0 ↔ ∀ i < len.toNat, Writable s root (va.toNat + i)) ∧
      (r = 0 → ∀ i < len.toNat, ∀ e, UserAt s root (va.toNat + i) e →
        t.byte (physAt e (va.toNat + i)) = s.byte (addr buf i)) ∧
      (∀ a, t.byte a ≠ s.byte a → ∃ i < len.toNat, ∃ e, UserAt s root (va.toNat + i) e ∧
        e &&& PTE_W ≠ 0 ∧ a = physAt e (va.toNat + i)) ∧
      (r = 0 → ∀ buf', KernelBuffer s root buf' len.toNat → ∃ u, copyin root buf' va len t = .ok (0, u) ∧
        ∀ i < len.toNat, u.byte (addr buf' i) = s.byte (addr buf i)) := by
  constructor
  · obtain ⟨r, t, hrun, -, hend⟩ := (copyinLoop_spec va hsep hbuf le_rfl).total
    refine ⟨r, t, hrun, ?_⟩
    rcases hend with ⟨rfl, hall, hloaded⟩ | ⟨rfl, i, hi, hnot⟩
    · exact ⟨.inl rfl, ⟨fun _ => hall, fun _ => rfl⟩, fun _ => hloaded⟩
    · exact ⟨.inr rfl, ⟨nofun, fun hall => absurd (hall i hi) hnot⟩, nofun⟩
  · obtain ⟨r, t, hrun, honly, hend⟩ := (copyoutLoop_spec va hsep hbuf le_rfl).total
    refine ⟨r, t, hrun, ?_⟩
    rcases hend with ⟨rfl, hall, hstored⟩ | ⟨rfl, i, hi, hnot⟩
    · refine ⟨.inl rfl, ⟨fun _ => hall, fun _ => rfl⟩, fun _ => hstored, honly.byte, fun _ buf' hbuf' => ?_⟩
      have hwords := honly.tables hsep
      obtain ⟨r', u, hrun', -, hend'⟩ :=
        (copyinLoop_spec va (hsep.frame hwords) (hbuf'.frame hwords) le_rfl).total
      rcases hend' with ⟨rfl, -, hloaded⟩ | ⟨-, i, hi, hnot⟩
      · refine ⟨u, hrun', fun i hi => ?_⟩
        obtain ⟨e, he, -⟩ := hall i hi
        rw [hloaded i hi e ((userAt_frame hwords).mpr he), hstored i hi e he]
      · obtain ⟨e, he, -⟩ := hall i hi
        exact absurd ⟨e, (userAt_frame hwords).mpr he⟩ hnot
    · exact ⟨.inr rfl, ⟨nofun, fun hall => absurd (hall i hi) hnot⟩, nofun, honly.byte, nofun⟩

/-! ### Two pages -/

/-- A page table with the entries `a` and `b` for the virtual pages 510 and 511. -/
def twoPages (a b : UInt64) : Phys where
  word := fun p i =>
    if p = 0x80001000 then if i = 0 then PA2PTE 0x80002000 ||| PTE_V else 0
    else if p = 0x80002000 then if i = 0 then PA2PTE 0x80003000 ||| PTE_V else 0
    else if p = 0x80003000 then if i = 510 then a else if i = 511 then b else 0
    else 0
  freelist := []
  kend := 0x80000000

section TwoPages

variable {a b p : UInt64} {π : List (Fin 512)}

theorem word_twoPages_root (i : Fin 512) : (twoPages a b).word 0x80001000 i =
    if i = 0 then PA2PTE 0x80002000 ||| PTE_V else 0 := by
  rw [twoPages]
  simp

theorem word_twoPages_middle (i : Fin 512) : (twoPages a b).word 0x80002000 i =
    if i = 0 then PA2PTE 0x80003000 ||| PTE_V else 0 := by
  rw [twoPages]
  simp

theorem word_twoPages_leaf (i : Fin 512) : (twoPages a b).word 0x80003000 i =
    if i = 510 then a else if i = 511 then b else 0 := by
  rw [twoPages]
  simp

theorem child_twoPages_root (i : Fin 512) : child ((twoPages a b).word 0x80001000 i) =
    if i = 0 then some 0x80002000 else none := by
  rw [word_twoPages_root]
  split <;> rfl

theorem child_twoPages_middle (i : Fin 512) : child ((twoPages a b).word 0x80002000 i) =
    if i = 0 then some 0x80003000 else none := by
  rw [word_twoPages_middle]
  split <;> rfl

/-- The page at the end of a path. -/
theorem node_twoPages (i j : Fin 512) : (twoPages a b).node 0x80001000 [i, j] =
    if i = 0 ∧ j = 0 then some 0x80003000 else none := by
  rw [Phys.node, Radix.node, child_twoPages_root]
  by_cases hi : i = 0
  · rw [if_pos hi, Option.bind_some, Radix.node, child_twoPages_middle]
    by_cases hj : j = 0
    · rw [if_pos hj, if_pos ⟨hi, hj⟩]
      rfl
    · rw [if_neg hj, if_neg fun h => hj h.2]
      rfl
  · rw [if_neg hi, if_neg fun h => hi h.1]
    rfl

theorem tables_twoPages (h : p ∈ (twoPages a b).tables 0x80001000) :
    p = 0x80001000 ∨ p = 0x80002000 ∨ p = 0x80003000 := by
  obtain ⟨π, hlen, hp⟩ := h
  match π with
  | [] => exact .inl (Option.some.inj hp).symm
  | [i] =>
    rw [Radix.node, child_twoPages_root] at hp
    split at hp
    · exact .inr (.inl (Option.some.inj hp).symm)
    · cases hp
  | [i, j] =>
    have hnode := (node_twoPages i j).symm.trans hp
    split at hnode
    · exact .inr (.inr (Option.some.inj hnode).symm)
    · cases hnode
  | _ :: _ :: _ :: _ => exact absurd hlen (by simp)

/-- Only the two pages are mapped. -/
theorem userAt_twoPages (h : UserAt (twoPages a b) 0x80001000 x e) :
    x / 4096 = 510 ∧ e = a ∨ x / 4096 = 511 ∧ e = b := by
  have hlt := h.lt
  have hlookup := h.lookup
  rw [MAXVA_eq] at hlt
  obtain ⟨va, hva⟩ : ∃ va, PGROUNDDOWN (UInt64.ofNat x) = va := ⟨_, rfl⟩
  have hvanat : va.toNat = x / 4096 * 4096 := by
    rw [← hva, toNat_PGROUNDDOWN, UInt64.toNat_ofNat']
    omega
  rw [hva] at hlookup
  have hpath : pathFrom va 2 = [PX 2 va, PX 1 va] := rfl
  rw [lookup_eq _ _ (lt_of_lookup hlookup), hpath, node_twoPages] at hlookup
  have h2 : (PX 2 va).val = va.toNat / 2 ^ 30 % 512 := PX_val le_rfl va
  have h1 : (PX 1 va).val = va.toNat / 2 ^ 21 % 512 := PX_val (by decide) va
  have h0 : (PX 0 va).val = va.toNat / 2 ^ 12 % 512 := PX_val (by decide) va
  split at hlookup
  · rename_i hzero
    rw [hzero.1, Fin.val_zero] at h2
    rw [hzero.2, Fin.val_zero] at h1
    rw [Option.bind_some, word_twoPages_leaf] at hlookup
    obtain ⟨-, he⟩ := Option.ite_none_right_eq_some.mp hlookup
    split at he
    · rename_i hpx
      rw [hpx, show ((510 : Fin 512) : ℕ) = 510 from rfl] at h0
      exact .inl ⟨by omega, (Option.some.inj he).symm⟩
    · split at he
      · rename_i hpx
        rw [hpx, show ((511 : Fin 512) : ℕ) = 511 from rfl] at h0
        exact .inr ⟨by omega, (Option.some.inj he).symm⟩
      · exact absurd (by rw [← Option.some.inj he]; rfl) h.user
  · cases hlookup

theorem page_twoPages (h : UserAt (twoPages a b) 0x80001000 x e) :
    PTE2PA e = PTE2PA a ∨ PTE2PA e = PTE2PA b := by
  rcases userAt_twoPages h with ⟨-, rfl⟩ | ⟨-, rfl⟩
  exacts [.inl rfl, .inr rfl]

theorem injective_twoPages (h : PTE2PA a ≠ PTE2PA b) (x y : ℕ) (e e' : UInt64)
    (hx : UserAt (twoPages a b) 0x80001000 x e) (hy : UserAt (twoPages a b) 0x80001000 y e')
    (hpa : PTE2PA e = PTE2PA e') : x / 4096 = y / 4096 := by
  rcases userAt_twoPages hx with ⟨hx', he⟩ | ⟨hx', he⟩ <;>
    rcases userAt_twoPages hy with ⟨hy', he'⟩ | ⟨hy', he'⟩
  · rw [hx', hy']
  · exact absurd (he ▸ he' ▸ hpa) h
  · exact absurd (he ▸ he' ▸ hpa).symm h
  · rw [hx', hy']

end TwoPages

/-- Two pages apart from the page table. -/
def apart : Phys := twoPages (PA2PTE 0x80004000 ||| 0x17) (PA2PTE 0x80005000 ||| 0x17)

/-- The first of the two pages is the last one of the page table itself. -/
def overlapping : Phys := twoPages (PA2PTE 0x80003000 ||| 0x17) (PA2PTE 0x80004000 ||| 0x17)

theorem page_apart (h : UserAt apart 0x80001000 x e) : PTE2PA e = 0x80004000 ∨ PTE2PA e = 0x80005000 :=
  page_twoPages h

theorem page_overlapping (h : UserAt overlapping 0x80001000 x e) :
    PTE2PA e = 0x80003000 ∨ PTE2PA e = 0x80004000 := page_twoPages h

theorem separate_apart : Separate apart 0x80001000 where
  injective := injective_twoPages (by decide)
  ne_zero := fun _ _ h hzero => absurd (page_apart h) (by rw [hzero]; decide)
  notTable := fun _ _ h htable => by
    rcases page_apart h with hp | hp <;> exact absurd (tables_twoPages (hp ▸ htable)) (by decide)

theorem page_buffer : ∀ i < 9, PGROUNDDOWN (addr 0x80006000 i) = 0x80006000 := by decide

theorem kernelBuffer_apart : KernelBuffer apart 0x80001000 0x80006000 9 where
  notUser := fun i hi _ _ h heq => absurd (page_apart h) (by rw [← heq, page_buffer i hi]; decide)
  notTable := fun i hi h => absurd (tables_twoPages (page_buffer i hi ▸ h)) (by decide)

/-- The nine bytes around the boundary of two pages. -/
theorem writable_boundary (h510 : Writable s root 0x1fe000) (h511 : Writable s root 0x1ff000) :
    ∀ i < 9, Writable s root (0x1feff8 + i) := by
  intro i hi
  obtain ⟨a, ha, haw⟩ := h510
  obtain ⟨b, hb, hbw⟩ := h511
  by_cases h : i < 8
  · exact ⟨a, ha.congr (by omega), haw⟩
  · exact ⟨b, hb.congr (by omega), hbw⟩

/-- Nine bytes over the boundary of the two pages go out and come back. -/
theorem copy_agrees_apart : ∃ t u, copyout 0x80001000 0x1feff8 0x80006000 9 apart = .ok (0, t) ∧
    copyin 0x80001000 0x80006000 0x1feff8 9 t = .ok (0, u) := by
  obtain ⟨-, r, t, hrun, -, hiff, -, -, hback⟩ :=
    copy_agrees separate_apart (show KernelBuffer _ _ _ (9 : UInt64).toNat from kernelBuffer_apart) 0x1feff8
  obtain rfl := hiff.mpr (writable_boundary ⟨_, ⟨by decide, rfl, by decide⟩, by decide⟩
    ⟨_, ⟨by decide, rfl, by decide⟩, by decide⟩)
  obtain ⟨u, hin, -⟩ := hback rfl _ kernelBuffer_apart
  exact ⟨t, u, hrun, hin⟩

/-- What a run returned. -/
theorem run_of_match {x : VmM Int} {r : Int}
    (h : (match x s with | .ok (r', _) => r' == r | .error _ => false) = true) : ∃ t, x s = .ok (r, t) := by
  split at h
  · rename_i r' t heq
    obtain rfl := eq_of_beq h
    exact ⟨t, heq⟩
  · cases h

/-- The bytes for the first page overwrite the entry of the second one: in `copyout` if the first page is the
page of that entry, in `copyin` if the buffer is there. -/
theorem copy_overlapping :
    ((∀ x y e e', UserAt overlapping 0x80001000 x e → UserAt overlapping 0x80001000 y e' →
        PTE2PA e = PTE2PA e' → x / 4096 = y / 4096) ∧
      (∀ x e, UserAt overlapping 0x80001000 x e → PTE2PA e ≠ 0) ∧
      (∀ i < 9, ∀ x e, UserAt overlapping 0x80001000 x e → PGROUNDDOWN (addr 0x80006000 i) ≠ PTE2PA e) ∧
      (∀ i < 9, Writable overlapping 0x80001000 (0x1feff8 + i)) ∧
      ∃ t, copyout 0x80001000 0x1feff8 0x80006000 9 overlapping = .ok (-1, t)) ∧
    Separate apart 0x80001000 ∧
      (∀ i < 8, ∀ x e, UserAt apart 0x80001000 x e → PGROUNDDOWN (addr 0x80003ff8 i) ≠ PTE2PA e) ∧
      (∀ i < 8, Readable apart 0x80001000 (0x1fefff + i)) ∧
      ∃ t, copyin 0x80001000 0x80003ff8 0x1fefff 8 apart = .ok (-1, t) := by
  refine ⟨⟨injective_twoPages (by decide), fun _ _ h hzero => absurd (page_overlapping h) (by rw [hzero]; decide),
    fun i hi _ _ h heq => absurd (page_overlapping h) (by rw [← heq, page_buffer i hi]; decide),
    writable_boundary ⟨_, ⟨by decide, rfl, by decide⟩, by decide⟩
      ⟨_, ⟨by decide, rfl, by decide⟩, by decide⟩, run_of_match (by decide +kernel)⟩,
    separate_apart, fun i hi x e h heq => ?_, fun i hi => ?_, run_of_match (by decide +kernel)⟩
  · have hpage : ∀ i < 8, PGROUNDDOWN (addr 0x80003ff8 i) = 0x80003000 := by decide
    exact absurd (page_apart h) (by rw [← heq, hpage i hi]; decide)
  · rcases eq_or_ne i 0 with rfl | h0
    · exact ⟨_, by decide, rfl, by decide⟩
    · have hnext : UserAt apart 0x80001000 0x1ff000 (PA2PTE 0x80005000 ||| 0x17) := ⟨by decide, rfl, by decide⟩
      exact ⟨_, hnext.congr (by omega)⟩

end Xv6.Vm
