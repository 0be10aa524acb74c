import Xv6.Vm.Space

/-! # Growing and shrinking a process

`uvmalloc` and `uvmdealloc` take byte sizes that need not be page aligned, and each rounds them on its own. A
process of size `sz` has `numPages sz` pages, before and after, also when memory runs out half way. -/

namespace Xv6

open Phys

namespace Vm

variable {s t u : Phys} {root oldsz newsz sz xperm perm b : UInt64} {N N' M K n : ℕ} {X : UInt64 → Option UInt64}

/-! ### Sizes -/

/-- The pages of so many bytes. -/
def numPages (sz : UInt64) : ℕ := (sz.toNat + 4095) / 4096

theorem numPages_mono (h : oldsz ≤ newsz) : numPages oldsz ≤ numPages newsz := by
  have h := UInt64.le_iff_toNat_le.mp h
  rw [numPages, numPages]
  omega

theorem PGROUNDUP_eq (h : numPages sz * 4096 ≤ 0x88000000) : PGROUNDUP sz = pageAddr (numPages sz) := by
  rw [numPages] at h
  apply UInt64.toNat_inj.mp
  rw [toNat_PGROUNDUP (by omega), numPages, toNat_pageAddr (by omega)]

theorem numPages_pageAddr (h : N * 4096 ≤ 0x88000000) : numPages (pageAddr N) = N := by
  rw [numPages, toNat_pageAddr (by omega)]
  omega

theorem pageAddr_lt_iff (h : M * 4096 ≤ 0x88000000) : pageAddr M < newsz ↔ M < numPages newsz := by
  rw [UInt64.lt_iff_toNat_lt, toNat_pageAddr (by omega), numPages]
  omega

theorem pages_le_of_le (hN : N * 4096 ≤ 0x88000000) (hle : N' ≤ N) : N' * 4096 ≤ 0x88000000 :=
  (Nat.mul_le_mul_right _ hle).trans hN

theorem throughInt_eq {x : UInt64} (h : x.toNat < 2 ^ 31) : throughInt x = x := by
  have hx : x.toBitVec.toNat < 2 ^ 31 := h
  have hlow : (x.toBitVec.setWidth 32).toNat = x.toBitVec.toNat := by
    rw [BitVec.toNat_setWidth]
    omega
  have hmsb : (x.toBitVec.setWidth 32).msb = false := by
    rw [BitVec.msb_eq_decide, hlow]
    simpa using hx
  apply UInt64.toBitVec_inj.mp
  apply BitVec.eq_of_toNat_eq
  show ((x.toBitVec.setWidth 32).signExtend 64).toNat = x.toBitVec.toNat
  rw [BitVec.signExtend_eq_setWidth_of_msb_false hmsb, BitVec.toNat_setWidth, hlow]
  omega

/-- The number of pages between two sizes. -/
theorem npages_eq (hN : N * 4096 ≤ 0x88000000) (hle : N' ≤ N) :
    throughInt ((pageAddr N - pageAddr N') / 4096) = UInt64.ofNat (N - N') := by
  have hsub : (pageAddr N - pageAddr N').toNat = (N - N') * 4096 := by
    rw [UInt64.toNat_sub_of_le, toNat_pageAddr (by omega), toNat_pageAddr (by omega), Nat.sub_mul]
    rw [UInt64.le_iff_toNat_le, toNat_pageAddr (by omega), toNat_pageAddr (by omega)]
    exact Nat.mul_le_mul_right _ hle
  have hdiv : ((pageAddr N - pageAddr N') / 4096).toNat = N - N' := by
    rw [UInt64.toNat_div, hsub, show (4096 : UInt64).toNat = 4096 from rfl]
    omega
  rw [throughInt_eq (by omega)]
  apply UInt64.toNat_inj.mp
  rw [hdiv, UInt64.toNat_ofNat']
  omega

/-! ### Shrinking -/

theorem uvmdealloc_spec (h : Space s root (numPages oldsz) X) (hX : Above X) :
    Wp (uvmdealloc root oldsz newsz) (fun _ => False)
      (fun r t => (oldsz ≤ newsz ∧ r = oldsz ∧ t = s) ∨
        newsz < oldsz ∧ r = newsz ∧ Resized s t root (numPages oldsz) (numPages newsz) X) s := by
  have hlt := h.lt
  unfold uvmdealloc
  simp only [wp_bind, wp_ite, wp_pure]
  refine ⟨fun hle => .inl ⟨hle, trivial, trivial⟩, fun hnot => ?_⟩
  have hnew : newsz < oldsz := UInt64.not_le.mp hnot
  have hpages := numPages_mono (UInt64.le_of_lt hnew)
  have hup : PGROUNDUP newsz = pageAddr (numPages newsz) := PGROUNDUP_eq (pages_le_of_le hlt hpages)
  rw [PGROUNDUP_eq hlt, hup]
  refine ⟨fun _ => ?_, fun hge => ?_⟩
  · rw [npages_eq hlt hpages]
    exact (h.shrink hX hpages).mono fun _ t ht => .inr ⟨hnew, rfl, ht⟩
  · -- both sizes are in the same page
    rw [pageAddr_lt_iff (pages_le_of_le hlt hpages), numPages_pageAddr hlt] at hge
    obtain heq : numPages newsz = numPages oldsz := by omega
    refine .inr ⟨hnew, trivial, ?_⟩
    rw [heq]
    exact .refl h

/-! ### Growing -/

/-- The pages from `M` to `K` are new: they are zero, with the permissions that were asked for. -/
def Zeroed (t : Phys) (root : UInt64) (M K : ℕ) (perm : UInt64) : Prop :=
  ∀ b, Aligned b → ¬ below M b → below K b → ∃ e, lookup t root b = some e ∧
    PTE_FLAGS e = perm ||| PTE_V ∧ t.word (PTE2PA e) = fun _ => 0

theorem Zeroed.nil : Zeroed t root M M perm := fun _ _ hM hM' => absurd hM' hM

/-- One page, and then those after it. -/
theorem Zeroed.cons {e : UInt64} (h : Zeroed u root (M + 1) K perm) (hres : Resized t u root (M + 1) K X)
    (hM : M * 4096 ≤ 0x88000000) (he : lookup t root (pageAddr M) = some e)
    (hflags : PTE_FLAGS e = perm ||| PTE_V) (hword : t.word (PTE2PA e) = fun _ => 0) :
    Zeroed u root M K perm := by
  intro b hb hbM hbK
  by_cases hbM' : below (M + 1) b
  · obtain rfl := eq_of_below hb hM hbM hbM'
    refine ⟨e, (hres.lookup _ hb hbM' hbK).trans he, hflags, ?_⟩
    rw [hres.word _ e hb hbM' hbK he, hword]
  · exact h b hb hbM' hbK

/-- Back to the `N` pages from before. -/
theorem Space.undo (h : Space s root M X) (hX : Above X) (hle : N ≤ M) :
    Wp (uvmdealloc root (pageAddr M) (pageAddr N)) (fun _ => False)
      (fun _ t => Resized s t root M N X) s := by
  have hlt := h.lt
  have hM := numPages_pageAddr hlt
  have hN := numPages_pageAddr (pages_le_of_le hlt hle)
  refine (uvmdealloc_spec (hM.symm ▸ h) hX).mono ?_
  rintro r t (⟨hge, -, rfl⟩ | ⟨-, -, hres⟩)
  · have hge := numPages_mono hge
    rw [hM, hN] at hge
    obtain rfl : M = N := by omega
    exact .refl h
  · rwa [hM, hN] at hres

theorem uvmallocLoop_spec (h : Space s root M X) (hX : Above X) (hle : N ≤ M)
    (hn : MAXVA ≤ (M + n) * 4096) (hperm : (PTE_R ||| PTE_U ||| xperm).toNat < 2 ^ 10)
    (hleaf : Leaf (PTE_R ||| PTE_U ||| xperm)) :
    Wp (uvmallocLoop root (pageAddr N) newsz xperm n (pageAddr M)) (fun _ => False)
      (fun r t => (r = newsz ∧ Resized s t root M (max M (numPages newsz)) X ∧
          Zeroed t root M (max M (numPages newsz)) (PTE_R ||| PTE_U ||| xperm)) ∨
        r = 0 ∧ Resized s t root M N X) s := by
  induction n generalizing s M with
  | zero =>
    have hlt := h.lt
    rw [MAXVA_eq] at hn
    omega
  | succ n ih =>
    have hlt := h.lt
    rw [uvmallocLoop, wp_ite, pageAddr_lt_iff hlt]
    refine ⟨fun hmore => ?_, fun hdone => ?_⟩
    · rw [wp_bind]
      refine kalloc_spec.mono ?_
      rintro o t (⟨rfl, -, rfl⟩ | ⟨c, l, rfl, hfree, rfl⟩)
      · rw [wp_bind]
        exact (h.undo hX hle).mono fun _ t ht => .inr ⟨rfl, ht⟩
      · dsimp only
        rw [wp_bind, memset, wp_modify, wp_bind]
        have hzero : ({ taken s c l (fun _ => 0x0505050505050505) with
            word := Function.update (taken s c l fun _ => 0x0505050505050505).word c fun _ => 0 } : Phys) =
            taken s c l fun _ => 0 := by
          rw [taken, taken, Function.update_idem]
        rw [hzero]
        refine (h.mapNext hfree hX hperm hleaf).mono ?_
        rintro r t (⟨rfl, hres, ⟨e, he, hpa, hflags⟩, hword⟩ | ⟨rfl, hhold⟩)
        · rw [wp_ite]
          refine ⟨fun hne => absurd rfl hne, fun _ => ?_⟩
          have hnext : pageAddr M + 4096 = pageAddr (M + 1) := by
            rw [pageAddr, pageAddr, Nat.succ_mul, UInt64.ofNat_add]
            rfl
          rw [hnext]
          have hmax : max (M + 1) (numPages newsz) = max M (numPages newsz) := by omega
          have hn' : MAXVA ≤ (M + 1 + n) * 4096 := by rwa [Nat.add_right_comm]
          refine (ih hres.space (by omega) hn').mono ?_
          rw [hmax]
          rintro r u (⟨rfl, hres', hzeroed⟩ | ⟨rfl, hres'⟩)
          · refine .inl ⟨rfl, hres.trans hres' (.inl (Nat.le_succ M)), ?_⟩
            exact hzeroed.cons hres' hlt he hflags (hpa ▸ hword)
          · exact .inr ⟨rfl, hres.trans hres' (.inl (Nat.le_succ M))⟩
        · rw [wp_ite]
          refine ⟨fun _ => ?_, fun hne => absurd (by decide) hne⟩
          rw [wp_bind]
          refine hhold.kfree.mono fun _ u hu => ?_
          rw [wp_bind]
          exact (hu.space.undo hX hle).mono fun _ v hv => .inr ⟨rfl, hu.trans hv (.inl le_rfl)⟩
    · rw [wp_pure, max_eq_left (by omega)]
      exact .inl ⟨rfl, .refl h, .nil⟩

theorem uvmalloc_spec (h : Space s root (numPages oldsz) X) (hX : Above X)
    (hperm : (PTE_R ||| PTE_U ||| xperm).toNat < 2 ^ 10) (hleaf : Leaf (PTE_R ||| PTE_U ||| xperm)) :
    Wp (uvmalloc root oldsz newsz xperm) (fun _ => False)
      (fun r t => (newsz < oldsz ∧ r = oldsz ∧ t = s) ∨
        oldsz ≤ newsz ∧ ((r = newsz ∧ Resized s t root (numPages oldsz) (numPages newsz) X ∧
          Zeroed t root (numPages oldsz) (numPages newsz) (PTE_R ||| PTE_U ||| xperm)) ∨
        r = 0 ∧ Resized s t root (numPages oldsz) (numPages oldsz) X)) s := by
  unfold uvmalloc
  simp only [wp_ite, wp_pure]
  refine ⟨fun hlt => .inl ⟨hlt, trivial, trivial⟩, fun hnot => ?_⟩
  have hold : oldsz ≤ newsz := UInt64.not_lt.mp hnot
  have hmax := max_eq_right (numPages_mono hold)
  rw [PGROUNDUP_eq h.lt]
  have hcount : MAXVA ≤ (numPages oldsz + MAXVA / PGSIZE) * 4096 := by
    rw [Nat.add_mul, show MAXVA / PGSIZE * 4096 = MAXVA from rfl]
    exact Nat.le_add_left ..
  refine (uvmallocLoop_spec h hX le_rfl hcount hperm hleaf).mono ?_
  rw [hmax]
  exact fun r t ht => .inr ⟨hold, ht⟩

/-! ### The size of a process -/

/-- An `int` as it is added to a size. -/
theorem toNat_signExtend (n : Int32) : ((UInt64.ofBitVec (n.toBitVec.signExtend 64)).toNat : ℤ) =
    if 0 ≤ n.toInt then n.toInt else n.toInt + 2 ^ 64 := by
  have hext : (n.toBitVec.signExtend 64).toInt = n.toInt := BitVec.toInt_signExtend_of_le (by decide)
  have hlt : (n.toBitVec.signExtend 64).toNat < 2 ^ 64 := BitVec.isLt _
  rw [BitVec.toInt_eq_toNat_cond] at hext
  show (((n.toBitVec.signExtend 64).toNat : ℕ) : ℤ) = _
  split at hext <;> split <;> omega

/-- The size that is asked for, if it is one. -/
theorem toNat_newsz (n : Int32) (hsz : sz.toNat ≤ 0x88000000) :
    (0 ≤ (sz.toNat : ℤ) + n.toInt →
      ((sz + UInt64.ofBitVec (n.toBitVec.signExtend 64)).toNat : ℤ) = sz.toNat + n.toInt) ∧
    ((sz.toNat : ℤ) + n.toInt < 0 → sz ≤ sz + UInt64.ofBitVec (n.toBitVec.signExtend 64)) := by
  have hn := toNat_signExtend n
  have hlo := n.le_toInt
  have hhi := n.toInt_lt
  rw [UInt64.le_iff_toNat_le, UInt64.toNat_add]
  split at hn <;> constructor <;> intro h <;> omega

/-- What `growproc(n)` is for: the size has changed by `n`, the pages in both sizes have not changed and the
new ones are zero; or nothing has changed. -/
def GrowsBy (s : Phys) (p : UserMem) (X : UInt64 → Option UInt64) (n : Int32) (r : Int) (p' : UserMem)
    (t : Phys) : Prop :=
  p'.pagetable = p.pagetable ∧
    ((r = 0 ∧ (p'.sz.toNat : ℤ) = p.sz.toNat + n.toInt ∧
        Resized s t p.pagetable (numPages p.sz) (numPages p'.sz) X ∧
        Zeroed t p.pagetable (numPages p.sz) (numPages p'.sz) (PTE_R ||| PTE_U ||| PTE_W)) ∨
      r = -1 ∧ p' = p ∧ Resized s t p.pagetable (numPages p.sz) (numPages p.sz) X)

theorem Space.size_le {p : UserMem} (h : Space s p.pagetable (numPages p.sz) X) : p.sz.toNat ≤ 0x88000000 := by
  have hlt := h.lt
  rw [numPages] at hlt
  omega

/-- Nothing is new below the old size. -/
theorem zeroed_of_le (h : K ≤ M) : Zeroed t root M K perm := fun _ _ hM hK => absurd (hK.mono h) hM

theorem growproc_spec {p : UserMem} (h : Space s p.pagetable (numPages p.sz) X) (hX : Above X) (n : Int32) :
    Wp (growproc p n) (fun _ => False)
      (fun a t => (0 ≤ (p.sz.toNat : ℤ) + n.toInt ∧ GrowsBy s p X n a.1 a.2 t) ∨
        (p.sz.toNat : ℤ) + n.toInt < 0 ∧ a = (0, p) ∧ t = s) s := by
  have hsz := h.size_le
  obtain ⟨hnew, hwrap⟩ := toNat_newsz n hsz
  unfold growproc
  obtain ⟨newsz, hnewsz⟩ : ∃ x, x = p.sz + UInt64.ofBitVec (n.toBitVec.signExtend 64) := ⟨_, rfl⟩
  rw [← hnewsz] at hnew hwrap ⊢
  simp only [wp_bind, wp_ite, wp_pure]
  refine ⟨fun hpos => ?_, fun hnpos => ⟨fun hneg => ?_, fun hnneg => ?_⟩⟩
  · have hpos : 0 < n.toInt := Int32.lt_iff_toInt_lt.mp hpos
    have hsum : 0 ≤ (p.sz.toNat : ℤ) + n.toInt := by omega
    have hval := hnew hsum
    refine (uvmalloc_spec h hX (by decide) (by decide)).mono ?_
    rintro r t (⟨hlt, -⟩ | ⟨-, ⟨rfl, hres, hzeroed⟩ | ⟨rfl, hres⟩⟩)
    · have hlt := UInt64.lt_iff_toNat_lt.mp hlt
      omega
    · have hne : r ≠ 0 := by
        rintro rfl
        rw [UInt64.toNat_zero] at hval
        omega
      rw [if_neg hne, wp_pure]
      exact .inl ⟨hsum, rfl, .inl ⟨rfl, hval, hres, hzeroed⟩⟩
    · rw [if_pos rfl, wp_pure]
      exact .inl ⟨hsum, rfl, .inr ⟨rfl, rfl, hres⟩⟩
  · have hneg : n.toInt < 0 := Int32.lt_iff_toInt_lt.mp hneg
    refine (uvmdealloc_spec h hX).mono ?_
    rintro r t (⟨hle, rfl, rfl⟩ | ⟨hlt, rfl, hres⟩)
    · -- the size went below zero, and around
      refine .inr ⟨?_, rfl, rfl⟩
      by_contra hsum
      have hval := hnew (by omega)
      have hle := UInt64.le_iff_toNat_le.mp hle
      omega
    · have hlt' := UInt64.lt_iff_toNat_lt.mp hlt
      have hsum : 0 ≤ (p.sz.toNat : ℤ) + n.toInt := by
        by_contra hsum
        have hle := UInt64.le_iff_toNat_le.mp (hwrap (by omega))
        omega
      refine .inl ⟨hsum, rfl, .inl ⟨rfl, hnew hsum, hres, ?_⟩⟩
      exact zeroed_of_le (numPages_mono (UInt64.le_of_lt hlt))
  · have hzero : n.toInt = 0 := by
      have hle := mt Int32.lt_iff_toInt_lt.mpr hnpos
      have hge := mt Int32.lt_iff_toInt_lt.mpr hnneg
      rw [Int32.toInt_zero] at hle hge
      omega
    rw [hzero]
    exact .inl ⟨by omega, rfl, .inl ⟨rfl, by rw [hzero]; simp, .refl h, .nil⟩⟩

/-- Asked for more than there is, `growproc` does nothing and returns `0`. -/
theorem growproc_negative {p : UserMem} {n : Int32} (h : Space s p.pagetable (numPages p.sz) X) (hX : Above X)
    (hneg : (p.sz.toNat : ℤ) + n.toInt < 0) : growproc p n s = .ok ((0, p), s) := by
  obtain ⟨a, t, hrun, hspec⟩ := (growproc_spec h hX n).total
  rcases hspec with ⟨hsum, -⟩ | ⟨-, rfl, rfl⟩
  · omega
  · exact hrun

/-- **`growproc(n)` does what it is for exactly when there are `n` bytes to take away.** For every size and
every `n`: if the size plus `n` is not negative, the size changes by `n` or, when memory runs out, nothing
does. Otherwise the call reports success and leaves everything as it is. -/
theorem growproc_exact {p : UserMem} (h : Space s p.pagetable (numPages p.sz) X) (hX : Above X) (n : Int32) :
    (∃ r p' t, growproc p n s = .ok ((r, p'), t) ∧ GrowsBy s p X n r p' t) ↔
      0 ≤ (p.sz.toNat : ℤ) + n.toInt := by
  constructor
  · rintro ⟨r, p', t, hrun, hgrows⟩
    by_contra hneg
    obtain ⟨⟨rfl, rfl⟩, -⟩ : (r = 0 ∧ p' = p) ∧ t = s := by
      simpa using hrun.symm.trans (growproc_negative h hX (by omega))
    rcases hgrows with ⟨-, ⟨-, hval, -⟩ | ⟨hr, -⟩⟩
    · exact hneg (hval ▸ Int.natCast_nonneg _)
    · cases hr
  · intro hsum
    obtain ⟨⟨r, p'⟩, t, hrun, hspec⟩ := (growproc_spec h hX n).total
    rcases hspec with ⟨-, hgrows⟩ | ⟨hneg, -⟩
    · exact ⟨r, p', t, hrun, hgrows⟩
    · omega

theorem above_none : Above fun _ => none := fun _ _ => rfl

theorem numPages_zero : numPages 0 = 0 := by decide

/-- A new process grows to ten bytes. -/
theorem growproc_exact_tenBytes : ∃ root t, uvmcreate fourPages = .ok (some root, t) ∧
    ∃ r p u, growproc ⟨root, 0⟩ 10 t = .ok ((r, p), u) ∧ GrowsBy t ⟨root, 0⟩ (fun _ => none) 10 r p u := by
  obtain ⟨o, t, hrun, hspec⟩ := (uvmcreate_space fourPages_kmem).total
  rcases hspec with ⟨-, hfree, -⟩ | ⟨root, rfl, hspace, -⟩
  · cases hfree
  · rw [← numPages_zero] at hspace
    have hsum : 0 ≤ ((0 : UInt64).toNat : ℤ) + (10 : Int32).toInt := by decide
    exact ⟨root, t, hrun, (growproc_exact (p := ⟨root, 0⟩) hspace above_none 10).mpr hsum⟩

theorem run_tenBytes : (match uvmcreate fourPages with
    | .ok (some root, t) =>
      match growproc ⟨root, 0⟩ 10 t with
      | .ok ((r, p), _) => r == 0 && p == ⟨root, 10⟩
      | .error _ => false
    | _ => false) = true := by decide +kernel

/-- A process of ten bytes asks for 5000 less, and is told that it has them. -/
theorem growproc_below_zero : ∃ root t u, uvmcreate fourPages = .ok (some root, t) ∧
    growproc ⟨root, 0⟩ 10 t = .ok ((0, ⟨root, 10⟩), u) ∧ Space u root (numPages 10) (fun _ => none) ∧
    growproc ⟨root, 10⟩ (-5000) u = .ok ((0, ⟨root, 10⟩), u) := by
  obtain ⟨o, t, hrun, hspec⟩ := (uvmcreate_space fourPages_kmem).total
  rcases hspec with ⟨-, hfree, -⟩ | ⟨root, rfl, hspace, -⟩
  · cases hfree
  · rw [← numPages_zero] at hspace
    obtain ⟨⟨r, p⟩, u, hgrow, hgrown⟩ := (growproc_spec (p := ⟨root, 0⟩) hspace above_none 10).total
    have hten := run_tenBytes
    simp only [hrun, hgrow, Bool.and_eq_true, beq_iff_eq] at hten
    obtain ⟨rfl, rfl⟩ := hten
    have hspace' : Space u root (numPages 10) fun _ => none := by
      rcases hgrown with ⟨-, -, ⟨-, -, hres, -⟩ | ⟨hr, -⟩⟩ | ⟨-, heq, -⟩
      · exact hres.space
      · cases hr
      · cases heq
    have hneg : ((10 : UInt64).toNat : ℤ) + (-5000 : Int32).toInt < 0 := by decide +kernel
    exact ⟨root, t, u, hrun, hgrow, hspace', growproc_negative (p := ⟨root, 10⟩) hspace' above_none hneg⟩

end Vm

end Xv6
