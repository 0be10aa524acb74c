import Xv6.User.HeapSafety
import Xv6.Vm.Alloc

/-! # What `malloc` promises

The bytes that `malloc` returns should be below the break, in memory that `sbrk` has returned. The request
of `morecore` is a `size_t` and the parameter of `sbrk` an `int`: a request of `2 ^ 31` bytes or more
arrives as a negative or a small one, which the kernel meets. -/

namespace Xv6

/-- The break moves as `growproc` moves it, or the call fails. -/
theorem Vm.growproc_newBreak {s : Phys} {X : UInt64 → Option UInt64} {p : UserMem}
    (h : Space s p.pagetable (numPages p.sz) X) (hX : Above X) (n : Int32) :
    ∃ r p' t, growproc p n s = .ok ((r, p'), t) ∧
      (r = 0 ∧ p'.sz.toNat = Heap.newBreak p.sz.toNat n ∧ p'.sz.toNat ≤ 0x88000000 ∨ r = -1 ∧ p' = p) := by
  obtain ⟨⟨r, p'⟩, t, hrun, hspec⟩ := (growproc_spec h hX n).total
  refine ⟨r, p', t, hrun, ?_⟩
  unfold GrowsBy at hspec
  dsimp only at hspec
  rw [Heap.newBreak]
  rcases hspec with ⟨hsum, htable, ⟨hr, hval, hres, -⟩ | ⟨hr, hp, -⟩⟩ | ⟨hneg, heq, -⟩
  · rw [← htable] at hres
    exact .inl ⟨hr, by rw [if_neg (by omega)]; omega, hres.space.size_le⟩
  · exact .inr ⟨hr, hp⟩
  · obtain ⟨rfl, rfl⟩ := Prod.mk.inj heq
    exact .inl ⟨rfl, (if_pos hneg).symm, h.size_le⟩

theorem Vm.growproc_newBreak_ten : ∃ root s r p t, growproc ⟨root, 0⟩ 10 s = .ok ((r, p), t) ∧
    (r = 0 ∧ p.sz.toNat = Heap.newBreak 0 10 ∧ p.sz.toNat ≤ 0x88000000 ∨ r = -1 ∧ p = ⟨root, 0⟩) := by
  obtain ⟨-, t, -, ⟨-, hfree, -⟩ | ⟨root, -, hspace, -⟩⟩ := (uvmcreate_space fourPages_kmem).total
  · cases hfree
  · exact ⟨root, t, growproc_newBreak (p := ⟨root, 0⟩) (numPages_zero ▸ hspace) above_none 10⟩

namespace Heap

variable {h : Heap} {bp p x y m top : ℕ} {n nunits : UInt32} {regions : List (ℕ × ℕ)}

/-- The argument of `sbrk`, if `malloc(n)` calls it. -/
def asked (n : UInt32) : Int32 := Int32.ofNat ((request (units n)).toNat * HEADER)

/-- `malloc(n)` on `h` has returned `q`: the break is not lower than it was, and the `n` bytes at `q` are
memory below it. -/
def Promises (h : Heap) (n : UInt32) (h' : Heap) (q : ℕ) : Prop :=
  h.top ≤ h'.top ∧ (q ≠ 0 → ∀ x, q ≤ x → x < q + n.toNat → x ∈ h'.memory ∧ x < h'.top)

/-! ### The allocator does not look at the break -/

theorem findPlace_withBreak : (h.withBreak top regions).findPlace bp m p = h.findPlace bp m p := by
  induction m generalizing p with
  | zero => rfl
  | succ m ih =>
    rw [findPlace, findPlace, ih]
    rfl

theorem joinNext_withBreak :
    (h.withBreak top regions).joinNext bp p = (h.joinNext bp p).withBreak top regions := by
  unfold joinNext
  rw [apply_ite (fun g : Heap => g.withBreak top regions)]
  rfl

theorem joinPrev_withBreak :
    (h.withBreak top regions).joinPrev bp p = (h.joinPrev bp p).withBreak top regions := by
  unfold joinPrev
  rw [apply_ite (fun g : Heap => g.withBreak top regions)]
  rfl

theorem free_withBreak : (h.withBreak top regions).free p = (h.free p).map fun g => g.withBreak top regions := by
  rw [free, free, findPlace_withBreak, Option.map_map]
  refine congrArg (Option.map · _) (funext fun q => ?_)
  rw [Function.comp, insertAt_eq, insertAt_eq, joinNext_withBreak, joinPrev_withBreak]
  rfl

theorem take_break : (h.take nunits y x).1.top = h.top ∧ x + HEADER ≤ (h.take nunits y x).2 := by
  unfold take
  split
  · exact ⟨rfl, le_rfl⟩
  · exact ⟨rfl, Nat.add_le_add_right (Nat.le_add_right ..) _⟩

/-! ### Requests that do not fit -/

/-- A heap from which nothing has been asked for, right below a break that is not at a page boundary. -/
def blank : Heap where
  mem := fun _ => 0
  base := 8192
  freep := 0
  top := 8208
  regions := []
  answers := [some 0]

theorem toNat_asked : (asked n).toInt = ((request (units n)).toNat * 16 : ℤ).bmod (2 ^ 32) := by
  rw [asked, Int32.toInt_ofNat']
  rfl

theorem request_units (hn : 2 ^ 31 - 32 < n.toNat) : request (units n) = units n := by
  refine if_neg fun hlt => ?_
  have hu := toNat_units n
  have hlt := UInt32.lt_iff_toNat_lt.mp hlt
  rw [show (4096 : UInt32).toNat = 4096 from rfl] at hlt
  omega

/-- The break is hardly raised. -/
theorem sbrk_asked (hn : 2 ^ 31 - 32 < n.toNat) : ∃ top regions, top ≤ 8224 ∧
    blank.initialised.sbrk (asked n) =
      ({ blank.initialised with answers := [], top := top, regions := regions }, some 8208) := by
  have hu := toNat_units n
  have hlt := n.toNat_lt
  have hk := toNat_asked (n := n)
  rw [request_units hn, Int.bmod_def] at hk
  by_cases hneg : asked n < 0
  · refine ⟨newBreak 8208 (asked n), [], ?_, if_pos hneg⟩
    have hneg := Int32.lt_iff_toInt_lt.mp hneg
    rw [Int32.toInt_zero] at hneg
    rw [newBreak]
    split <;> omega
  · refine ⟨_, _, ?_, if_neg hneg⟩
    have hpos := mt Int32.lt_iff_toInt_lt.mpr hneg
    rw [Int32.toInt_zero] at hpos
    show 8208 + 0 + (asked n).toInt.toNat ≤ 8224
    split at hk <;> omega

/-- The block that is returned starts at the break or above. -/
theorem malloc_blank (hn : 2 ^ 31 - 32 < n.toNat) :
    ∃ h' q, blank.malloc n = some (h', q) ∧ q ≠ 0 ∧ h'.top ≤ q := by
  have hu := toNat_units n
  have hlt := n.toNat_lt
  have hinit : blank.initialised.Inv [8192] [] :=
    initialised_inv rfl (by decide) (by decide) (by decide)
  have hrounds : 2 ^ 37 ≤ rounds := by
    rw [rounds_eq]
    exact Nat.pow_le_pow_right (by decide) (by decide)
  have hbase : ∀ {g : Heap} {l : List ℕ} {z}, g.Blocks l → g.size z ≥ units n → z ≠ g.base := by
    rintro g l _ hg hz rfl
    have hz := UInt32.le_iff_toNat_le.mp hz
    rw [hg.base_size, UInt32.toNat_zero] at hz
    omega
  rw [malloc_eq_init rfl]
  rcases hinit.scan (units n) (le_trans (by decide) hrounds) blank.initialised.top blank.initialised.regions with
    ⟨y, x, -, hx, -, hsize, -⟩ | ⟨-, m, hm, hres⟩
  · exact absurd (List.mem_singleton.mp hx) (hbase hinit.blocks hsize)
  · obtain ⟨top, regions, htop, hsbrk⟩ := sbrk_asked hn
    obtain ⟨g, F, hfree, hinv, hvars, ⟨a, ha, hbig⟩, -⟩ := (extended_inv (p := 8208) [] hinit le_rfl
      (units_ne_zero n) (by unfold HEADER; omega)).free
    have hself : (blank.initialised.extended [] 8208 (units n)).size 8208 = units n := size_setSize_self
    rw [hself] at hbig
    have hmore : blank.initialised.morecore (units n) = some (g.withBreak top regions, g.freep) := by
      have hfree' : ((blank.initialised.extended [] 8208 (units n)).withBreak top regions).free
          (8208 + HEADER) = _ := free_withBreak
      rw [hfree, Option.map_some] at hfree'
      unfold morecore
      dsimp only
      rw [show (if units n < 4096 then 4096 else units n) = units n from request_units hn]
      rw [asked, request_units hn] at hsbrk
      rw [hsbrk]
      exact congrArg (Option.map fun h : Heap => (h, h.freep)) hfree'
    have hres : mallocLoop (units n) rounds blank.initialised _ _ = refill (units n) m blank.initialised := hres
    rw [hres, refill, hmore]
    dsimp only
    rw [if_neg hinv.freep_ne_zero]
    rcases hinv.scan (units n) (m := m) (by omega) top regions with
      ⟨y, x, -, hx, -, hsize, hres'⟩ | ⟨hall, -⟩
    · obtain ⟨htake, hle⟩ := @take_break (g.withBreak top regions) x y (units n)
      generalize (g.withBreak top regions).take (units n) y x = r at hres' htake hle
      have hin := (hinv.blocks.inside (hinv.mem_append hx) (hbase hinv.blocks hsize)).1
      rw [hvars.base] at hin
      have hin : 8192 + HEADER ≤ x := hin
      unfold HEADER at *
      exact ⟨r.1, r.2, hres', by omega, htake.trans_le (htop.trans (by omega))⟩
    · exact absurd (UInt32.le_iff_toNat_le.mpr hbig) (hall a ha)

/-! ### Requests that fit -/

theorem promises_of_small {σ : Program} (hσ : σ.Inv) {ok : Bool} (hn : n.toNat ≤ 2 ^ 31 - 32)
    (hok : ok = true → newBreak σ.heap.top (asked n) ≤ 0x88000000) :
    ∃ h' q, (σ.heap.withAnswers (if ok then [some 0] else [])).malloc n = some (h', q) ∧
      Promises σ.heap n h' q := by
  have hsmall : σ.Small (.malloc n (if ok then [some 0] else [])) := by
    refine ⟨hn, fun gap rest hans => ?_⟩
    cases ok with
    | false => cases hans
    | true =>
      cases hans
      have hint : (asked n).toInt = ((request (units n)).toNat * HEADER : ℕ) :=
        Int32.toInt_ofNat_of_lt (request_lt hn)
      have hle := hok rfl
      rw [newBreak, hint] at hle
      split at hle <;> omega
  obtain ⟨h', q, hres, ⟨-, -, hcase⟩, htop⟩ := Program.malloc_returns hσ hsmall
  refine ⟨h', q, hres, htop, fun hq x hx hx' => ?_⟩
  rcases hcase with ⟨rfl, -⟩ | ⟨F', t, rfl, hinv, ht⟩
  · exact absurd rfl hq
  · have hmem : x ∈ h'.memory := by
      refine hinv.blocks.tiles.subset (List.mem_map_of_mem (List.mem_append_right F' List.mem_cons_self)) ⟨?_, ?_⟩
      · exact (Nat.le_add_right ..).trans hx
      · show x < t + HEADER * (h'.size t).toNat
        have hu := toNat_units n
        rw [ht]
        unfold HEADER at *
        omega
    exact ⟨hmem, (hinv.blocks.above x hmem).2⟩

/-- **`malloc(n)` keeps its promise, on every heap and whatever `sbrk` does, exactly when the bytes that
it may have to ask for fit an `int`.** -/
theorem malloc_promises_iff (n : UInt32) :
    (∀ σ : Program, σ.Inv → ∀ ok, (ok = true → newBreak σ.heap.top (asked n) ≤ 0x88000000) →
      ∃ h' q, (σ.heap.withAnswers (if ok then [some 0] else [])).malloc n = some (h', q) ∧
        Promises σ.heap n h' q) ↔ n.toNat ≤ 2 ^ 31 - 32 := by
  refine ⟨fun hall => ?_, fun hn σ hσ ok hok => promises_of_small hσ hn hok⟩
  by_contra hn
  have hn : 2 ^ 31 - 32 < n.toNat := by omega
  have hbreak : newBreak 8208 (asked n) ≤ 0x88000000 := by
    have := (asked n).toInt_lt
    rw [newBreak]
    split <;> omega
  obtain ⟨h', q, hres, -, hpromise⟩ := hall ⟨blank, []⟩ (.inl ⟨rfl, rfl, rfl, by decide, by decide, by decide⟩)
    true fun _ => hbreak
  obtain ⟨h'', q', hres', hq, htop⟩ := malloc_blank hn
  obtain ⟨rfl, rfl⟩ := Prod.mk.inj (Option.some.inj (hres.symm.trans hres'))
  have := (hpromise hq q le_rfl (by omega)).2
  omega

/-- The break stays where it is, and the 2 GiB that `malloc` returns are above it. -/
theorem malloc_above_break : ∃ h' q, blank.malloc 0x80000000 = some (h', q) ∧ q = 8224 ∧ h'.top = 8208 := by
  have hrun : ((blank.malloc 0x80000000).any fun r => decide (r.2 = 8224 ∧ r.1.top = 8208)) = true := by
    decide +kernel
  obtain ⟨⟨h', q⟩, hr, hd⟩ := (Option.any_eq_true _ _).mp hrun
  exact ⟨h', q, hr, of_decide_eq_true hd⟩

end Heap

end Xv6
