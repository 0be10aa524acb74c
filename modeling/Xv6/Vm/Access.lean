import Xv6.Vm.Free
import Xv6.Vm.Strings

/-! # The bytes of an address space

What an address space has at each virtual address. Growing it adds zeros and leaves the other bytes, writing
into its pages changes nothing but those bytes, and taking a page away from users changes no byte at all. -/

namespace Xv6

open Phys

namespace Vm

variable {s t u : Phys} {root va b e : UInt64} {N N' M x i k : ℕ} {X : UInt64 → Option UInt64} {perm : UInt64}

/-! ### Bytes at virtual addresses -/

/-- The byte at the virtual address `x`, whether users may access it or not. -/
def virtByte (s : Phys) (root : UInt64) (x : ℕ) : Option UInt8 :=
  (lookup s root (PGROUNDDOWN (UInt64.ofNat x))).map fun e => s.byte (physAt e x)

/-- Users may access the first `N` pages. -/
def UserPages (s : Phys) (root : UInt64) (N : ℕ) : Prop :=
  ∀ b, Aligned b → below N b → ∃ e, lookup s root b = some e ∧ e &&& PTE_U ≠ 0

theorem UserPages.zero (s : Phys) (root : UInt64) : UserPages s root 0 :=
  fun b _ hb => absurd hb (not_below_zero b)

theorem toNat_page (hx : x < 2 ^ 64) : (PGROUNDDOWN (UInt64.ofNat x)).toNat = x / 4096 * 4096 := by
  rw [toNat_PGROUNDDOWN, UInt64.toNat_ofNat', Nat.mod_eq_of_lt hx]

theorem below_page (hN : N * 4096 ≤ 0x88000000) (hx : x < N * 4096) :
    below N (PGROUNDDOWN (UInt64.ofNat x)) := by
  rw [below, toNat_page (by omega)]
  omega

theorem not_below_page (hx : x < 2 ^ 64) (hge : M * 4096 ≤ x) : ¬ below M (PGROUNDDOWN (UInt64.ofNat x)) := by
  rw [below, toNat_page hx]
  omega

theorem virtByte_eq (he : lookup s root (PGROUNDDOWN (UInt64.ofNat x)) = some e) :
    virtByte s root x = some (s.byte (physAt e x)) := by
  rw [virtByte, he, Option.map_some]

/-- The same entry and the same page make the same byte. -/
theorem virtByte_congr (hl : lookup t root (PGROUNDDOWN (UInt64.ofNat x)) =
      lookup s root (PGROUNDDOWN (UInt64.ofNat x)))
    (hw : ∀ e, lookup s root (PGROUNDDOWN (UInt64.ofNat x)) = some e → t.word (PTE2PA e) = s.word (PTE2PA e)) :
    virtByte t root x = virtByte s root x := by
  rw [virtByte, virtByte, hl]
  refine Option.map_congr fun e he => byte_congr ?_
  rw [PGROUNDDOWN_physAt]
  exact hw e he

/-- What users may access is the process's own, if nothing above its memory is for users. -/
theorem Space.separate (h : Space s root N X) (hX : ∀ b e, X b = some e → e &&& PTE_U = 0)
    (hkend : s.kend ≠ 0) : Separate s root := by
  have hbelow : ∀ x e, UserAt s root x e → below N (PGROUNDDOWN (UInt64.ofNat x)) := by
    intro x e hx
    by_contra hN
    have hother := h.other _ (aligned_PGROUNDDOWN _) hN
    exact hx.user (hX _ e (hother.symm.trans hx.lookup))
  have hdata : ∀ x e, UserAt s root x e → PTE2PA e ∈ data s root (below N) :=
    fun x e hx => ⟨_, e, aligned_PGROUNDDOWN _, hbelow x e hx, hx.lookup, rfl⟩
  constructor
  case injective =>
    intro x y e e' hx hy heq
    have hpage := h.backed.injective _ _ e e' (aligned_PGROUNDDOWN _) (aligned_PGROUNDDOWN _) (hbelow x e hx)
      (hbelow y e' hy) hx.lookup hy.lookup heq
    have hpage := congrArg UInt64.toNat hpage
    have hxlt := hx.lt
    have hylt := hy.lt
    rw [MAXVA_eq] at hxlt hylt
    rw [toNat_page (by omega), toNat_page (by omega)] at hpage
    omega
  case ne_zero =>
    intro x e hx h0
    have hle := UInt64.le_iff_toNat_le.mp (h.backed.isPage _ (hdata x e hx)).le
    rw [h0, UInt64.toNat_zero] at hle
    exact hkend (UInt64.toNat_inj.mp (by rw [UInt64.toNat_zero]; omega))
  case notTable => exact fun x e hx => h.backed.notTable _ (hdata x e hx)

/-- An address space that is as it was has the bytes it had. -/
theorem Same.virtByte (h : Same s t root N X) (hx : x < N * 4096) : Vm.virtByte t root x = Vm.virtByte s root x := by
  refine virtByte_congr (h.lookup _) fun e he => h.word _ (.inr ?_)
  exact ⟨_, e, aligned_PGROUNDDOWN _, below_page h.space.lt hx, he, rfl⟩

theorem Same.userAt (h : Same s t root N X) : UserAt t root x e ↔ UserAt s root x e :=
  ⟨fun hx => ⟨hx.lt, (h.lookup _).symm.trans hx.lookup, hx.user⟩,
    fun hx => ⟨hx.lt, (h.lookup _).trans hx.lookup, hx.user⟩⟩

/-! ### Growing -/

theorem Resized.virtByte (h : Resized s t root N N' X) (hN : N * 4096 ≤ 0x88000000) (hx : x < N * 4096)
    (hx' : x < N' * 4096) : Vm.virtByte t root x = Vm.virtByte s root x := by
  have ha := aligned_PGROUNDDOWN (UInt64.ofNat x)
  have hb := below_page hN hx
  have hb' := below_page h.space.lt hx'
  exact virtByte_congr (h.lookup _ ha hb hb') fun e => h.word _ e ha hb hb'

theorem Zeroed.virtByte (h : Zeroed t root N N' perm) (hN' : N' * 4096 ≤ 0x88000000) (hx : N * 4096 ≤ x)
    (hx' : x < N' * 4096) : Vm.virtByte t root x = some 0 := by
  obtain ⟨e, he, -, hzero⟩ := h _ (aligned_PGROUNDDOWN (UInt64.ofNat x)) (not_below_page (by omega) hx)
    (below_page hN' hx')
  rw [virtByte_eq he, byte_of_zero]
  rw [PGROUNDDOWN_physAt]
  exact hzero

theorem and_PTE_U (e : UInt64) : e &&& PTE_U = PTE_FLAGS e &&& PTE_U := by
  rw [PTE_FLAGS, UInt64.and_assoc]
  rfl

theorem UserPages.grow (hu : UserPages s root N) (h : Resized s t root N N' X) (hz : Zeroed t root N N' perm)
    (hperm : (perm ||| PTE_V) &&& PTE_U ≠ 0) : UserPages t root N' := by
  intro b hb hb'
  by_cases hbN : below N b
  · rw [h.lookup b hb hbN hb']
    exact hu b hb hbN
  · obtain ⟨e, he, hflags, -⟩ := hz b hb hbN hb'
    refine ⟨e, he, ?_⟩
    rw [and_PTE_U, hflags]
    exact hperm

/-! ### Writing -/

/-- Nothing but pages of the memory has been written. -/
structure Wrote (s t : Phys) (root : UInt64) (N : ℕ) : Prop where
  word : ∀ q, q ∉ data s root (below N) → t.word q = s.word q
  freelist : t.freelist = s.freelist
  kend : t.kend = s.kend

/-- The pages are where they were, and so is everybody else's. -/
structure Rewritten (s t : Phys) (root : UInt64) (N : ℕ) (X : UInt64 → Option UInt64) : Prop
    extends Wrote s t root N where
  moves : Moves s t (owned s root N) (owned t root N)
  space : Space t root N X
  lookup : ∀ b, lookup t root b = lookup s root b
  owned : Vm.owned t root N = Vm.owned s root N

theorem Rewritten.refl (h : Space s root N X) : Rewritten s s root N X :=
  ⟨⟨fun _ _ => rfl, rfl, rfl⟩, .refl h.pageTable.kmem h.notFree, h, fun _ => rfl, rfl⟩

theorem Rewritten.trans (h : Rewritten s t root N X) (h' : Rewritten t u root N X) : Rewritten s u root N X where
  word := by
    intro q hq
    rw [h'.word q, h.word q hq]
    rwa [data_congr fun b _ _ => h.lookup b]
  freelist := h'.freelist.trans h.freelist
  kend := h'.kend.trans h.kend
  moves := h.moves.trans h'.moves
  space := h'.space
  lookup := fun b => (h'.lookup b).trans (h.lookup b)
  owned := h'.owned.trans h.owned

theorem Rewritten.userPages (h : Rewritten s t root N X) (hu : UserPages s root N) : UserPages t root N := by
  intro b hb hbN
  rw [h.lookup b]
  exact hu b hb hbN

theorem Rewritten.userAt (h : Rewritten s t root N X) : UserAt t root x e ↔ UserAt s root x e :=
  ⟨fun hx => ⟨hx.lt, (h.lookup _).symm.trans hx.lookup, hx.user⟩,
    fun hx => ⟨hx.lt, (h.lookup _).trans hx.lookup, hx.user⟩⟩

theorem Space.wrote (h : Space s root N X) (hw : Wrote s t root N) : Rewritten s t root N X := by
  have htable : ∀ q ∈ s.tables root, t.word q = s.word q :=
    fun q hq => hw.word q fun hdata => h.backed.notTable q hdata hq
  have hlookup := lookup_frame htable
  have htables := tables_frame htable
  have howned : owned t root N = owned s root N := by
    rw [owned, htables, data_congr fun b _ _ => hlookup b, owned]
  have hmoves : Moves s t (owned s root N) (owned t root N) := by
    refine ⟨?_, hw.kend⟩
    rw [howned, hw.freelist]
    exact .write h.pageTable.kmem.nodup h.notFree fun q hq => hw.word q fun hdata => hq (.inr hdata)
  obtain ⟨hkmem, hpages⟩ := hmoves.isPage h.isPage h.pageTable.kmem
  refine ⟨hw, hmoves, ⟨⟨hkmem, h.pageTable.distinct.frame htable, fun q hq => hpages q (.inl hq),
    fun q hq => hmoves.disjoint q (.inl hq)⟩, inner_frame htable h.inner, ?_, ?_, ?_⟩, hlookup, howned⟩
  · intro b hb hbN
    rw [hlookup]
    exact h.user b hb hbN
  · intro b hb hbN
    rw [hlookup]
    exact h.other b hb hbN
  · refine h.backed.transfer (fun b _ _ => by rw [hlookup]) hw.kend (fun q hq => ?_) fun q hq => ?_
    · rw [htables]
      exact h.backed.notTable q hq
    · rw [hw.freelist]
      exact h.backed.notFree q hq

/-- The bytes of `l` are written at the start of the page at `b`. -/
theorem Space.fill {l : List UInt8} (h : Space s root N X) (hb : Aligned b) (hbN : below N b)
    (he : Vm.lookup s root b = some e) (hl : l.length ≤ 4096) :
    Rewritten s (s.setBytes (PTE2PA e) l) root N X ∧ ∀ x < N * 4096,
      virtByte (s.setBytes (PTE2PA e) l) root x =
        if b.toNat ≤ x ∧ x < b.toNat + l.length then some (l.getD (x - b.toNat) 0) else virtByte s root x := by
  have hN := h.lt
  have hfilled := setBytes_filled s (PTE2PA e) (l := l) (by omega)
  have hpage : ∀ i < l.length, PGROUNDDOWN (addr (PTE2PA e) i) = PTE2PA e :=
    fun i hi => PGROUNDDOWN_addr (aligned_PTE2PA e) (by omega)
  have hwrote : Wrote s (s.setBytes (PTE2PA e) l) root N := by
    refine ⟨fun q hq => hfilled.word q fun i hi heq => hq ?_, hfilled.freelist, hfilled.kend⟩
    exact ⟨b, e, hb, hbN, he, ((heq.trans (hpage i hi))).symm⟩
  have hre := h.wrote hwrote
  refine ⟨hre, fun x hx => ?_⟩
  have hb4096 : b.toNat % 4096 = 0 := hb
  have ha := aligned_PGROUNDDOWN (UInt64.ofNat x)
  have hxN := below_page hN hx
  obtain ⟨e', he', -⟩ := h.user _ ha hxN
  rw [virtByte_eq ((hre.lookup _).trans he'), virtByte_eq he']
  by_cases hpa : PTE2PA e' = PTE2PA e
  · -- the page that is written
    have hbx := congrArg UInt64.toNat (h.backed.injective _ _ e' e ha hb hxN hbN he' he hpa)
    rw [toNat_page (by omega)] at hbx
    rw [physAt, hpa]
    split
    · rename_i hin
      have hoff : x % 4096 = x - b.toNat := by omega
      rw [hoff, hfilled.byte _ (by omega)]
    · rename_i hout
      rw [hfilled.frame]
      intro i hi heq
      have := addr_injective (by omega) (by omega) heq
      omega
  · rw [if_neg]
    · congr 1
      refine byte_congr (hfilled.word _ fun i hi heq => hpa ?_)
      rw [PGROUNDDOWN_physAt] at heq
      exact heq.trans (hpage i hi)
    · -- addresses in one page have one entry
      intro hin
      have hbx : PGROUNDDOWN (UInt64.ofNat x) = b := by
        apply UInt64.toNat_inj.mp
        rw [toNat_page (by omega)]
        omega
      rw [hbx] at he'
      exact hpa (congrArg PTE2PA (Option.some.inj (he'.symm.trans he)))

/-- Copying out writes pages of the memory. -/
theorem WritesOnly.wrote {n : ℕ} (h : WritesOnly s t root x n) (hs : Space s root N X)
    (hX : ∀ b e, X b = some e → e &&& PTE_U = 0) : Wrote s t root N := by
  refine ⟨fun q hq => ?_, h.freelist, h.kend⟩
  by_contra hne
  obtain ⟨i, -, e, he, -, rfl⟩ := h.word q hne
  refine hq ⟨_, e, aligned_PGROUNDDOWN _, ?_, he.lookup, rfl⟩
  by_contra hN
  exact he.user (hX _ e ((hs.other _ (aligned_PGROUNDDOWN _) hN).symm.trans he.lookup))

/-- What is outside of the memory and of the page table can be copied from. -/
theorem Space.kernelBuffer {buf : UInt64} {n : ℕ} (h : Space s root N X)
    (hX : ∀ b e, X b = some e → e &&& PTE_U = 0) (hout : ∀ i < n, PGROUNDDOWN (addr buf i) ∉ owned s root N) :
    KernelBuffer s root buf n := by
  refine ⟨fun i hi x e hx heq => hout i hi ?_, fun i hi ht => hout i hi (.inl ht)⟩
  refine .inr ⟨_, e, aligned_PGROUNDDOWN _, ?_, hx.lookup, heq.symm⟩
  by_contra hN
  exact hx.user (hX _ e ((h.other _ (aligned_PGROUNDDOWN _) hN).symm.trans hx.lookup))

/-- Copying out to memory that users may write. -/
theorem copyout_virtByte {src len : UInt64} (h : Space s root N X) (hX : ∀ b e, X b = some e → e &&& PTE_U = 0)
    (hkend : s.kend ≠ 0) (hsrc : ∀ i < len.toNat, PGROUNDDOWN (addr src i) ∉ owned s root N)
    (hw : ∀ i < len.toNat, Writable s root (va.toNat + i)) :
    Wp (copyout root va src len) (fun _ => False) (fun r t => r = 0 ∧ Rewritten s t root N X ∧
      ∀ x < N * 4096, virtByte t root x =
        if va.toNat ≤ x ∧ x < va.toNat + len.toNat then some (s.byte (addr src (x - va.toNat)))
        else virtByte s root x) s := by
  have hN := h.lt
  refine (copyoutLoop_spec va (h.separate hX hkend) (h.kernelBuffer hX hsrc) le_rfl).mono ?_
  rintro r t ⟨honly, hend⟩
  have hre := h.wrote (honly.wrote h hX)
  obtain ⟨rfl, -, hstored⟩ : r = 0 ∧ (∀ i < len.toNat, Writable s root (va.toNat + i)) ∧
      Stored s t root va.toNat src len.toNat := by
    rcases hend with hend | ⟨-, i, hi, hnot⟩
    · exact hend
    · exact absurd (hw i hi) hnot
  refine ⟨rfl, hre, fun x hx => ?_⟩
  split
  · rename_i hin
    obtain ⟨e, he, -⟩ := hw (x - va.toNat) (by omega)
    have hxe : va.toNat + (x - va.toNat) = x := by omega
    have hbyte := hstored (x - va.toNat) (by omega) e he
    rw [hxe] at he hbyte
    rw [virtByte_eq ((hre.lookup _).trans he.lookup), hbyte]
  · rename_i hout
    have ha := aligned_PGROUNDDOWN (UInt64.ofNat x)
    have hxN := below_page hN hx
    obtain ⟨e, he, -⟩ := h.user _ ha hxN
    rw [virtByte_eq ((hre.lookup _).trans he), virtByte_eq he]
    congr 1
    by_contra hne
    -- a byte that has changed is one that was written
    obtain ⟨i, hi, e', he', -, heq⟩ := honly.byte _ hne
    have hi' : va.toNat + i < N * 4096 := by
      by_contra hge
      have hlt := he'.lt
      rw [MAXVA_eq] at hlt
      have hother := h.other _ (aligned_PGROUNDDOWN _) (not_below_page (M := N) (x := va.toNat + i) (by omega)
        (by omega))
      exact he'.user (hX _ e' (hother.symm.trans he'.lookup))
    have hpage := congrArg PGROUNDDOWN heq
    rw [PGROUNDDOWN_physAt, PGROUNDDOWN_physAt] at hpage
    have hsame := congrArg UInt64.toNat (h.backed.injective _ _ e e' ha (aligned_PGROUNDDOWN _) hxN
      (below_page hN hi') he he'.lookup hpage)
    rw [toNat_page (by omega), toNat_page (by omega)] at hsame
    rw [physAt, physAt, hpage] at heq
    have hmod := addr_injective (by omega) (by omega) heq
    omega

/-! ### A page that is not for users -/

section ClearU

variable (e)

theorem valid_clearU : valid (e &&& ~~~PTE_U) = valid e := by
  rw [valid, valid, UInt64.and_assoc]
  rfl

theorem leaf_clearU : Leaf (e &&& ~~~PTE_U) ↔ Leaf e := by
  rw [Leaf, Leaf, UInt64.and_assoc]
  rfl

theorem PTE2PA_clearU : PTE2PA (e &&& ~~~PTE_U) = PTE2PA e := by
  have hdiv : (e &&& ~~~PTE_U).toNat / 1024 = e.toNat / 1024 := by
    have hlt := e.toNat_lt
    rw [UInt64.toNat_and, show 1024 = 2 ^ 10 from rfl, Nat.and_div_two_pow,
      show (~~~PTE_U).toNat / 2 ^ 10 = 2 ^ 54 - 1 from rfl, Nat.and_two_pow_sub_one_eq_mod]
    omega
  apply UInt64.toNat_inj.mp
  rw [toNat_PTE2PA, toNat_PTE2PA, hdiv]

end ClearU

/-- The page at `b` is not for users any more. -/
structure Cleared (s t : Phys) (root : UInt64) (N : ℕ) (X : UInt64 → Option UInt64) (b : UInt64) : Prop where
  moves : Moves s t (owned s root N) (owned t root N)
  space : Space t root N X
  here : ∀ e, lookup s root b = some e → lookup t root b = some (e &&& ~~~PTE_U)
  other : ∀ a, Aligned a → a ≠ b → lookup t root a = lookup s root a
  word : ∀ q ∈ data s root (below N), t.word q = s.word q

theorem uvmclear_spec (h : Space s root N X) (hb : Aligned b) (hbN : below N b) :
    Wp (uvmclear root b) (fun _ => False) (fun _ t => Cleared s t root N X b) s := by
  have hN := h.lt
  have hlt : b.toNat < MAXVA := by
    have hbN : b.toNat < N * 4096 := hbN
    rw [MAXVA_eq]
    omega
  obtain ⟨e, he, hleaf⟩ := h.user b hb hbN
  unfold uvmclear
  rw [wp_bind, wp_walk_false hlt]
  rcases lookup_walk hlt with ⟨-, hnone⟩ | ⟨p, hnode, hsome⟩
  · cases hnone.symm.trans he
  obtain ⟨hv, heq⟩ := Option.ite_none_right_eq_some.mp (hsome.symm.trans he)
  cases heq
  rw [hnode]
  simp only [Option.map_some, load, store, wp_bind, wp_get, wp_pure, wp_modify]
  have hedit := setSlot_edited (e := s.word p (PX 0 b) &&& ~~~PTE_U) h.pageTable hnode hb hlt
  have hself := lookup_setSlot_self (e := s.word p (PX 0 b) &&& ~~~PTE_U) h.pageTable hnode hlt
  rw [valid_clearU, if_pos hv] at hself
  obtain ⟨hadd, hword, hnotTable⟩ := moves_add (F := data s root (below N)) hedit.moves h.backed.notTable
    h.backed.notFree
  change Cleared s (setSlot s p b (s.word p (PX 0 b) &&& ~~~PTE_U)) root N X b
  generalize setSlot s p b (s.word p (PX 0 b) &&& ~~~PTE_U) = t at *
  generalize s.word p (PX 0 b) = e at *
  have hpa : ∀ a, Aligned a → below N a → (lookup t root a).map PTE2PA = (lookup s root a).map PTE2PA := by
    intro a ha _
    rcases eq_or_ne a b with rfl | hne
    · rw [hself, he, Option.map_some, Option.map_some, PTE2PA_clearU]
    · rw [hedit.lookup a ha hne]
  have hmoves : Moves s t (owned s root N) (owned t root N) := by
    rw [owned, owned, data_congr_pa hpa]
    exact hadd
  refine ⟨hmoves, ⟨hedit.pageTable, hedit.inner h.inner, fun a ha haN => ?_, fun a ha haN => ?_, ?_⟩,
    fun e' he' => ?_, fun a ha hne => hedit.lookup a ha hne, hword⟩
  · rcases eq_or_ne a b with rfl | hne
    · exact ⟨_, hself, (leaf_clearU e).mpr hleaf⟩
    · rw [hedit.lookup a ha hne]
      exact h.user a ha haN
  · rw [hedit.lookup a ha fun heq => haN (heq ▸ hbN)]
    exact h.other a ha haN
  · refine h.backed.transfer hpa hmoves.kend hnotTable fun q hq => ?_
    rw [← data_congr_pa hpa] at hq
    exact hmoves.disjoint q (.inr hq)
  · obtain rfl := Option.some.inj (he'.symm.trans he)
    exact hself

end Vm

end Xv6
