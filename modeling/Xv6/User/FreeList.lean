import Xv6.User.Umalloc
import Xv6.Lib.Links
import Xv6.Lib.Tiles

/-! # The free list

The blocks, free or not, tile the memory that `sbrk` returned; the free ones are linked in a circle, in
the order of their addresses and with `base` first, and no two of them touch. `free` keeps this: it
finds the place of a block in the circle and joins the block with its neighbours. -/

namespace Xv6.Heap

variable {h h' : Heap} {p q r a b x bp : ℕ} {n : UInt32} {l l' F A B C : List ℕ}

/-! ### Reading and writing headers -/

/-- Two headers are the same one or do not overlap. -/
def Apart (p r : ℕ) : Prop := r = p ∨ p + HEADER ≤ r ∨ r + HEADER ≤ p

theorem ptr_setPtr_self (hq : q < 2 ^ 64) : (h.setPtr p q).ptr p = q := by
  rw [ptr, setPtr, ByteMem.readLE_writeLE, show 256 ^ 8 = 2 ^ 64 from rfl, Nat.mod_eq_of_lt hq]

theorem ptr_setPtr_of_ne (hr : Apart p r) (hne : r ≠ p) : (h.setPtr p q).ptr r = h.ptr r := by
  have hr := hr.resolve_left hne
  rw [ptr, setPtr, ByteMem.readLE_writeLE_of_disjoint, ptr]
  unfold HEADER at hr
  omega

theorem size_setPtr (hr : Apart p r) : (h.setPtr p q).size r = h.size r := by
  rw [size, setPtr, ByteMem.readLE_writeLE_of_disjoint, size]
  unfold Apart HEADER at hr
  omega

theorem ptr_setSize (hr : Apart p r) : (h.setSize p n).ptr r = h.ptr r := by
  rw [ptr, setSize, ByteMem.readLE_writeLE_of_disjoint, ptr]
  unfold Apart HEADER at hr
  omega

@[simp] theorem size_setSize_self : (h.setSize p n).size p = n := by
  have hlt : n.toNat < 256 ^ 4 := n.toNat_lt
  rw [size, setSize, ByteMem.readLE_writeLE, Nat.mod_eq_of_lt hlt, UInt32.ofNat_toNat]

theorem size_setSize_of_ne (hr : Apart p r) (hne : r ≠ p) : (h.setSize p n).size r = h.size r := by
  have hr := hr.resolve_left hne
  rw [size, setSize, ByteMem.readLE_writeLE_of_disjoint, size]
  unfold HEADER at hr
  omega

theorem mem_setPtr (hx : x < p ∨ p + HEADER ≤ x) : (h.setPtr p q).mem x = h.mem x := by
  refine ByteMem.writeLE_of_outside ?_
  unfold HEADER at hx
  omega

theorem mem_setSize (hx : x < p ∨ p + HEADER ≤ x) : (h.setSize p n).mem x = h.mem x := by
  refine ByteMem.writeLE_of_outside ?_
  unfold HEADER at hx
  omega

theorem size_freep (h : Heap) (p a : ℕ) : ({ h with freep := p } : Heap).size a = h.size a := rfl

/-! ### Blocks -/

/-- The bytes of a block. -/
def block (h : Heap) (p : ℕ) : ℕ × ℕ := (p, HEADER * (h.size p).toNat)

/-- The memory that `sbrk` has returned. -/
def memory (h : Heap) : Set ℕ := {x | ∃ r ∈ h.regions, x ∈ Tile.points r}

/-- The blocks of a list, `base` apart, tile the memory. -/
structure Blocks (h : Heap) (l : List ℕ) : Prop where
  tiles : Tiles (l.map h.block) h.memory
  nodup : l.Nodup
  base_size : h.size h.base = 0
  base_pos : h.base ≠ 0
  pos : ∀ a ∈ l, a ≠ h.base → h.size a ≠ 0
  above : ∀ x ∈ h.memory, h.base + HEADER ≤ x ∧ x < h.top
  top_le : h.top ≤ 2 ^ 36
  base_le : h.base + HEADER ≤ h.top

theorem size_pos {n : UInt32} (h : n ≠ 0) : 0 < n.toNat :=
  Nat.pos_of_ne_zero fun h0 => h (UInt32.toNat_inj.mp h0)

namespace Blocks

/-- A block is memory, and begins with its header. -/
theorem inside (h₀ : h.Blocks l) (ha : a ∈ l) (hne : a ≠ h.base) :
    h.base + HEADER ≤ a ∧ a + HEADER ≤ h.stop a ∧ h.stop a ≤ h.top := by
  have hpos := size_pos (h₀.pos a ha hne)
  have hsub := h₀.tiles.subset (List.mem_map_of_mem ha)
  have hfirst : a ∈ Tile.points (h.block a) := by
    refine ⟨le_rfl, ?_⟩
    show a < a + HEADER * (h.size a).toNat
    unfold HEADER
    omega
  have hlast : h.stop a - 1 ∈ Tile.points (h.block a) := by
    unfold stop
    refine ⟨?_, ?_⟩
    · show a ≤ a + HEADER * (h.size a).toNat - 1
      unfold HEADER
      omega
    · show a + HEADER * (h.size a).toNat - 1 < a + HEADER * (h.size a).toNat
      unfold HEADER
      omega
  have h1 := (h₀.above a (hsub hfirst)).1
  have h2 := (h₀.above _ (hsub hlast)).2
  unfold stop HEADER at *
  omega

/-- Different blocks do not overlap. -/
theorem disjoint (h₀ : h.Blocks l) (ha : a ∈ l) (hb : b ∈ l) (hne : a ≠ b)
    (hx : x ∈ Tile.points (h.block a)) : x ∉ Tile.points (h.block b) := by
  have hpair := List.pairwise_map.mp h₀.tiles.disjoint
  have : Std.Symm fun c d => ∀ y ∈ Tile.points (h.block c), y ∉ Tile.points (h.block d) :=
    ⟨fun c d hcd y hy hy' => hcd y hy' hy⟩
  exact hpair.forall ha hb hne x hx

theorem stop_le_of_lt (h₀ : h.Blocks l) (ha : a ∈ l) (hb : b ∈ l) (hlt : a < b) : h.stop a ≤ b := by
  rcases eq_or_ne b h.base with rfl | hbb
  · rcases eq_or_ne a h.base with rfl | hab
    · exact absurd hlt (lt_irrefl _)
    · have := (h₀.inside ha hab).1
      omega
  · by_contra hle
    have hin := h₀.inside hb hbb
    refine h₀.disjoint ha hb hlt.ne (x := b) ⟨hlt.le, ?_⟩ ⟨le_rfl, ?_⟩
    · unfold stop at hle
      exact not_le.mp hle
    · have := hin.2.1
      unfold stop HEADER at this
      show b < b + HEADER * (h.size b).toNat
      unfold HEADER
      omega

/-- The headers of the blocks and of `base` do not overlap. -/
theorem apart (h₀ : h.Blocks l) (ha : a ∈ l) (hb : b ∈ l) : Apart a b := by
  rcases lt_trichotomy a b with hlt | rfl | hgt
  · refine .inr (.inl ?_)
    rcases eq_or_ne a h.base with rfl | hne
    · have := h₀.inside hb hlt.ne'
      omega
    · have := (h₀.inside ha hne).2.1
      have := h₀.stop_le_of_lt ha hb hlt
      omega
  · exact .inl rfl
  · refine .inr (.inr ?_)
    rcases eq_or_ne b h.base with rfl | hne
    · have := h₀.inside ha hgt.ne'
      omega
    · have := (h₀.inside hb hne).2.1
      have := h₀.stop_le_of_lt hb ha hgt
      omega

theorem perm (h₀ : h.Blocks l) (hp : l.Perm l') : h.Blocks l' where
  tiles := h₀.tiles.perm (hp.map _)
  nodup := hp.nodup_iff.mp h₀.nodup
  base_size := h₀.base_size
  base_pos := h₀.base_pos
  pos := fun a ha => h₀.pos a (hp.mem_iff.mpr ha)
  above := h₀.above
  top_le := h₀.top_le
  base_le := h₀.base_le

end Blocks

/-- Nothing but bytes has changed. -/
structure SameVars (h h' : Heap) : Prop where
  base : h'.base = h.base
  top : h'.top = h.top
  regions : h'.regions = h.regions
  answers : h'.answers = h.answers

theorem SameVars.trans {h'' : Heap} (h₁ : SameVars h h') (h₂ : SameVars h' h'') : SameVars h h'' :=
  ⟨h₂.base.trans h₁.base, h₂.top.trans h₁.top, h₂.regions.trans h₁.regions, h₂.answers.trans h₁.answers⟩

theorem SameVars.setFreep (h₀ : SameVars h h') (p : ℕ) : SameVars h { h' with freep := p } :=
  ⟨h₀.base, h₀.top, h₀.regions, h₀.answers⟩

theorem SameVars.memory (h₀ : SameVars h h') : h'.memory = h.memory := by
  rw [Heap.memory, Heap.memory, h₀.regions]

namespace Blocks

/-- Other blocks tile the same memory. -/
theorem retile (h₀ : h.Blocks l) (hv : SameVars h h') (htiles : Tiles (l'.map h'.block) h.memory)
    (hnodup : l'.Nodup) (hbase : h'.size h.base = h.size h.base)
    (hpos : ∀ a ∈ l', a ≠ h.base → h'.size a ≠ 0) : h'.Blocks l' := by
  obtain ⟨-, -, base_size, base_pos, -, above, top_le, base_le⟩ := h₀
  rw [← hv.base, ← hv.top] at *
  exact ⟨hv.memory ▸ htiles, hnodup, hbase.trans base_size, base_pos, hpos, hv.memory ▸ above, top_le, base_le⟩

/-- The sizes have not changed. -/
theorem congr (h₀ : h.Blocks l) (hv : SameVars h h') (hsize : ∀ a ∈ l, h'.size a = h.size a)
    (hbase : h'.size h.base = h.size h.base) : h'.Blocks l := by
  have hmap : l.map h'.block = l.map h.block :=
    List.map_congr_left fun a ha => by rw [block, block, hsize a ha]
  refine h₀.retile hv (hmap ▸ h₀.tiles) h₀.nodup hbase fun a ha hne => ?_
  rw [hsize a ha]
  exact h₀.pos a ha hne

end Blocks

/-! ### The circle -/

/-- The free blocks `F`, with `base` first, and the others `A`. -/
structure Inv (h : Heap) (F A : List ℕ) : Prop where
  blocks : h.Blocks (F ++ A)
  first : F.head? = some h.base
  linked : Linked h.ptr (F ++ [h.base])
  gaps : F.IsChain fun a b => h.stop a < b
  freep : h.freep ∈ F

namespace Inv

theorem eq_cons (h₀ : h.Inv F A) : ∃ L, F = h.base :: L := by
  cases F with
  | nil => cases h₀.first
  | cons b L =>
    obtain rfl := Option.some.inj h₀.first
    exact ⟨L, rfl⟩

theorem mem_append (_ : h.Inv F A) (ha : a ∈ F) : a ∈ F ++ A := List.mem_append_left A ha

theorem base_mem (h₀ : h.Inv F A) : h.base ∈ F := by
  obtain ⟨L, hL⟩ := h₀.eq_cons
  exact hL ▸ List.mem_cons_self

theorem sorted (h₀ : h.Inv F A) : F.Pairwise (· < ·) := by
  refine List.isChain_iff_pairwise.mp (h₀.gaps.imp fun a b hab => ?_)
  unfold stop at hab
  omega

theorem base_notMem (h₀ : h.Inv F A) : h.base ∉ A := by
  intro hb
  exact (List.nodup_append.mp h₀.blocks.nodup).2.2 _ h₀.base_mem _ hb rfl

/-- A block that is not free. -/
theorem allocated (h₀ : h.Inv F A) (ha : a ∈ A) : a ∈ F ++ A ∧ a ∉ F ∧ a ≠ h.base := by
  refine ⟨List.mem_append_right F ha, ?_, ?_⟩
  · intro haF
    exact (List.nodup_append.mp h₀.blocks.nodup).2.2 a haF a ha rfl
  · rintro rfl
    exact h₀.base_notMem ha

theorem base_lt (h₀ : h.Inv F A) (ha : a ∈ F ++ A) (hne : a ≠ h.base) : h.base < a := by
  have := (h₀.blocks.inside ha hne).1
  unfold HEADER at this
  omega

end Inv

/-- The headers have not changed. -/
theorem Inv.congr (h₀ : h.Inv F A) (hv : SameVars h h') (hfreep : h'.freep = h.freep)
    (hsize : ∀ a ∈ F ++ A, h'.size a = h.size a) (hptr : ∀ a ∈ F, h'.ptr a = h.ptr a) : h'.Inv F A := by
  constructor
  case blocks => exact h₀.blocks.congr hv hsize (hsize _ (h₀.mem_append h₀.base_mem))
  case first => exact hv.base ▸ h₀.first
  case linked =>
    rw [hv.base]
    refine h₀.linked.congr fun z hz => ?_
    rw [List.dropLast_concat] at hz
    exact hptr z hz
  case gaps =>
    refine h₀.gaps.imp_of_mem_imp fun a b ha _ hab => ?_
    rw [stop, hsize a (h₀.mem_append ha)]
    exact hab
  case freep => exact hfreep ▸ h₀.freep

/-! ### Finding the place of a block -/

/-- The loop of `free` ends at `p`. -/
def Stops (h : Heap) (bp p : ℕ) : Prop :=
  bp > p ∧ bp < h.ptr p ∨ p ≥ h.ptr p ∧ (bp > p ∨ bp < h.ptr p)

theorem findPlace_of_stops {m : ℕ} (hs : h.Stops bp p) : h.findPlace bp (m + 1) p = some p := by
  rw [findPlace]
  by_cases h1 : bp > p ∧ bp < h.ptr p
  · rw [if_pos h1]
  · rw [if_neg h1, if_pos (hs.resolve_left h1)]

theorem findPlace_of_not_stops {m : ℕ} (hs : ¬ h.Stops bp p) :
    h.findPlace bp (m + 1) p = h.findPlace bp m (h.ptr p) := by
  rw [Stops, not_or] at hs
  rw [findPlace, if_neg hs.1, if_neg hs.2]

/-- A loop over a linked list that ends at one of its elements only. -/
theorem findPlace_linked {m z : ℕ} {l : List ℕ} (hl : Linked h.ptr (q :: l ++ [z])) (hp : p ∈ q :: l)
    (hs : ∀ x ∈ q :: l, h.Stops bp x ↔ x = p) (hm : l.length < m) : h.findPlace bp m q = some p := by
  induction l generalizing q m with
  | nil =>
    obtain rfl := List.mem_singleton.mp hp
    obtain ⟨m, rfl⟩ := Nat.exists_eq_add_one_of_ne_zero (Nat.ne_zero_of_lt hm)
    exact findPlace_of_stops ((hs p List.mem_cons_self).mpr rfl)
  | cons r l ih =>
    obtain ⟨m, rfl⟩ := Nat.exists_eq_add_one_of_ne_zero (Nat.ne_zero_of_lt hm)
    rcases eq_or_ne q p with rfl | hne
    · exact findPlace_of_stops ((hs q List.mem_cons_self).mpr rfl)
    · have hnot : ¬ h.Stops bp q := fun hq => hne ((hs q List.mem_cons_self).mp hq)
      obtain ⟨hr, htail⟩ := Linked.cons_cons.mp hl
      rw [findPlace_of_not_stops hnot, hr]
      refine ih htail ?_ (fun x hx => hs x (List.mem_cons_of_mem q hx)) ?_
      · exact (List.mem_cons.mp hp).resolve_left (Ne.symm hne)
      · rw [List.length_cons] at hm
        omega

theorem rounds_eq : rounds = 2 ^ 66 := by rw [rounds]

/-- A free list is short: its blocks are different addresses. -/
theorem Inv.length_le (h₀ : h.Inv F A) : F.length ≤ 2 ^ 36 := by
  have hsub : F ⊆ List.range (2 ^ 36) := by
    intro a ha
    refine List.mem_range.mpr (lt_of_lt_of_le ?_ h₀.blocks.top_le)
    rcases eq_or_ne a h.base with rfl | hne
    · have := h₀.blocks.base_le
      unfold HEADER at this
      omega
    · have := h₀.blocks.inside (h₀.mem_append ha) hne
      unfold HEADER at this
      omega
  have hnodup : F.Nodup := (List.nodup_append.mp h₀.blocks.nodup).1
  exact (List.subperm_of_subset hnodup hsub).length_le.trans List.length_range.le

/-- The place of a block in the circle. -/
structure Place (h : Heap) (F : List ℕ) (bp : ℕ) (C : List ℕ) (p : ℕ) (B : List ℕ) : Prop where
  eq : F = C ++ p :: B
  below : ∀ y ∈ C, y < p
  lt : p < bp
  above : ∀ y ∈ B, bp < y

theorem Inv.exists_place (h₀ : h.Inv F (bp :: A)) : ∃ C p B, Place h F bp C p B := by
  obtain ⟨L, hL⟩ := h₀.eq_cons
  obtain ⟨hbp, hbpF, hne⟩ := h₀.allocated List.mem_cons_self
  have hsorted := h₀.sorted
  rw [hL] at hsorted hbpF
  obtain ⟨C, p, B, heq, hC, hp, hB⟩ :=
    List.exists_place hsorted (h₀.base_lt hbp hne) (fun hx => hbpF (List.mem_cons_of_mem _ hx))
  exact ⟨C, p, B, hL.trans heq, hC, hp, hB⟩

/-- What an element of the circle points to: the next one, or `base` from the last one. -/
theorem Inv.next_cases (h₀ : h.Inv F A) (hx : x ∈ F) :
    (h.ptr x ∈ F ∧ x < h.ptr x ∧ ∀ y ∈ F, y ≤ x ∨ h.ptr x ≤ y) ∨
      (h.ptr x = h.base ∧ ∀ y ∈ F, y ≤ x) := by
  obtain ⟨C, B, rfl⟩ := List.append_of_mem hx
  have hlinked := h₀.linked
  rw [List.append_assoc, List.cons_append, Linked.append_iff] at hlinked
  obtain ⟨-, htail, hlt⟩ := List.pairwise_append.mp h₀.sorted
  obtain ⟨hxB, hB⟩ := List.pairwise_cons.mp htail
  have hC : ∀ y ∈ C, y ≤ x := fun y hy => (hlt y hy x List.mem_cons_self).le
  cases B with
  | nil =>
    refine .inr ⟨(Linked.cons_cons.mp hlinked.2).1, fun y hy => ?_⟩
    rcases List.mem_append.mp hy with hy | hy
    · exact hC y hy
    · exact (List.mem_singleton.mp hy).le
  | cons z B =>
    have hz : h.ptr x = z := (Linked.cons_cons.mp hlinked.2).1
    rw [hz]
    refine .inl ⟨by simp, hxB z List.mem_cons_self, fun y hy => ?_⟩
    rcases List.mem_append.mp hy with hy | hy
    · exact .inl (hC y hy)
    · rcases List.mem_cons.mp hy with rfl | hy
      · exact .inl le_rfl
      · rcases List.mem_cons.mp hy with rfl | hy
        · exact .inr le_rfl
        · exact .inr ((List.pairwise_cons.mp hB).1 y hy).le

theorem Place.mem (hpl : Place h F bp C p B) : p ∈ F := hpl.eq ▸ by simp

/-- The elements of the circle up to the place, and those after it. -/
theorem Place.le_or_lt (hpl : Place h F bp C p B) (hx : x ∈ F) : x ≤ p ∨ bp < x := by
  rw [hpl.eq] at hx
  rcases List.mem_append.mp hx with hx | hx
  · exact .inl (hpl.below x hx).le
  · rcases List.mem_cons.mp hx with rfl | hx
    · exact .inl le_rfl
    · exact .inr (hpl.above x hx)

theorem Inv.stops_iff (h₀ : h.Inv F (bp :: A)) (hpl : Place h F bp C p B) (hx : x ∈ F) :
    h.Stops bp x ↔ x = p := by
  obtain ⟨hbp, -, hne⟩ := h₀.allocated List.mem_cons_self
  have hbase := h₀.base_lt hbp hne
  have hlt := hpl.lt
  have hxp := hpl.le_or_lt hx
  unfold Stops
  rcases h₀.next_cases hx with ⟨hmem, hlt', hnext⟩ | ⟨hptr, hlast⟩
  · have hp := hnext p hpl.mem
    have hnp := hpl.le_or_lt hmem
    constructor
    · intro hs
      omega
    · rintro rfl
      omega
  · have hp := hlast p hpl.mem
    have hb := hlast h.base h₀.base_mem
    rw [hptr]
    constructor
    · intro hs
      omega
    · rintro rfl
      omega

/-- The loop of `free` finds the place of the block. -/
theorem Inv.findPlace (h₀ : h.Inv F (bp :: A)) (hpl : Place h F bp C p B) :
    h.findPlace bp rounds h.freep = some p := by
  obtain ⟨C', B', hF⟩ := List.append_of_mem h₀.freep
  obtain ⟨L, hL⟩ := h₀.eq_cons
  have hlinked : Linked h.ptr (h.freep :: (B' ++ C') ++ [h.freep]) := by
    have := Linked.rotate (hL ▸ h₀.linked) (hL.symm.trans hF)
    simpa using this
  have hmem : ∀ x, x ∈ h.freep :: (B' ++ C') ↔ x ∈ F := by
    intro x
    rw [hF]
    simp only [List.mem_cons, List.mem_append]
    tauto
  refine findPlace_linked hlinked ((hmem p).mpr hpl.mem) (fun x hx => h₀.stops_iff hpl ((hmem x).mp hx)) ?_
  have hlen := h₀.length_le
  rw [hF] at hlen
  simp only [List.length_append, List.length_cons] at hlen ⊢
  rw [rounds_eq]
  omega

/-! ### Joining blocks -/

namespace Blocks

/-- The sizes of two blocks that touch add up without overflow. -/
theorem add_lt (h₀ : h.Blocks (a :: b :: l)) (ha : a ≠ h.base) (hb : b ≠ h.base) (htouch : h.stop a = b) :
    (h.size a + h.size b).toNat = (h.size a).toNat + (h.size b).toNat := by
  have hia := h₀.inside List.mem_cons_self ha
  have hib := h₀.inside (List.mem_cons_of_mem a List.mem_cons_self) hb
  have htop := h₀.top_le
  rw [UInt32.toNat_add, Nat.mod_eq_of_lt]
  unfold stop HEADER at *
  omega

/-- Two blocks that touch become one. -/
theorem join (h₀ : h.Blocks (a :: b :: l)) (ha : a ≠ h.base) (hb : b ≠ h.base) (htouch : h.stop a = b)
    (hv : SameVars h h') (hsize : h'.size a = h.size a + h.size b)
    (hothers : ∀ c, c ∈ l ∨ c = h.base → c ≠ a → h'.size c = h.size c) : h'.Blocks (a :: l) := by
  have hnodup := List.nodup_cons.mp h₀.nodup
  have hal : a ∉ l := fun hal => hnodup.1 (List.mem_cons_of_mem b hal)
  have hadd := h₀.add_lt ha hb htouch
  have hblock : h'.block a = (a, HEADER * (h.size a).toNat + HEADER * (h.size b).toNat) := by
    rw [block, hsize, hadd, Nat.mul_add]
  have hmap : l.map h'.block = l.map h.block := by
    refine List.map_congr_left fun c hc => ?_
    rw [block, block, hothers c (.inl hc)]
    rintro rfl
    exact hal hc
  have htiles := h₀.tiles
  have hb' : h.block b = (a + HEADER * (h.size a).toNat, HEADER * (h.size b).toNat) := by
    rw [block, ← htouch, stop]
  rw [List.map_cons, List.map_cons, hb'] at htiles
  refine h₀.retile hv ?_ (List.nodup_cons.mpr ⟨hal, (List.nodup_cons.mp hnodup.2).2⟩)
    (hothers h.base (.inr rfl) ha.symm) fun c hc hne h0 => ?_
  · rw [List.map_cons, hblock, hmap]
    exact Tiles.split_iff.mpr htiles
  · rcases List.mem_cons.mp hc with rfl | hcl
    · have hpos := size_pos (h₀.pos c List.mem_cons_self ha)
      have := congrArg UInt32.toNat (hsize.symm.trans h0)
      rw [hadd] at this
      simp only [UInt32.toNat_zero] at this
      omega
    · have hca : c ≠ a := by
        rintro rfl
        exact hal hcl
      rw [hothers c (.inl hcl) hca] at h0
      exact h₀.pos c (by simp [hcl]) hne h0

end Blocks

/-- The first half of the end of `free`: the block and the free block after the place. -/
def joinNext (h : Heap) (bp p : ℕ) : Heap :=
  if h.stop bp = h.ptr p then
    let h := h.setSize bp (h.size bp + h.size (h.ptr p))
    h.setPtr bp (h.ptr (h.ptr p))
  else h.setPtr bp (h.ptr p)

/-- The second half: the place and the block. -/
def joinPrev (h : Heap) (bp p : ℕ) : Heap :=
  if h.stop p = bp then
    let h := h.setSize p (h.size p + h.size bp)
    h.setPtr p (h.ptr bp)
  else h.setPtr p bp

theorem insertAt_eq (h : Heap) (bp p : ℕ) :
    h.insertAt bp p = { (h.joinNext bp p).joinPrev bp p with freep := p } := rfl

theorem sameVars_setPtr (h : Heap) (p q : ℕ) : SameVars h (h.setPtr p q) := ⟨rfl, rfl, rfl, rfl⟩

theorem stop_congr (hs : h'.size a = h.size a) : h'.stop a = h.stop a := by rw [stop, stop, hs]

/-- The gaps depend on the sizes of all but the last block. -/
theorem gaps_congr (hg : l.IsChain fun a b => h.stop a < b)
    (hs : ∀ a ∈ l.dropLast, h'.size a = h.size a) : l.IsChain fun a b => h'.stop a < b := by
  induction l with
  | nil => exact .nil
  | cons a l ih =>
    cases l with
    | nil => exact .singleton a
    | cons b l =>
      rw [List.dropLast_cons_cons] at hs
      obtain ⟨hab, htail⟩ := List.isChain_cons_cons.mp hg
      refine List.isChain_cons_cons.mpr ⟨?_, ih htail fun c hc => hs c (List.mem_cons_of_mem a hc)⟩
      rw [stop_congr (hs a List.mem_cons_self)]
      exact hab

/-- Of the headers of `l` only that of `a` has changed. -/
structure Rewired (h h' : Heap) (l : List ℕ) (a : ℕ) : Prop where
  size : ∀ x ∈ l, x ≠ a → h'.size x = h.size x
  ptr : ∀ x ∈ l, x ≠ a → h'.ptr x = h.ptr x

namespace Rewired

variable (hr : Rewired h h' l a)

include hr

/-- A stretch without `a` stays linked. -/
theorem linked (hl : Linked h.ptr (l' ++ [x])) (hsub : ∀ y ∈ l', y ∈ l ∧ y ≠ a) :
    Linked h'.ptr (l' ++ [x]) := by
  refine hl.congr fun y hy => ?_
  rw [List.dropLast_concat] at hy
  exact hr.ptr y (hsub y hy).1 (hsub y hy).2

/-- `a` takes the place of `b` in front of a stretch. -/
theorem linked_cons (hl : Linked h.ptr (b :: l' ++ [x])) (hptr : h'.ptr a = h.ptr b)
    (hsub : ∀ y ∈ l', y ∈ l ∧ y ≠ a) : Linked h'.ptr (a :: l' ++ [x]) := by
  have hrest := hr.linked hl.tail hsub
  cases l' <;> exact Linked.cons_cons.mpr ⟨hptr.trans (Linked.cons_cons.mp hl).1, hrest⟩

theorem gaps (hg : l'.IsChain fun a b => h.stop a < b) (hsub : ∀ y ∈ l'.dropLast, y ∈ l ∧ y ≠ a) :
    l'.IsChain fun a b => h'.stop a < b :=
  gaps_congr hg fun y hy => hr.size y (hsub y hy).1 (hsub y hy).2

theorem gaps_cons (hg : (b :: l').IsChain fun a b => h.stop a < b) (hstop : h'.stop a = h.stop b)
    (hsub : ∀ y ∈ l', y ∈ l ∧ y ≠ a) : (a :: l').IsChain fun a b => h'.stop a < b := by
  have hrest := hr.gaps hg.tail fun y hy => hsub y (List.dropLast_subset _ hy)
  cases l' with
  | nil => exact .singleton a
  | cons c l' =>
    refine List.isChain_cons_cons.mpr ⟨?_, hrest⟩
    rw [hstop]
    exact (List.isChain_cons_cons.mp hg).1

end Rewired

theorem rewired_setPtr (h₀ : h.Blocks l) (ha : a ∈ l) : Rewired h (h.setPtr a q) l a :=
  ⟨fun _ hx _ => size_setPtr (h₀.apart ha hx), fun _ hx => ptr_setPtr_of_ne (h₀.apart ha hx)⟩

/-- The block has been joined with what follows, and not yet with the place. -/
structure Mid (h : Heap) (C : List ℕ) (p bp : ℕ) (B A : List ℕ) : Prop where
  blocks : h.Blocks (C ++ p :: bp :: (B ++ A))
  first : (C ++ [p]).head? = some h.base
  linked₁ : Linked h.ptr (C ++ [p])
  linked₂ : Linked h.ptr (bp :: B ++ [h.base])
  gaps₁ : (C ++ [p]).IsChain fun a b => h.stop a < b
  gaps₂ : (bp :: B).IsChain fun a b => h.stop a < b
  le : h.stop p ≤ bp
  lt : p < bp

/-- Block `a` takes over block `b`, and points to `v`. -/
def joined (h : Heap) (a b v : ℕ) : Heap := (h.setSize a (h.size a + h.size b)).setPtr a v

section Joined

variable {v : ℕ} (h₀ : h.Blocks l) (ha : a ∈ l)

theorem sameVars_joined : SameVars h (h.joined a b v) := ⟨rfl, rfl, rfl, rfl⟩

theorem size_joined_self : (h.joined a b v).size a = h.size a + h.size b := by
  rw [joined, size_setPtr (.inl rfl), size_setSize_self]

theorem ptr_joined_self (hv : v < 2 ^ 64) : (h.joined a b v).ptr a = v := ptr_setPtr_self hv

include h₀ ha

theorem rewired_joined : Rewired h (h.joined a b v) l a where
  size := fun x hx hne => by
    rw [joined, size_setPtr (h₀.apart ha hx), size_setSize_of_ne (h₀.apart ha hx) hne]
  ptr := fun x hx hne => by
    rw [joined, ptr_setPtr_of_ne (h₀.apart ha hx) hne, ptr_setSize (h₀.apart ha hx)]

theorem blocks_joined (hperm : l.Perm (a :: b :: l')) (hbase : h.base ∈ l) (hab : a ≠ h.base)
    (hbb : b ≠ h.base) (htouch : h.stop a = b) : (h.joined a b v).Blocks (a :: l') := by
  refine (h₀.perm hperm).join hab hbb htouch sameVars_joined size_joined_self ?_
  intro c hc hne
  refine (rewired_joined h₀ ha).size c ?_ hne
  rcases hc with hc | rfl
  · exact hperm.mem_iff.mpr (by simp [hc])
  · exact hbase

omit ha in
theorem stop_joined (hperm : l.Perm (a :: b :: l')) (hab : a ≠ h.base) (hbb : b ≠ h.base)
    (htouch : h.stop a = b) : (h.joined a b v).stop a = h.stop b := by
  have hadd := (h₀.perm hperm).add_lt hab hbb htouch
  rw [stop, size_joined_self, hadd, stop, ← htouch, stop, Nat.mul_add, Nat.add_assoc]

end Joined

section JoinNext

variable (h₀ : h.Inv F (bp :: A)) (hpl : Place h F bp C p B)

include h₀ hpl

omit h₀ in
theorem place_perm : (F ++ bp :: A).Perm (C ++ p :: bp :: (B ++ A)) := by
  rw [hpl.eq, List.append_assoc, List.cons_append]
  exact List.Perm.append_left C (List.Perm.cons p List.perm_middle)

theorem place_blocks : h.Blocks (C ++ p :: bp :: (B ++ A)) := h₀.blocks.perm (place_perm hpl)

theorem place_base : h.base ∈ C ++ p :: bp :: (B ++ A) :=
  (place_perm hpl).mem_iff.mp (h₀.mem_append h₀.base_mem)

theorem place_linked : Linked h.ptr (C ++ [p]) ∧ Linked h.ptr (p :: B ++ [h.base]) := by
  have hl := h₀.linked
  rw [hpl.eq, List.append_assoc, List.cons_append, Linked.append_iff] at hl
  exact hl

theorem place_gaps : ((C ++ [p]).IsChain fun a b => h.stop a < b) ∧
    (p :: B).IsChain fun a b => h.stop a < b := by
  have hg := h₀.gaps
  rw [hpl.eq] at hg
  exact List.isChain_split.mp hg

theorem place_first : (C ++ [p]).head? = some h.base := by
  have hf := h₀.first
  rw [hpl.eq] at hf
  cases C <;> exact hf

theorem place_ne : bp ≠ h.base ∧ (∀ x ∈ C, x ∈ C ++ p :: bp :: (B ++ A) ∧ x ≠ bp) ∧
    ∀ x ∈ B, x ∈ C ++ p :: bp :: (B ++ A) ∧ x ≠ bp := by
  refine ⟨(h₀.allocated List.mem_cons_self).2.2, fun x hx => ⟨by simp [hx], ?_⟩,
    fun x hx => ⟨by simp [hx], (hpl.above x hx).ne'⟩⟩
  exact ((hpl.below x hx).trans hpl.lt).ne

omit h₀ hpl in
theorem mem_left (hx : x ∈ C ++ [p]) : x ∈ C ++ p :: l := by
  rcases List.mem_append.mp hx with hx | hx
  · exact List.mem_append_left _ hx
  · exact List.mem_append_right C (List.mem_cons.mpr (.inl (List.mem_singleton.mp hx)))

omit h₀ hpl in
theorem mem_right (hx : x ∈ bp :: B) : x ∈ C ++ p :: bp :: (B ++ A) := by
  refine List.mem_append_right C (List.mem_cons_of_mem p ?_)
  rw [← List.cons_append]
  exact List.mem_append_left A hx

/-- The block does not touch what follows. -/
theorem joinNext_apart (hne : h.stop bp ≠ h.ptr p) : Mid (h.setPtr bp (h.ptr p)) C p bp B A := by
  have hblocks := place_blocks h₀ hpl
  obtain ⟨hC, hB⟩ := place_linked h₀ hpl
  obtain ⟨hgC, hgB⟩ := place_gaps h₀ hpl
  obtain ⟨-, hsubC, hsubB⟩ := place_ne h₀ hpl
  have hbpmem : bp ∈ C ++ p :: bp :: (B ++ A) := by simp
  have hsize : ∀ a ∈ C ++ p :: bp :: (B ++ A), (h.setPtr bp (h.ptr p)).size a = h.size a :=
    fun a ha => size_setPtr (hblocks.apart hbpmem ha)
  have hr : Rewired h (h.setPtr bp (h.ptr p)) _ bp := rewired_setPtr hblocks hbpmem
  have hfirst := place_first h₀ hpl
  constructor
  case blocks => exact hblocks.congr (sameVars_setPtr ..) hsize (hsize _ (place_base h₀ hpl))
  case first => exact hfirst
  case linked₁ => exact hr.linked hC hsubC
  case linked₂ => exact hr.linked_cons hB (ptr_setPtr_self (ByteMem.readLE_lt ..)) hsubB
  case gaps₁ => exact gaps_congr hgC fun a ha => hsize a (mem_left (List.dropLast_subset _ ha))
  case gaps₂ =>
    refine gaps_congr ?_ fun a ha => hsize a (mem_right (List.dropLast_subset _ ha))
    cases B with
    | nil => exact .singleton bp
    | cons q B =>
      have hq : h.ptr p = q := (Linked.cons_cons.mp hB).1
      have hle := hblocks.stop_le_of_lt hbpmem (hsubB q List.mem_cons_self).1 (hpl.above q List.mem_cons_self)
      exact List.isChain_cons_cons.mpr ⟨lt_of_le_of_ne hle (hq ▸ hne), hgB.tail⟩
  case le =>
    rw [stop_congr (hsize p (by simp))]
    exact hblocks.stop_le_of_lt (by simp) hbpmem hpl.lt
  case lt => exact hpl.lt

/-- The block is joined with the free block that follows. -/
theorem joinNext_touch (htouch : h.stop bp = h.ptr p) :
    ∃ B', Mid (h.joinNext bp p) C p bp B' A ∧ SameVars h (h.joinNext bp p) ∧
      (h.size bp).toNat ≤ ((h.joinNext bp p).size bp).toNat := by
  have hblocks := place_blocks h₀ hpl
  obtain ⟨hC, hB⟩ := place_linked h₀ hpl
  obtain ⟨hgC, hgB⟩ := place_gaps h₀ hpl
  obtain ⟨hbpb, hsubC, hsubB⟩ := place_ne h₀ hpl
  have hbpmem : bp ∈ C ++ p :: bp :: (B ++ A) := by simp
  have hpmem : p ∈ C ++ p :: bp :: (B ++ A) := by simp
  have hfirst := place_first h₀ hpl
  cases B with
  | nil =>
    -- the last free block points to `base`, which is below every block
    have hq : h.ptr p = h.base := (Linked.cons_cons.mp hB).1
    have := hblocks.inside hbpmem hbpb
    unfold HEADER at this
    omega
  | cons q B =>
    obtain ⟨hq, hB⟩ := Linked.cons_cons.mp hB
    have hqmem := (hsubB q List.mem_cons_self).1
    have hsub := fun x hx => hsubB x (List.mem_cons_of_mem q hx)
    have hqb : q ≠ h.base := by
      have := h₀.base_lt (h₀.allocated List.mem_cons_self).1 hbpb
      have := hpl.above q List.mem_cons_self
      omega
    have hjoin : h.joinNext bp p = h.joined bp q (h.ptr q) := by
      rw [joinNext, if_pos htouch]
      dsimp only
      rw [ptr_setSize (hblocks.apart hbpmem hpmem), hq, ptr_setSize (hblocks.apart hbpmem hqmem)]
      rfl
    have hperm : (C ++ p :: bp :: (q :: B ++ A)).Perm (bp :: q :: (C ++ [p] ++ (B ++ A))) := by
      rw [List.append_cons C p]
      exact List.perm_middle.trans (List.Perm.cons bp List.perm_middle)
    have hr : Rewired h (h.joined bp q (h.ptr q)) _ bp := rewired_joined hblocks hbpmem
    rw [hjoin]
    refine ⟨B, ?_, sameVars_joined, ?_⟩
    · constructor
      case blocks =>
        refine (blocks_joined hblocks hbpmem hperm (place_base h₀ hpl) hbpb hqb (htouch.trans hq)).perm ?_
        rw [List.append_cons C p (bp :: (B ++ A))]
        exact List.perm_middle.symm
      case first => exact hfirst
      case linked₁ => exact hr.linked hC hsubC
      case linked₂ => exact hr.linked_cons hB (ptr_joined_self (ByteMem.readLE_lt ..)) hsub
      case gaps₁ =>
        refine hr.gaps hgC fun a ha => hsubC a ?_
        rwa [List.dropLast_concat] at ha
      case gaps₂ => exact hr.gaps_cons hgB.tail (stop_joined hblocks hperm hbpb hqb (htouch.trans hq)) hsub
      case le =>
        rw [stop_congr (hr.size p hpmem hpl.lt.ne)]
        exact hblocks.stop_le_of_lt hpmem hbpmem hpl.lt
      case lt => exact hpl.lt
    · rw [size_joined_self, (hblocks.perm hperm).add_lt hbpb hqb (htouch.trans hq)]
      exact Nat.le_add_right ..

theorem joinNext_spec : ∃ B', Mid (h.joinNext bp p) C p bp B' A ∧ SameVars h (h.joinNext bp p) ∧
    (h.size bp).toNat ≤ ((h.joinNext bp p).size bp).toNat := by
  by_cases htouch : h.stop bp = h.ptr p
  · exact joinNext_touch h₀ hpl htouch
  · rw [joinNext, if_neg htouch]
    refine ⟨B, joinNext_apart h₀ hpl htouch, sameVars_setPtr .., ?_⟩
    rw [size_setPtr (.inl rfl)]

end JoinNext

/-! ### Joining with the place -/

section JoinPrev

variable (h₀ : Mid h C p bp B A)

include h₀

theorem Mid.base_mem : h.base ∈ C ++ p :: bp :: (B ++ A) := by
  have hf := h₀.first
  cases C with
  | nil =>
    cases hf
    exact List.mem_cons_self
  | cons c C =>
    cases hf
    exact List.mem_cons_self

theorem Mid.ne_place : (∀ x ∈ C, x ∈ C ++ p :: bp :: (B ++ A) ∧ x ≠ p) ∧
    ∀ x ∈ bp :: B, x ∈ C ++ p :: bp :: (B ++ A) ∧ x ≠ p := by
  have hnodup := List.nodup_append.mp h₀.blocks.nodup
  have hp := List.nodup_cons.mp hnodup.2.1
  refine ⟨fun x hx => ⟨by simp [hx], hnodup.2.2 x hx p List.mem_cons_self⟩,
    fun x hx => ⟨mem_right hx, ?_⟩⟩
  rintro rfl
  exact hp.1 (List.mem_append_left A hx)

theorem Mid.ne_base : bp ≠ h.base := by
  intro heq
  rcases eq_or_ne p h.base with hp | hp
  · exact h₀.lt.ne (hp.trans heq.symm)
  · have := h₀.blocks.inside (a := p) (by simp) hp
    have := h₀.lt
    omega

/-- The block does not touch the place. -/
theorem joinPrev_apart (hne : h.stop p ≠ bp) :
    ({ h.setPtr p bp with freep := p } : Heap).Inv (C ++ p :: bp :: B) A := by
  have hpmem : p ∈ C ++ p :: bp :: (B ++ A) := by simp
  obtain ⟨hsubC, hsubB⟩ := h₀.ne_place
  have hr : Rewired h (h.setPtr p bp) _ p := rewired_setPtr h₀.blocks hpmem
  have hsize : ∀ a ∈ C ++ p :: bp :: (B ++ A), (h.setPtr p bp).size a = h.size a :=
    fun a ha => size_setPtr (h₀.blocks.apart hpmem ha)
  have hbp : bp < 2 ^ 64 := by
    have := h₀.blocks.inside (a := bp) (by simp) h₀.ne_base
    have := h₀.blocks.top_le
    unfold HEADER at *
    omega
  have hlist : C ++ p :: bp :: B ++ A = C ++ p :: bp :: (B ++ A) := by simp
  constructor
  case blocks =>
    rw [hlist]
    exact h₀.blocks.congr ⟨rfl, rfl, rfl, rfl⟩ hsize (hsize _ h₀.base_mem)
  case first =>
    have hf := h₀.first
    cases C <;> exact hf
  case linked =>
    show Linked (h.setPtr p bp).ptr (C ++ p :: bp :: B ++ [h.base])
    rw [List.append_assoc, List.cons_append, Linked.append_iff]
    exact ⟨hr.linked h₀.linked₁ hsubC,
      Linked.cons_cons.mpr ⟨ptr_setPtr_self hbp, hr.linked h₀.linked₂ hsubB⟩⟩
  case gaps =>
    show (C ++ p :: bp :: B).IsChain fun a b => (h.setPtr p bp).stop a < b
    have hgaps : (C ++ p :: bp :: B).IsChain fun a b => h.stop a < b :=
      List.isChain_split.mpr ⟨h₀.gaps₁, List.isChain_cons_cons.mpr ⟨lt_of_le_of_ne h₀.le hne, h₀.gaps₂⟩⟩
    refine gaps_congr hgaps fun a ha => hsize a ?_
    rw [← hlist]
    exact List.mem_append_left A (List.dropLast_subset _ ha)
  case freep => exact List.mem_append_right C List.mem_cons_self

omit h₀ in
theorem perm_place : (C ++ p :: bp :: (B ++ A)).Perm (p :: bp :: (C ++ (B ++ A))) :=
  List.perm_middle.trans (List.Perm.cons p List.perm_middle)

/-- `base` touches nothing. -/
theorem Mid.place_ne_base (htouch : h.stop p = bp) : p ≠ h.base := by
  rintro rfl
  have := h₀.lt
  rw [← htouch, stop, h₀.blocks.base_size] at this
  simp at this

/-- The place takes the block over. -/
theorem joinPrev_touch (htouch : h.stop p = bp) :
    ({ h.joined p bp (h.ptr bp) with freep := p } : Heap).Inv (C ++ p :: B) A := by
  have hpmem : p ∈ C ++ p :: bp :: (B ++ A) := by simp
  obtain ⟨hsubC, hsubB⟩ := h₀.ne_place
  have hsub := fun x hx => hsubB x (List.mem_cons_of_mem bp hx)
  have hpb := h₀.place_ne_base htouch
  have hr : Rewired h (h.joined p bp (h.ptr bp)) _ p := rewired_joined h₀.blocks hpmem
  constructor
  case blocks =>
    have hb := blocks_joined (v := h.ptr bp) h₀.blocks hpmem perm_place h₀.base_mem hpb h₀.ne_base htouch
    have hb' : (h.joined p bp (h.ptr bp)).Blocks (C ++ p :: B ++ A) := by
      refine hb.perm ?_
      rw [List.append_assoc, List.cons_append]
      exact List.perm_middle.symm
    exact hb'.congr ⟨rfl, rfl, rfl, rfl⟩ (fun _ _ => rfl) rfl
  case first =>
    have hf := h₀.first
    cases C <;> exact hf
  case linked =>
    show Linked (h.joined p bp (h.ptr bp)).ptr (C ++ p :: B ++ [h.base])
    rw [List.append_assoc, List.cons_append, Linked.append_iff]
    exact ⟨hr.linked h₀.linked₁ hsubC,
      hr.linked_cons h₀.linked₂ (ptr_joined_self (ByteMem.readLE_lt ..)) hsub⟩
  case gaps =>
    show (C ++ p :: B).IsChain fun a b => (h.joined p bp (h.ptr bp)).stop a < b
    refine List.isChain_split.mpr ⟨hr.gaps h₀.gaps₁ fun a ha => hsubC a ?_, ?_⟩
    · rwa [List.dropLast_concat] at ha
    · exact hr.gaps_cons h₀.gaps₂ (stop_joined h₀.blocks perm_place hpb h₀.ne_base htouch) hsub
  case freep => exact List.mem_append_right C List.mem_cons_self

theorem joinPrev_spec : ∃ F, ({ h.joinPrev bp p with freep := p } : Heap).Inv F A ∧
    SameVars h (h.joinPrev bp p) ∧ ∃ a ∈ F, (h.size bp).toNat ≤ ((h.joinPrev bp p).size a).toNat := by
  have hapart : Apart p bp := h₀.blocks.apart (by simp) (by simp)
  by_cases htouch : h.stop p = bp
  · have hjoin : h.joinPrev bp p = h.joined p bp (h.ptr bp) := by
      rw [joinPrev, if_pos htouch]
      dsimp only
      rw [ptr_setSize hapart]
      rfl
    rw [hjoin]
    refine ⟨C ++ p :: B, joinPrev_touch h₀ htouch, sameVars_joined, p, by simp, ?_⟩
    rw [size_joined_self, (h₀.blocks.perm perm_place).add_lt (h₀.place_ne_base htouch) h₀.ne_base htouch]
    exact Nat.le_add_left ..
  · rw [joinPrev, if_neg htouch]
    refine ⟨C ++ p :: bp :: B, joinPrev_apart h₀ htouch, sameVars_setPtr .., bp, by simp, ?_⟩
    rw [size_setPtr hapart]

end JoinPrev

/-- The end of `free` writes two headers. -/
theorem mem_insertAt (hp : x < p ∨ p + HEADER ≤ x) (hbp : x < bp ∨ bp + HEADER ≤ x) :
    (h.insertAt bp p).mem x = h.mem x := by
  have hnext : (h.joinNext bp p).mem x = h.mem x := by
    rw [joinNext]
    split
    · dsimp only
      rw [mem_setPtr hbp, mem_setSize hbp]
    · rw [mem_setPtr hbp]
  rw [insertAt_eq, ← hnext, joinPrev]
  split
  · dsimp only
    rw [mem_setPtr hp, mem_setSize hp]
  · exact mem_setPtr hp

/-- A byte of one block is not in the header of another. -/
theorem Blocks.notHeader (h₀ : h.Blocks l) (ha : a ∈ l) (hb : b ∈ l) (hne : b ≠ a)
    (hx : x ∈ Tile.points (h.block a)) (hab : a ≠ h.base) : x < b ∨ b + HEADER ≤ x := by
  have hin := h₀.inside ha hab
  have hx1 : a ≤ x := hx.1
  have hx2 : x < h.stop a := hx.2
  rcases Nat.lt_or_gt_of_ne hne with hlt | hgt
  · have := (h₀.apart hb ha).resolve_left hne.symm
    unfold HEADER at *
    omega
  · have := h₀.stop_le_of_lt ha hb hgt
    omega

/-- `free` returns, and puts the block back: the circle stays one, and the blocks in use keep their
bytes. -/
theorem Inv.free (h₀ : h.Inv F (bp :: A)) :
    ∃ h' F', h.free (bp + HEADER) = some h' ∧ h'.Inv F' A ∧ SameVars h h' ∧
      (∃ a ∈ F', (h.size bp).toNat ≤ (h'.size a).toNat) ∧
      ∀ a ∈ A, ∀ x ∈ Tile.points (h.block a), h'.mem x = h.mem x := by
  obtain ⟨C, p, B, hpl⟩ := h₀.exists_place
  obtain ⟨B', hmid, hvars, hsize⟩ := joinNext_spec h₀ hpl
  obtain ⟨F', hinv, hvars', a, ha, hsize'⟩ := joinPrev_spec hmid
  have hinv' : (h.insertAt bp p).Inv F' A := by
    rw [insertAt_eq]
    exact hinv
  have hvars'' : SameVars h (h.insertAt bp p) := by
    rw [insertAt_eq]
    exact (hvars.trans hvars').setFreep p
  have hbig : (h.size bp).toNat ≤ ((h.insertAt bp p).size a).toNat := by
    rw [insertAt_eq, size_freep ((h.joinNext bp p).joinPrev bp p)]
    exact hsize.trans hsize'
  have hfree : h.free (bp + HEADER) = some (h.insertAt bp p) := by
    rw [Heap.free, Nat.add_sub_cancel, h₀.findPlace hpl, Option.map_some]
  refine ⟨h.insertAt bp p, F', hfree, hinv', hvars'', ⟨a, ha, hbig⟩, ?_⟩
  intro c hc x hx
  have hcall := h₀.allocated (List.mem_cons_of_mem bp hc)
  have hnodup := (List.nodup_append.mp h₀.blocks.nodup).2.1
  have hpc : p ≠ c := by
    rintro rfl
    exact hcall.2.1 hpl.mem
  have hbpc : bp ≠ c := by
    rintro rfl
    exact (List.nodup_cons.mp hnodup).1 hc
  exact mem_insertAt
    (h₀.blocks.notHeader hcall.1 (h₀.mem_append hpl.mem) hpc hx hcall.2.2)
    (h₀.blocks.notHeader hcall.1 (h₀.allocated List.mem_cons_self).1 hbpc hx hcall.2.2)

end Xv6.Heap
