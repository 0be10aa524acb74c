import Xv6.User.FreeList

/-! # Allocating

`malloc` goes around the circle once, takes the first block that is big enough or a part of it, and asks
`sbrk` for more if there is none. -/

namespace Xv6.Heap

variable {h h' : Heap} {p q r a b x y t : ℕ} {n nu nunits : UInt32} {l l' F A B C : List ℕ}

/-! ### Going around -/

/-- What the loop of `malloc` does with a block that is big enough. -/
def take (h : Heap) (nunits : UInt32) (prevp p : ℕ) : Heap × ℕ :=
  if h.size p = nunits then ({ h.setPtr prevp (h.ptr p) with freep := prevp }, p + HEADER)
  else
    let h := h.setSize p (h.size p - nunits)
    let p := h.stop p
    ({ h.setSize p nunits with freep := prevp }, p + HEADER)

/-- What it does when no block is. -/
def refill (nunits : UInt32) (m : ℕ) (h : Heap) : Option (Heap × ℕ) :=
  match h.morecore nunits with
  | none => none
  | some (h, p) => if p = 0 then some (h, 0) else mallocLoop nunits m h p (h.ptr p)

theorem mallocLoop_succ (h : Heap) (nunits : UInt32) (m prevp p : ℕ) :
    mallocLoop nunits (m + 1) h prevp p =
      if h.size p ≥ nunits then some (h.take nunits prevp p)
      else if p = h.freep then refill nunits m h
      else mallocLoop nunits m h p (h.ptr p) := by
  rw [mallocLoop, take, refill]
  split
  · split <;> rfl
  · rfl

/-- The loop ends at the first block that is big enough, or asks for more after `freep`. -/
theorem mallocLoop_scan {m : ℕ} (nunits : UInt32) (hl : Linked h.ptr (q :: l ++ [h.freep])) (hnot : ∀ x ∈ l, x ≠ h.freep)
    (hm : l.length < m) :
    (∃ y x, y ∈ q :: l ∧ x ∈ l ++ [h.freep] ∧ h.ptr y = x ∧ h.size x ≥ nunits ∧
      mallocLoop nunits m h q (h.ptr q) = some (h.take nunits y x)) ∨
    (∀ x ∈ l ++ [h.freep], ¬ h.size x ≥ nunits) ∧
      ∃ m', m = m' + l.length + 1 ∧ mallocLoop nunits m h q (h.ptr q) = refill nunits m' h := by
  induction l generalizing q m with
  | nil =>
    obtain ⟨m, rfl⟩ := Nat.exists_eq_add_one_of_ne_zero (Nat.ne_zero_of_lt hm)
    have hq : h.ptr q = h.freep := (Linked.cons_cons.mp hl).1
    rw [mallocLoop_succ]
    by_cases hfit : h.size (h.ptr q) ≥ nunits
    · exact .inl ⟨q, h.ptr q, by simp, by simp [hq], rfl, hfit, if_pos hfit⟩
    · refine .inr ⟨fun x hx => ?_, m, by simp, ?_⟩
      · obtain rfl := List.mem_singleton.mp hx
        exact hq ▸ hfit
      · rw [if_neg hfit, if_pos hq]
  | cons z l ih =>
    obtain ⟨m, rfl⟩ := Nat.exists_eq_add_one_of_ne_zero (Nat.ne_zero_of_lt hm)
    obtain ⟨hz, htail⟩ := Linked.cons_cons.mp hl
    rw [mallocLoop_succ]
    by_cases hfit : h.size (h.ptr q) ≥ nunits
    · exact .inl ⟨q, h.ptr q, by simp, by simp [hz], rfl, hfit, if_pos hfit⟩
    · have hzf : h.ptr q ≠ h.freep := hz ▸ hnot z List.mem_cons_self
      rw [if_neg hfit, if_neg hzf, hz]
      have hlen : l.length < m := by
        rw [List.length_cons] at hm
        omega
      rcases ih htail (fun x hx => hnot x (List.mem_cons_of_mem z hx)) hlen with
        ⟨y, x, hy, hx, hyx, hsize, hres⟩ | ⟨hall, m', rfl, hres⟩
      · exact .inl ⟨y, x, List.mem_cons_of_mem q hy, List.mem_cons_of_mem z hx, hyx, hsize, hres⟩
      · refine .inr ⟨fun x hx => ?_, m', by simp [Nat.add_assoc], hres⟩
        rcases List.mem_cons.mp hx with rfl | hx
        · exact hz ▸ hfit
        · exact hall x hx

/-- The same memory with another break. -/
def withBreak (h : Heap) (top : ℕ) (regions : List (ℕ × ℕ)) : Heap := { h with top := top, regions := regions }

/-- One time around the circle, wherever the break is. -/
theorem Inv.scan {m : ℕ} (h₀ : h.Inv F A) (nunits : UInt32) (hm : 2 ^ 36 ≤ m) (top : ℕ)
    (regions : List (ℕ × ℕ)) :
    (∃ y x, y ∈ F ∧ x ∈ F ∧ h.ptr y = x ∧ h.size x ≥ nunits ∧
      mallocLoop nunits m (h.withBreak top regions) h.freep (h.ptr h.freep) =
        some ((h.withBreak top regions).take nunits y x)) ∨
    (∀ x ∈ F, ¬ h.size x ≥ nunits) ∧ ∃ m', m ≤ m' + 2 ^ 36 ∧
      mallocLoop nunits m (h.withBreak top regions) h.freep (h.ptr h.freep) =
        refill nunits m' (h.withBreak top regions) := by
  obtain ⟨C, B, hF⟩ := List.append_of_mem h₀.freep
  obtain ⟨L, hL⟩ := h₀.eq_cons
  have hlinked : Linked h.ptr (h.freep :: (B ++ C) ++ [h.freep]) := by
    have := Linked.rotate (hL ▸ h₀.linked) (hL.symm.trans hF)
    simpa using this
  have hperm : (h.freep :: (B ++ C)).Perm F := by
    rw [hF]
    exact (List.Perm.cons _ List.perm_append_comm).trans List.perm_middle.symm
  have hnodup : (h.freep :: (B ++ C)).Nodup :=
    hperm.nodup_iff.mpr (List.nodup_append.mp h₀.blocks.nodup).1
  have hmem' : ∀ x, x ∈ B ++ C ++ [h.freep] ↔ x ∈ F := by
    intro x
    rw [← hperm.mem_iff]
    exact (List.perm_append_singleton _ _).mem_iff
  have hlen : (B ++ C).length + 1 ≤ 2 ^ 36 := by
    have := hperm.length_eq
    rw [List.length_cons] at this
    rw [this]
    exact h₀.length_le
  have hne : ∀ x ∈ B ++ C, x ≠ h.freep := by
    rintro x hx rfl
    exact (List.nodup_cons.mp hnodup).1 hx
  rcases mallocLoop_scan (h := h.withBreak top regions) nunits hlinked hne (hlen.trans hm) with
    ⟨y, x, hy, hx, hyx, hsize, hres⟩ | ⟨hall, m', rfl, hres⟩
  · exact .inl ⟨y, x, hperm.mem_iff.mp hy, (hmem' x).mp hx, hyx, hsize, hres⟩
  · exact .inr ⟨fun x hx => hall x ((hmem' x).mpr hx), m', by omega, hres⟩

/-! ### Taking a block -/

/-- A block that fits exactly leaves the circle. -/
theorem take_exact (h₀ : h.Inv F A) (hy : y ∈ F) (hyx : h.ptr y = x) (hxb : x ≠ h.base) :
    ∃ F', ({ h.setPtr y (h.ptr x) with freep := y } : Heap).Inv F' (x :: A) := by
  obtain ⟨C, B, hF⟩ := h₀.linked.split_next hy hyx hxb
  have hymem : y ∈ F ++ A := h₀.mem_append hy
  have hnodup := (List.nodup_append.mp h₀.blocks.nodup).1
  rw [hF] at hnodup
  obtain ⟨-, hyxB, hC⟩ := List.nodup_append.mp hnodup
  have hsize : ∀ c ∈ F ++ A, (h.setPtr y (h.ptr x)).size c = h.size c :=
    fun c hc => size_setPtr (h₀.blocks.apart hymem hc)
  have hr : Rewired h (h.setPtr y (h.ptr x)) _ y := rewired_setPtr h₀.blocks hymem
  have hlinked := h₀.linked
  have hgaps := h₀.gaps
  rw [hF, List.append_assoc, List.cons_append, Linked.append_iff] at hlinked
  rw [hF] at hgaps
  obtain ⟨hgC, hgB⟩ := List.isChain_split.mp hgaps
  obtain ⟨hgy, hgB⟩ := List.isChain_cons_cons.mp hgB
  have hsub : ∀ c ∈ C ++ y :: B, c ∈ F := by
    intro c hc
    rw [hF]
    simp only [List.mem_append, List.mem_cons] at hc ⊢
    exact hc.imp_right fun hc => hc.imp_right .inr
  refine ⟨C ++ y :: B, ?_⟩
  constructor
  case blocks =>
    have hperm : (F ++ A).Perm (C ++ y :: B ++ x :: A) := by
      rw [hF, List.append_assoc, List.append_assoc, List.cons_append, List.cons_append, List.cons_append]
      exact List.Perm.append_left C (List.Perm.cons y List.perm_middle.symm)
    have hblocks : ({ h.setPtr y (h.ptr x) with freep := y } : Heap).Blocks (F ++ A) :=
      h₀.blocks.congr ⟨rfl, rfl, rfl, rfl⟩ hsize (hsize _ (h₀.mem_append h₀.base_mem))
    exact hblocks.perm hperm
  case first =>
    have hf := h₀.first
    rw [hF] at hf
    cases C <;> exact hf
  case linked =>
    show Linked (h.setPtr y (h.ptr x)).ptr (C ++ y :: B ++ [h.base])
    rw [List.append_assoc, List.cons_append, Linked.append_iff]
    refine ⟨hr.linked hlinked.1 fun z hz => ?_, hr.linked_cons (Linked.cons_cons.mp hlinked.2).2
      (ptr_setPtr_self (ByteMem.readLE_lt ..)) fun z hz => ?_⟩
    · exact ⟨h₀.mem_append (hsub z (by simp [hz])), hC z hz y List.mem_cons_self⟩
    · refine ⟨h₀.mem_append (hsub z (by simp [hz])), ?_⟩
      rintro rfl
      exact (List.nodup_cons.mp hyxB).1 (List.mem_cons_of_mem x hz)
  case gaps =>
    show (C ++ y :: B).IsChain fun a b => (h.setPtr y (h.ptr x)).stop a < b
    have hy' : (y :: B).IsChain fun a b => h.stop a < b := by
      cases B with
      | nil => exact .singleton y
      | cons z B =>
        -- the gap after `y` gets wider
        have hxz := (List.isChain_cons_cons.mp hgB).1
        have hstop : x ≤ h.stop x := Nat.le_add_right ..
        exact List.isChain_cons_cons.mpr ⟨by omega, hgB.tail⟩
    exact gaps_congr (List.isChain_split.mpr ⟨hgC, hy'⟩) fun c hc =>
      hsize c (h₀.mem_append (hsub c (List.dropLast_subset _ hc)))
  case freep => exact List.mem_append_right C List.mem_cons_self

/-- A block is cut in two. -/
theorem Blocks.split {m : UInt32} (h₀ : h.Blocks (x :: l)) (hxb : x ≠ h.base)
    (hadd : (h.size x).toNat = m.toNat + n.toNat) (hm : m ≠ 0) (hn : n ≠ 0)
    (ht : t = x + HEADER * m.toNat) (hv : SameVars h h') (hsx : h'.size x = m) (hst : h'.size t = n)
    (hothers : ∀ c, c ∈ l ∨ c = h.base → h'.size c = h.size c) : h'.Blocks (x :: t :: l) := by
  have hmpos := size_pos hm
  have hnpos := size_pos hn
  have hin := h₀.inside List.mem_cons_self hxb
  have hxl := (List.nodup_cons.mp h₀.nodup).1
  -- the second part starts inside the block
  have htx : t ∈ Tile.points (h.block x) := by
    refine ⟨?_, ?_⟩
    · show x ≤ t
      omega
    · show t < x + HEADER * (h.size x).toNat
      unfold HEADER at *
      omega
  have htl : t ∉ l := by
    intro htl
    have htne : x ≠ t := by
      rintro rfl
      exact hxl htl
    have htb : t ≠ h.base := by
      unfold HEADER at *
      omega
    have hint := h₀.inside (List.mem_cons_of_mem x htl) htb
    refine h₀.disjoint List.mem_cons_self (List.mem_cons_of_mem x htl) htne htx ⟨le_rfl, ?_⟩
    show t < h.stop t
    unfold HEADER at hint
    omega
  have hmap : l.map h'.block = l.map h.block :=
    List.map_congr_left fun c hc => by rw [block, block, hothers c (.inl hc)]
  have htiles := h₀.tiles
  have hx : h.block x = (x, HEADER * m.toNat + HEADER * n.toNat) := by
    rw [block, hadd, Nat.mul_add]
  rw [List.map_cons, hx, Tiles.split_iff] at htiles
  refine h₀.retile hv ?_ (List.nodup_cons.mpr ⟨fun hmem => ?_,
    List.nodup_cons.mpr ⟨htl, (List.nodup_cons.mp h₀.nodup).2⟩⟩) (hothers h.base (.inr rfl)) fun c hc hne => ?_
  · have hx' : h'.block x = (x, HEADER * m.toNat) := by rw [block, hsx]
    have ht' : h'.block t = (x + HEADER * m.toNat, HEADER * n.toNat) := by rw [block, hst, ht]
    rw [List.map_cons, List.map_cons, hx', ht', hmap]
    exact htiles
  · rcases List.mem_cons.mp hmem with heq | hmem
    · unfold HEADER at *
      omega
    · exact hxl hmem
  · rcases List.mem_cons.mp hc with rfl | hc
    · exact hsx ▸ hm
    · rcases List.mem_cons.mp hc with rfl | hc
      · exact hst ▸ hn
      · rw [hothers c (.inl hc)]
        exact h₀.pos c (List.mem_cons_of_mem x hc) hne

/-- The memory after the end of block `x`, from `t` on, was cut off. -/
def cut (h : Heap) (x : ℕ) (m : UInt32) (t : ℕ) (n : UInt32) : Heap := (h.setSize x m).setSize t n

section Cut

variable {m : UInt32} (h₀ : h.Blocks l) (hx : x ∈ l) (hxb : x ≠ h.base)
  (hadd : (h.size x).toNat = m.toNat + n.toNat) (hm : m ≠ 0) (hn : n ≠ 0) (ht : t = x + HEADER * m.toNat)

include h₀ hx hxb hadd hm hn ht

/-- The new header overlaps no other. -/
theorem apart_cut (ha : a ∈ l) : Apart t a ∧ a ≠ t := by
  have hmpos := size_pos hm
  have hnpos := size_pos hn
  have hstop : h.stop x = x + HEADER * (h.size x).toNat := rfl
  rcases lt_trichotomy a x with hlt | rfl | hgt
  · have := (h₀.apart ha hx).resolve_left hlt.ne'
    unfold Apart HEADER at *
    omega
  · unfold Apart HEADER at *
    omega
  · have := h₀.stop_le_of_lt hx ha hgt
    unfold Apart HEADER at *
    omega

theorem size_cut_self : (h.cut x m t n).size x = m := by
  obtain ⟨hap, hne⟩ := apart_cut h₀ hx hxb hadd hm hn ht hx
  rw [cut, size_setSize_of_ne hap hne, size_setSize_self]

theorem size_cut_of_ne (ha : a ∈ l) (hax : a ≠ x) : (h.cut x m t n).size a = h.size a := by
  obtain ⟨hap, hne⟩ := apart_cut h₀ hx hxb hadd hm hn ht ha
  rw [cut, size_setSize_of_ne hap hne, size_setSize_of_ne (h₀.apart hx ha) hax]

theorem ptr_cut (ha : a ∈ l) : (h.cut x m t n).ptr a = h.ptr a := by
  obtain ⟨hap, -⟩ := apart_cut h₀ hx hxb hadd hm hn ht ha
  rw [cut, ptr_setSize hap, ptr_setSize (h₀.apart hx ha)]

end Cut

theorem size_cut_new {m : UInt32} : (h.cut x m t n).size t = n := size_setSize_self

/-- The end of a bigger block is taken. -/
theorem take_part {m : UInt32} (h₀ : h.Inv F A) (hy : y ∈ F) (hx : x ∈ F) (hxb : x ≠ h.base)
    (hadd : (h.size x).toNat = m.toNat + n.toNat) (hm : m ≠ 0) (hn : n ≠ 0)
    (ht : t = x + HEADER * m.toNat) :
    ({ h.cut x m t n with freep := y } : Heap).Inv F (t :: A) := by
  have hxmem := h₀.mem_append hx
  have hself := size_cut_self h₀.blocks hxmem hxb hadd hm hn ht
  have hothers : ∀ a ∈ F ++ A, a ≠ x → (h.cut x m t n).size a = h.size a :=
    fun a ha hax => size_cut_of_ne h₀.blocks hxmem hxb hadd hm hn ht ha hax
  constructor
  case blocks =>
    obtain ⟨l₁, l₂, hl⟩ := List.append_of_mem hxmem
    have hperm : (F ++ A).Perm (x :: (l₁ ++ l₂)) := hl ▸ List.perm_middle
    have hnot : x ∉ l₁ ++ l₂ := (List.nodup_cons.mp (hperm.nodup_iff.mp h₀.blocks.nodup)).1
    have hcut : (h.cut x m t n).Blocks (x :: t :: (l₁ ++ l₂)) := by
      refine (h₀.blocks.perm hperm).split hxb hadd hm hn ht ⟨rfl, rfl, rfl, rfl⟩ hself size_cut_new ?_
      rintro c (hc | rfl)
      · refine hothers c (hperm.mem_iff.mpr (List.mem_cons_of_mem x hc)) ?_
        rintro rfl
        exact hnot hc
      · exact hothers _ (h₀.mem_append h₀.base_mem) hxb.symm
    have hperm' : (x :: t :: (l₁ ++ l₂)).Perm (F ++ t :: A) :=
      (List.Perm.swap t x _).trans ((List.Perm.cons t hperm.symm).trans List.perm_middle.symm)
    have hblocks := hcut.perm hperm'
    exact hblocks.congr ⟨rfl, rfl, rfl, rfl⟩ (fun _ _ => rfl) rfl
  case first => exact h₀.first
  case linked =>
    refine h₀.linked.congr fun z hz => ?_
    rw [List.dropLast_concat] at hz
    exact ptr_cut h₀.blocks hxmem hxb hadd hm hn ht (h₀.mem_append hz)
  case gaps =>
    refine h₀.gaps.imp_of_mem_imp fun a b ha _ hab => ?_
    show (h.cut x m t n).stop a < b
    rcases eq_or_ne a x with rfl | hne
    · rw [stop, hself]
      unfold stop HEADER at hab
      unfold HEADER
      omega
    · rw [stop_congr (hothers a (h₀.mem_append ha) hne)]
      exact hab
  case freep => exact hy

theorem take_eq_exact (hsize : h.size x = nunits) :
    h.take nunits y x = ({ h.setPtr y (h.ptr x) with freep := y }, x + HEADER) := if_pos hsize

theorem take_eq_part {m : UInt32} (hsize : h.size x ≠ nunits) (hm : m = h.size x - nunits)
    (ht : t = x + HEADER * m.toNat) :
    h.take nunits y x = ({ h.cut x m t nunits with freep := y }, t + HEADER) := by
  have hstop : (h.setSize x m).stop x = t := by rw [stop, size_setSize_self, ht]
  rw [Heap.take, if_neg hsize, ← hm]
  dsimp only
  rw [hstop]
  rfl

/-- A block that is big enough is taken, or a part of it. -/
theorem Inv.take (h₀ : h.Inv F A) (hy : y ∈ F) (hx : x ∈ F) (hyx : h.ptr y = x)
    (hsize : h.size x ≥ nunits) (hn : nunits ≠ 0) :
    ∃ h' F' t, h.take nunits y x = (h', t + HEADER) ∧ h'.Inv F' (t :: A) ∧ h'.size t = nunits ∧
      SameVars h h' ∧ ∀ a ∈ A, ∀ z ∈ Tile.points (h.block a), h'.mem z = h.mem z := by
  have hle := UInt32.le_iff_toNat_le.mp hsize
  have hnpos := size_pos hn
  have hxb : x ≠ h.base := by
    rintro rfl
    rw [h₀.blocks.base_size] at hle
    rw [UInt32.toNat_zero] at hle
    omega
  have hne : ∀ a ∈ A, ∀ c ∈ F, c ≠ a := by
    rintro a ha c hc rfl
    exact (h₀.allocated ha).2.1 hc
  have houtside : ∀ a ∈ A, ∀ z ∈ Tile.points (h.block a), ∀ c ∈ F, z < c ∨ c + HEADER ≤ z :=
    fun a ha z hz c hc => h₀.blocks.notHeader (h₀.allocated ha).1 (h₀.mem_append hc) (hne a ha c hc) hz
      (h₀.allocated ha).2.2
  by_cases hexact : h.size x = nunits
  · obtain ⟨F', hinv⟩ := take_exact h₀ hy hyx hxb
    refine ⟨_, F', x, take_eq_exact hexact, hinv, ?_, ⟨rfl, rfl, rfl, rfl⟩, ?_⟩
    · rw [← hexact]
      exact size_setPtr (h₀.blocks.apart (h₀.mem_append hy) (h₀.mem_append hx))
    · intro a ha z hz
      exact mem_setPtr (houtside a ha z hz y hy)
  · obtain ⟨m, hm⟩ : ∃ m, m = h.size x - nunits := ⟨_, rfl⟩
    obtain ⟨t, ht⟩ : ∃ t, t = x + HEADER * m.toNat := ⟨_, rfl⟩
    have hmnat : m.toNat = (h.size x).toNat - nunits.toNat := by
      rw [hm, UInt32.toNat_sub_of_le _ _ hsize]
    have hlt : nunits.toNat ≠ (h.size x).toNat := fun heq => hexact (UInt32.toNat_inj.mp heq.symm)
    have hm0 : m ≠ 0 := by
      rintro rfl
      rw [UInt32.toNat_zero] at hmnat
      omega
    have hadd : (h.size x).toNat = m.toNat + nunits.toNat := by omega
    refine ⟨_, F, t, take_eq_part hexact hm ht, take_part h₀ hy hx hxb hadd hm0 hn ht, size_cut_new,
      ⟨rfl, rfl, rfl, rfl⟩, ?_⟩
    intro a ha z hz
    have hzx := h₀.blocks.disjoint (h₀.allocated ha).1 (h₀.mem_append hx) (hne a ha x hx).symm hz
    have hzt : z < t ∨ t + HEADER ≤ z := by
      by_contra hcon
      refine hzx ⟨?_, ?_⟩
      · show x ≤ z
        omega
      · show z < x + HEADER * (h.size x).toNat
        unfold HEADER at *
        omega
    have hz2 : ((h.setSize x m).setSize t nunits).mem z = (h.setSize x m).mem z := mem_setSize hzt
    exact hz2.trans (mem_setSize (houtside a ha z hz x hx))

/-! ### Asking for more -/

theorem Inv.setAnswers (h₀ : h.Inv F A) (answers : List (Option ℕ)) :
    (h.withAnswers answers).Inv F A :=
  ⟨⟨h₀.blocks.tiles, h₀.blocks.nodup, h₀.blocks.base_size, h₀.blocks.base_pos, h₀.blocks.pos,
    h₀.blocks.above, h₀.blocks.top_le, h₀.blocks.base_le⟩, h₀.first, h₀.linked, h₀.gaps, h₀.freep⟩

/-- What `morecore` asks for. -/
def request (nu : UInt32) : UInt32 := if nu < 4096 then 4096 else nu

theorem le_request (nu : UInt32) : nu.toNat ≤ (request nu).toNat := by
  unfold request
  split
  · rename_i hlt
    exact (UInt32.lt_iff_toNat_lt.mp hlt).le
  · exact le_rfl

theorem request_ne_zero (nu : UInt32) : request nu ≠ 0 := by
  unfold request
  split
  · decide
  · rename_i hlt
    rintro rfl
    exact hlt (by decide)

/-- The memory after `sbrk` has returned `k` units at `p`, with the header of a block there. -/
def extended (h : Heap) (rest : List (Option ℕ)) (p : ℕ) (k : UInt32) : Heap :=
  ({ h with
    answers := rest
    top := p + k.toNat * HEADER
    regions := (p, k.toNat * HEADER) :: h.regions } : Heap).setSize p k

theorem sbrk_fail {k : Int32} (hans : ∀ gap rest, h.answers ≠ some gap :: rest) :
    ∃ rest, h.sbrk k = ({ h with answers := rest }, none) := by
  unfold sbrk
  split
  · rename_i gap rest hg
    exact absurd hg (hans gap rest)
  · exact ⟨_, rfl⟩
  · exact ⟨h.answers, rfl⟩

theorem morecore_fail (nu : UInt32) (hans : ∀ gap rest, h.answers ≠ some gap :: rest) :
    ∃ rest, h.morecore nu = some ({ h with answers := rest }, 0) := by
  obtain ⟨rest, hs⟩ := sbrk_fail (k := Int32.ofNat ((request nu).toNat * HEADER)) hans
  refine ⟨rest, ?_⟩
  unfold morecore
  dsimp only
  rw [show (if nu < 4096 then 4096 else nu) = request nu from rfl, hs]

theorem morecore_ok {gap : ℕ} {rest : List (Option ℕ)} (hans : h.answers = some gap :: rest)
    (hint : (request nu).toNat * HEADER < 2 ^ 31) :
    h.morecore nu = ((h.extended rest (h.top + gap) (request nu)).free (h.top + gap + HEADER)).map
      fun h => (h, h.freep) := by
  have htoInt : (Int32.ofNat ((request nu).toNat * HEADER)).toInt = ((request nu).toNat * HEADER : ℕ) :=
    Int32.toInt_ofNat_of_lt hint
  have hneg : ¬ Int32.ofNat ((request nu).toNat * HEADER) < 0 := by
    rw [Int32.lt_iff_toInt_lt, htoInt]
    exact not_lt.mpr (Int.natCast_nonneg _)
  unfold morecore sbrk
  dsimp only
  rw [show (if nu < 4096 then 4096 else nu) = request nu from rfl, hans]
  dsimp only
  rw [if_neg hneg, htoInt]
  rfl

theorem memory_extended (h : Heap) (rest : List (Option ℕ)) (p : ℕ) (k : UInt32) :
    (h.extended rest p k).memory = Tile.points (p, HEADER * k.toNat) ∪ h.memory := by
  ext z
  show (∃ r ∈ (p, k.toNat * HEADER) :: h.regions, z ∈ Tile.points r) ↔ _
  rw [List.exists_mem_cons_iff, Nat.mul_comm]
  rfl

/-- The new memory is a block that is not free yet. -/
theorem extended_inv (rest : List (Option ℕ)) {k : UInt32} (h₀ : h.Inv F A) (hp : h.top ≤ p)
    (hk : k ≠ 0) (htop : p + k.toNat * HEADER ≤ 2 ^ 36) : (h.extended rest p k).Inv F (p :: A) := by
  have hkpos := size_pos hk
  have hbase := h₀.blocks.base_le
  have hapart : ∀ a ∈ F ++ A, Apart p a ∧ a ≠ p := by
    intro a ha
    rcases eq_or_ne a h.base with rfl | hne
    · unfold Apart HEADER at *
      omega
    · have := h₀.blocks.inside ha hne
      unfold Apart HEADER at *
      omega
  have hself : (h.extended rest p k).size p = k := size_setSize_self
  have hsize : ∀ a ∈ F ++ A, (h.extended rest p k).size a = h.size a :=
    fun a ha => size_setSize_of_ne (hapart a ha).1 (hapart a ha).2
  have hptr : ∀ a ∈ F ++ A, (h.extended rest p k).ptr a = h.ptr a := fun a ha => ptr_setSize (hapart a ha).1
  constructor
  case blocks =>
    have hblocks : (h.extended rest p k).Blocks (p :: (F ++ A)) := by
      constructor
      case tiles =>
        have hmap : (F ++ A).map (h.extended rest p k).block = (F ++ A).map h.block :=
          List.map_congr_left fun a ha => by rw [block, block, hsize a ha]
        rw [List.map_cons, hmap, block, hself, memory_extended]
        refine h₀.blocks.tiles.cons fun z hz hzm => ?_
        have hz1 : p ≤ z := hz.1
        have := (h₀.blocks.above z hzm).2
        omega
      case nodup => exact List.nodup_cons.mpr ⟨fun hmem => (hapart p hmem).2 rfl, h₀.blocks.nodup⟩
      case base_size => exact (hsize _ (h₀.mem_append h₀.base_mem)).trans h₀.blocks.base_size
      case base_pos => exact h₀.blocks.base_pos
      case pos =>
        intro a ha hne
        rcases List.mem_cons.mp ha with rfl | ha
        · exact hself.symm ▸ hk
        · exact (hsize a ha).symm ▸ h₀.blocks.pos a ha hne
      case above =>
        intro z hz
        rw [memory_extended] at hz
        show h.base + HEADER ≤ z ∧ z < p + k.toNat * HEADER
        rcases hz with ⟨hz1, hz2⟩ | hz
        · dsimp only at hz1 hz2
          rw [Nat.mul_comm] at hz2
          exact ⟨by omega, hz2⟩
        · have := h₀.blocks.above z hz
          exact ⟨this.1, by omega⟩
      case top_le => exact htop
      case base_le =>
        show h.base + HEADER ≤ p + k.toNat * HEADER
        omega
    exact hblocks.perm List.perm_middle.symm
  case first => exact h₀.first
  case linked =>
    refine h₀.linked.congr fun z hz => ?_
    rw [List.dropLast_concat] at hz
    exact hptr z (h₀.mem_append hz)
  case gaps => exact gaps_congr h₀.gaps fun a ha => hsize a (h₀.mem_append (List.dropLast_subset _ ha))
  case freep => exact h₀.freep

/-- Bytes of blocks in use stay as they are. -/
def Keeps (h h' : Heap) (A : List ℕ) : Prop := ∀ a ∈ A, ∀ z ∈ Tile.points (h.block a), h'.mem z = h.mem z

/-- A block that keeps its bytes keeps its size. -/
theorem Inv.size_keeps (h₀ : h.Inv F A) (ha : a ∈ A)
    (hk : ∀ z ∈ Tile.points (h.block a), h'.mem z = h.mem z) : h'.size a = h.size a := by
  obtain ⟨hmem, -, hne⟩ := h₀.allocated ha
  have hin := h₀.blocks.inside hmem hne
  rw [size, size, ByteMem.readLE_congr]
  intro z hz hz'
  refine hk z ⟨?_, ?_⟩
  · show a ≤ z
    omega
  · show z < h.stop a
    unfold HEADER at hin
    omega

theorem Keeps.trans {h'' : Heap} (h₀ : h.Inv F A) (hk : Keeps h h' A) (hk' : Keeps h' h'' A) :
    Keeps h h'' A := by
  intro a ha z hz
  have hblock : h'.block a = h.block a := by rw [block, block, h₀.size_keeps ha (hk a ha)]
  rw [hk' a ha z (hblock ▸ hz), hk a ha z hz]

/-- `morecore` returns: there is no more memory, or there is a block that is big enough. -/
theorem Inv.morecore (h₀ : h.Inv F A) (hint : (request nu).toNat * HEADER < 2 ^ 31)
    (hans : ∀ gap rest, h.answers = some gap :: rest →
      h.top + gap + (request nu).toNat * HEADER ≤ 2 ^ 36) :
    ∃ h' q, h.morecore nu = some (h', q) ∧ h'.base = h.base ∧ h.top ≤ h'.top ∧ Keeps h h' A ∧
      (q = 0 ∧ h'.Inv F A ∨
        q = h'.freep ∧ ∃ F', h'.Inv F' A ∧ ∃ a ∈ F', nu.toNat ≤ (h'.size a).toNat) := by
  by_cases hsome : ∃ gap rest, h.answers = some gap :: rest
  · obtain ⟨gap, rest, hg⟩ := hsome
    have hext := extended_inv rest h₀ (Nat.le_add_right h.top gap) (request_ne_zero nu)
      (hans gap rest hg)
    obtain ⟨h', F', hfree, hinv, hvars, ⟨a, ha, hbig⟩, hkeep⟩ := hext.free
    refine ⟨h', h'.freep, ?_, hvars.base, ?_, ?_, .inr ⟨rfl, F', hinv, a, ha, ?_⟩⟩
    · rw [morecore_ok hg hint, hfree, Option.map_some]
    · rw [hvars.top]
      exact (Nat.le_add_right ..).trans (Nat.le_add_right ..)
    · have hkeep₁ : Keeps h (h.extended rest (h.top + gap) (request nu)) A := by
        intro c hc z hz
        have hz2 : z < h.stop c := hz.2
        have hcall := h₀.allocated hc
        have := h₀.blocks.inside hcall.1 hcall.2.2
        exact mem_setSize (.inl (by omega))
      exact hkeep₁.trans h₀ hkeep
    · have hself : (h.extended rest (h.top + gap) (request nu)).size (h.top + gap) = request nu :=
        size_setSize_self
      rw [hself] at hbig
      exact (le_request nu).trans hbig
  · have hfail : ∀ gap rest, h.answers ≠ some gap :: rest := fun gap rest hg => hsome ⟨gap, rest, hg⟩
    obtain ⟨rest, hres⟩ := morecore_fail nu hfail
    exact ⟨_, 0, hres, rfl, le_rfl, fun _ _ _ _ => rfl, .inl ⟨rfl, h₀.setAnswers rest⟩⟩

/-! ### Allocating -/

theorem Inv.freep_ne_zero (h₀ : h.Inv F A) : h.freep ≠ 0 := by
  have hb := h₀.blocks.base_pos
  rcases eq_or_ne h.freep h.base with heq | hne
  · rwa [heq]
  · have := h₀.base_lt (h₀.mem_append h₀.freep) hne
    omega

/-- What `malloc` returns: nothing, or a block of the right size. -/
def Allocates (h : Heap) (A : List ℕ) (nunits : UInt32) (h' : Heap) (q : ℕ) : Prop :=
  h'.base = h.base ∧ Keeps h h' A ∧
    (q = 0 ∧ (∃ F', h'.Inv F' A) ∨ ∃ F' t, q = t + HEADER ∧ h'.Inv F' (t :: A) ∧ h'.size t = nunits)

theorem Inv.mallocLoop (h₀ : h.Inv F A) (hn : nunits ≠ 0)
    (hint : (request nunits).toNat * HEADER < 2 ^ 31)
    (hans : ∀ gap rest, h.answers = some gap :: rest →
      h.top + gap + (request nunits).toNat * HEADER ≤ 2 ^ 36) :
    ∃ h' q, mallocLoop nunits rounds h h.freep (h.ptr h.freep) = some (h', q) ∧
      Allocates h A nunits h' q ∧ h.top ≤ h'.top := by
  have hrounds : 2 ^ 36 ≤ rounds := by
    rw [rounds_eq]
    exact Nat.pow_le_pow_right (by decide) (by decide)
  rcases h₀.scan nunits hrounds h.top h.regions with
    ⟨y, x, hy, hx, hyx, hsize, hres⟩ | ⟨-, m, hm, hres⟩
  · obtain ⟨h', F', t, htake, hinv, ht, hvars, hkeep⟩ := h₀.take hy hx hyx hsize hn
    exact ⟨h', t + HEADER, hres.trans (congrArg some htake), ⟨hvars.base, hkeep, .inr ⟨F', t, rfl, hinv, ht⟩⟩,
      hvars.top.ge⟩
  · obtain ⟨h₁, q, hmore, hbase, htop, hkeep, hcase⟩ := h₀.morecore hint hans
    have hres : Heap.mallocLoop nunits rounds h h.freep (h.ptr h.freep) = refill nunits m h := hres
    rw [hres, refill, hmore]
    dsimp only
    rcases hcase with ⟨rfl, hinv⟩ | ⟨rfl, F₁, hinv, a, ha, hbig⟩
    · exact ⟨h₁, 0, if_pos rfl, ⟨hbase, hkeep, .inl ⟨rfl, F, hinv⟩⟩, htop⟩
    · rw [if_neg hinv.freep_ne_zero]
      have hm' : 2 ^ 36 ≤ m := by
        rw [rounds_eq] at hm
        omega
      rcases hinv.scan nunits hm' h₁.top h₁.regions with ⟨y, x, hy, hx, hyx, hsize, hres'⟩ | ⟨hall, -⟩
      · obtain ⟨h', F', t, htake, hinv', ht, hvars, hkeep'⟩ := hinv.take hy hx hyx hsize hn
        exact ⟨h', t + HEADER, hres'.trans (congrArg some htake), ⟨hvars.base.trans hbase,
          hkeep.trans h₀ hkeep', .inr ⟨F', t, rfl, hinv', ht⟩⟩, htop.trans hvars.top.ge⟩
      · -- the block that `morecore` has put into the circle is big enough
        exact absurd (UInt32.le_iff_toNat_le.mpr hbig) (hall a ha)

theorem toNat_units (n : UInt32) : (units n).toNat = (n.toNat + 15) / 16 + 1 := by
  have := n.toNat_lt
  rw [units, UInt32.toNat_ofNat', Nat.mod_eq_of_lt]
  · rfl
  · unfold HEADER
    omega

theorem units_ne_zero (n : UInt32) : units n ≠ 0 := by
  intro h0
  have := toNat_units n
  rw [h0, UInt32.toNat_zero] at this
  omega

/-- A call whose request fits an `int`. -/
theorem request_lt {n : UInt32} (hn : n.toNat ≤ 2 ^ 31 - 32) :
    (request (units n)).toNat * HEADER < 2 ^ 31 := by
  have hu := toNat_units n
  unfold request
  split
  · decide
  · unfold HEADER
    omega

theorem malloc_eq (hfree : h.freep ≠ 0) :
    h.malloc n = mallocLoop (units n) rounds h h.freep (h.ptr h.freep) := by
  unfold malloc
  dsimp only
  rw [if_neg hfree]

/-- The circle of a new heap. -/
def initialised (h : Heap) : Heap := ({ h.setPtr h.base h.base with freep := h.base } : Heap).setSize h.base 0

theorem malloc_eq_init (hfree : h.freep = 0) : h.malloc n =
    mallocLoop (units n) rounds h.initialised h.initialised.freep (h.initialised.ptr h.initialised.freep) := by
  unfold malloc initialised
  dsimp only
  rw [if_pos hfree]

theorem initialised_inv (hreg : h.regions = []) (hb : h.base ≠ 0) (hbt : h.base + HEADER ≤ h.top)
    (ht : h.top ≤ 2 ^ 36) : h.initialised.Inv [h.base] [] := by
  have hsize : h.initialised.size h.base = 0 := size_setSize_self
  have hmem : h.initialised.memory = ∅ := by
    refine Set.eq_empty_of_forall_notMem ?_
    rintro z ⟨r, hr, -⟩
    have hr : r ∈ h.regions := hr
    rw [hreg] at hr
    cases hr
  have hptr : h.initialised.ptr h.base = h.base := by
    have hlt : h.base < 2 ^ 64 := by
      unfold HEADER at hbt
      omega
    exact (ptr_setSize (.inl rfl)).trans (ptr_setPtr_self hlt)
  constructor
  case blocks =>
    constructor
    case tiles =>
      have hempty : Tile.points (h.initialised.block h.base) = ∅ := by
        refine Set.eq_empty_of_forall_notMem ?_
        rintro z ⟨hz1, hz2⟩
        rw [block, hsize] at hz1 hz2
        dsimp only at hz1 hz2
        rw [UInt32.toNat_zero] at hz2
        omega
      have htiles := Tiles.nil.cons (t := h.initialised.block h.base) fun z _ => Set.notMem_empty z
      rw [hempty, Set.union_empty] at htiles
      rw [hmem]
      exact htiles
    case nodup => exact List.nodup_singleton _
    case base_size => exact hsize
    case base_pos => exact hb
    case pos =>
      intro a ha hne
      exact absurd (List.mem_singleton.mp ha) hne
    case above =>
      rw [hmem]
      exact fun z hz => absurd hz (Set.notMem_empty z)
    case top_le => exact ht
    case base_le => exact hbt
  case first => rfl
  case linked => exact Linked.cons_cons.mpr ⟨hptr, Linked.singleton _⟩
  case gaps => exact .singleton _
  case freep => exact List.mem_singleton.mpr rfl

end Xv6.Heap
