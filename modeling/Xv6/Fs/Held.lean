import Xv6.Fs.Namespace

/-! # Name spaces in use

A tree of names together with the inodes `U` that are in use. An inode without links stays allocated
as long as it is in use. Inodes that were left over without a user, by a crash, stay allocated for
good: they are in a set `O` that no path leads into. -/

namespace Xv6

open Function

namespace Nodes

variable {N N' : Nodes} {U U' : ℕ → Prop} {O : Set ℕ} {n c d i j k x y : ℕ} {v w : Node}
  {name : List UInt8}

/-! ## Where names lead -/

/-- Reachable from the root through entries other than `.` and `..`. -/
inductive Reach (N : Nodes) : ℕ → Prop
  | root : Reach N ROOTINO
  | step {d i : ℕ} (hd : Reach N d) (hi : i ≠ 0) (hdi : 0 < N.linksFrom d i) : Reach N i

/-- A name leads to the directory itself, to its parent or to an entry. -/
theorem Tree.child_leads (h : N.Tree n) (hc : N.child i name = some j) :
    ∃ v, N i = some v ∧ v.type = T_DIR ∧ (j = i ∨ j = v.up ∨ j ≠ 0 ∧ 0 < N.linksFrom i j) := by
  cases hv : N i with
  | none =>
    rw [child, hv] at hc
    cases hc
  | some v =>
    obtain ⟨ht, k, hk, rfl⟩ := child_eq_some hv hc
    obtain ⟨-, hget, hne, -⟩ := Node.findEntry_spec hk
    refine ⟨v, rfl, ht, ?_⟩
    rcases k with _ | _ | k
    · exact .inl (h.shape i v hv ht).self
    · exact .inr (.inl rfl)
    · have hmem : entryAt v.bytes (k + 2) ∈ v.slots := by
        rw [Node.slots, List.mem_iff_getElem?]
        exact ⟨k, by rw [List.getElem?_drop, Nat.add_comm, hget]⟩
      exact .inr (.inr ⟨hne, linksFrom_eq hv ht _ ▸ links_pos hmem⟩)

/-- The entries of a directory name allocated inodes if `..` does. -/
theorem Tree.entries_alloc (h : N.Tree n) (hv : N i = some v) (ht : v.type = T_DIR)
    (hup : ∃ u, N v.up = some u) : ∀ de ∈ entries v.bytes, de.inum ≠ 0 → ∃ w, N de.inum = some w := by
  intro de hde hne
  obtain ⟨k, hk⟩ := List.mem_iff_getElem?.mp hde
  have hlt : k < v.bytes.length / DIRENT := by
    rw [← length_entries]
    exact (List.getElem?_eq_some_iff.mp hk).1
  have hat := entries_getElem? hlt
  rw [hk, Option.some.injEq] at hat
  match k, hk, hat with
  | 0, _, hat => exact ⟨v, by rw [hat, (h.shape i v hv ht).self, hv]⟩
  | 1, _, hat =>
    rw [hat]
    exact hup
  | k + 2, hk, _ =>
    refine h.slot_alloc hv ht (List.mem_of_getElem? (i := k) ?_) hne
    rw [Node.slots, List.getElem?_drop, Nat.add_comm, hk]

theorem Tree.subdirs_of_empty (h : N.Tree n) (hempty : ∀ de ∈ v.slots, de.inum = 0) :
    N.subdirs v = 0 := by
  refine List.countP_eq_zero.mpr fun de hde => ?_
  rw [hempty de hde, isDir, h.zero]
  exact Bool.false_ne_true

/-- A directory has at most one name. -/
theorem Tree.count_dir_le_one (h : N.Tree n) (hv : N i = some v) (ht : v.type = T_DIR) :
    N.count n i ≤ 1 := by
  rcases Nat.eq_zero_or_pos (N.count n i) with h0 | hpos
  · omega
  · obtain ⟨d, hd, hdi⟩ := count_pos hpos
    obtain ⟨hup, -, -, hone⟩ := h.parent d i v hdi hv ht
    have hsum : N.count n i = N.linksFrom d i := by
      refine Finset.sum_eq_single_of_mem d (Finset.mem_range.mpr hd) fun x _ hx => ?_
      by_contra hne
      exact hx ((h.parent x i v (Nat.pos_of_ne_zero hne) hv ht).1.symm.trans hup)
    omega

/-- The link count of a directory cannot overflow: a directory has no room for that many entries. -/
theorem Tree.nlink_ne (h : N.Tree n) (hv : N i = some v) (ht : v.type = T_DIR)
    (hlen : v.bytes.length ≤ MAXFILE * BSIZE) : v.nlink ≠ 32767 := by
  intro hmax
  have hdirs := h.dirs i v hv ht
  have hone := h.count_dir_le_one hv ht
  have hsub : N.subdirs v ≤ v.bytes.length / DIRENT := by
    refine List.countP_le_length.trans ?_
    rw [Node.slots, List.length_drop, length_entries]
    exact Nat.sub_le _ _
  have hle : v.bytes.length / DIRENT ≤ 17152 := Nat.div_le_div_right (c := DIRENT) hlen
  have : v.nlink.toInt = 32767 := hmax ▸ rfl
  split at hdirs <;> omega

/-- What is in a directory other than the root that can be reached is named there. -/
theorem Tree.reach_up (h : N.Tree n) (hr : N.Reach i) (hv : N i = some v) (ht : v.type = T_DIR) :
    N.Reach v.up := by
  cases hr with
  | root =>
    obtain ⟨u, hu, -, hup⟩ := h.root
    obtain rfl := Option.some.inj (hv.symm.trans hu)
    rw [hup]
    exact .root
  | step hd hi hdi =>
    rw [(h.parent _ i v hdi hv ht).1]
    exact hd

theorem Tree.nlink_ne_zero_of_reach (h : N.Tree n) (hr : N.Reach i) (hv : N i = some v) :
    v.nlink ≠ 0 := by
  intro h0
  obtain ⟨hcount, hroot⟩ := h.of_nlink_zero hv h0
  cases hr with
  | root =>
    obtain ⟨u, hu, ht, -⟩ := h.root
    obtain rfl := Option.some.inj (hv.symm.trans hu)
    exact (hroot ht).2 rfl
  | step hd hi hdi =>
    obtain ⟨u, hu, -⟩ := linksFrom_pos hdi
    have := N.linksFrom_le_count (h.lt hu) i
    omega

/-- The contents of a file are not part of the name space. -/
theorem Tree.bytes (h : N.Tree n) (hv : N i = some v) (ht : v.type ≠ T_DIR) (b : List UInt8) :
    Tree (update N i (some { v with bytes := b })) n ∧
      ∀ d j, linksFrom (update N i (some { v with bytes := b })) d j = N.linksFrom d j := by
  obtain ⟨N', hN'⟩ : ∃ N' : Nodes, N' = update N i (some { v with bytes := b }) := ⟨_, rfl⟩
  have hat : N' i = some { v with bytes := b } := by rw [hN', update_self]
  have hne : ∀ {j}, j ≠ i → N' j = N j := fun hj => by rw [hN', update_of_ne hj]
  have hback : ∀ {j w}, N' j = some w → ∃ u, N j = some u ∧ w.type = u.type ∧ w.nlink = u.nlink ∧
      (w.type = T_DIR → w = u) := by
    intro j w hw
    rcases eq_or_ne j i with rfl | hj
    · obtain rfl := Option.some.inj (hat.symm.trans hw)
      exact ⟨v, hv, rfl, rfl, fun hc => absurd hc ht⟩
    · exact ⟨w, hne hj ▸ hw, rfl, rfl, fun _ => rfl⟩
  have hforth : ∀ {j u}, N j = some u → ∃ w, N' j = some w ∧ w.type = u.type := by
    intro j u hu
    rcases eq_or_ne j i with rfl | hj
    · obtain rfl := Option.some.inj (hv.symm.trans hu)
      exact ⟨_, hat, rfl⟩
    · exact ⟨u, (hne hj).trans hu, rfl⟩
  have hlinks : ∀ d j, N'.linksFrom d j = N.linksFrom d j := by
    intro d j
    rcases eq_or_ne d i with rfl | hd
    · rw [linksFrom_of_file hat ht, linksFrom_of_file hv ht]
    · simp only [linksFrom, hne hd]
  have hcount : ∀ j, N'.count n j = N.count n j := fun j =>
    Finset.sum_congr rfl fun d _ => hlinks d j
  have hisDir : ∀ j, N'.isDir j = N.isDir j := by
    intro j
    rcases eq_or_ne j i with rfl | hj
    · rw [isDir_eq_decide hat, isDir_eq_decide hv]
    · rw [isDir, isDir, hne hj]
  rw [← hN']
  refine ⟨?_, hlinks⟩
  constructor
  case pos =>
    intro j w hw
    obtain ⟨u, hu, -⟩ := hback hw
    exact h.pos j u hu
  case root =>
    obtain ⟨u, hu, hut, hup⟩ := h.root
    obtain ⟨w, hw, hwt⟩ := hforth hu
    obtain ⟨u', hu', -, -, heq⟩ := hback hw
    obtain rfl := Option.some.inj (hu.symm.trans hu')
    obtain rfl := heq (hwt.trans hut)
    exact ⟨w, hw, hut, hup⟩
  case shape =>
    intro d w hw hwt
    obtain ⟨u, hu, -, -, heq⟩ := hback hw
    obtain rfl := heq hwt
    exact h.shape d w hu hwt
  case alloc =>
    intro d j hj hdj
    obtain ⟨u, hu⟩ := h.alloc d j hj (hlinks d j ▸ hdj)
    obtain ⟨w, hw, -⟩ := hforth hu
    exact ⟨w, hw⟩
  case parent =>
    intro d j w hdj hw hwt
    obtain ⟨u, hu, -, -, heq⟩ := hback hw
    obtain rfl := heq hwt
    rw [hlinks] at hdj ⊢
    exact h.parent d j w hdj hu hwt
  case dirs =>
    intro j w hw hwt
    obtain ⟨u, hu, -, -, heq⟩ := hback hw
    obtain rfl := heq hwt
    rw [hcount, subdirs_congr hu hwt fun x _ => hisDir x]
    exact h.dirs j w hu hwt
  case files =>
    intro j w hw hwt
    obtain ⟨u, hu, htype, hnlink, -⟩ := hback hw
    rw [hcount, hnlink]
    exact h.files j u hu (htype ▸ hwt)

/-! ## Users -/

/-- The name space while the inodes `U` are in use; no path leads to the inodes `O`. -/
structure Held (N : Nodes) (U : ℕ → Prop) (O : Set ℕ) (n : ℕ) : Prop where
  tree : N.Tree n
  root : ROOTINO ∉ O
  kept : ∀ i v, N i = some v → v.nlink = 0 → i ∉ O → U i
  used : ∀ i, U i → ∃ v, N i = some v
  apart : ∀ i ∈ O, (∃ v, N i = some v) ∧ ¬ U i
  up : ∀ i v, i ∉ O → N i = some v → v.type = T_DIR → v.up ∉ O
  entry : ∀ i j, i ∉ O → j ≠ 0 → 0 < N.linksFrom i j → j ∉ O

/-- The inodes that cannot be reached from the root. -/
def lost (N : Nodes) : Set ℕ := { i | (∃ v, N i = some v) ∧ ¬ N.Reach i }

theorem reach_of_notMem_lost (hi : i ∉ N.lost) (hv : N i = some v) : N.Reach i := by
  by_contra hr
  exact hi ⟨⟨v, hv⟩, hr⟩

/-- Before anything is in use. -/
theorem Tree.held (h : N.Tree n) : N.Held (fun _ => False) N.lost n where
  tree := h
  root := fun hc => hc.2 .root
  kept := fun i v hv h0 hi => h.nlink_ne_zero_of_reach (reach_of_notMem_lost hi hv) hv h0
  used := nofun
  apart := fun i hi => ⟨hi.1, id⟩
  up := fun i v hi hv ht hc => hc.2 (h.reach_up (reach_of_notMem_lost hi hv) hv ht)
  entry := fun i j hi hj hij hc => by
    obtain ⟨v, hv, -⟩ := linksFrom_pos hij
    exact hc.2 (.step (reach_of_notMem_lost hi hv) hj hij)

namespace Held

/-- Lookup does not lead into the set apart. -/
theorem child (h : N.Held U O n) (hi : i ∉ O) (hc : N.child i name = some j) : j ∉ O := by
  obtain ⟨v, hv, ht, rfl | rfl | ⟨hj, hij⟩⟩ := h.tree.child_leads hc
  · exact hi
  · exact h.up i v hi hv ht
  · exact h.entry i j hi hj hij

theorem notMem (h : N.Held U O n) (hi : U i) : i ∉ O := fun hc => (h.apart i hc).2 hi

/-- An inode comes into use. -/
theorem grow (h : N.Held U O n) (hy : y ∉ O) (hv : N y = some v) :
    N.Held (fun x => U x ∨ x = y) O n where
  tree := h.tree
  root := h.root
  kept := fun i v hv h0 hi => .inl (h.kept i v hv h0 hi)
  used := by
    rintro i (hi | rfl)
    · exact h.used i hi
    · exact ⟨v, hv⟩
  apart := by
    refine fun i hi => ⟨(h.apart i hi).1, ?_⟩
    rintro (hU | rfl)
    · exact (h.apart i hi).2 hU
    · exact hy hi
  up := h.up
  entry := h.entry

theorem linksFrom_reap (h : 0 < linksFrom (N.reap U y) i j) : 0 < N.linksFrom i j := by
  obtain ⟨u, hu, hut, hpos⟩ := linksFrom_pos h
  rw [linksFrom_eq ((frees_reap N U y).apply hu) hut]
  exact hpos

/-- An inode goes out of use, and is freed if it has no links. -/
theorem reap (h : N.Held (fun x => U x ∨ x = y) O n) : (N.reap U y).Held U O n := by
  have hback : ∀ {i v}, N.reap U y i = some v → N i = some v := (frees_reap N U y).apply
  have hkeep : ∀ i, U i ∨ i ∈ O → N.reap U y i = N i := by
    intro i hi
    rcases eq_or_ne i y with rfl | hiy
    · rcases hi with hi | hi
      · rw [reap_of_inUse hi]
      · exact absurd (Or.inr rfl) (h.apart i hi).2
    · exact reap_of_ne N U hiy
  constructor
  case tree => exact h.tree.reap y
  case root => exact h.root
  case kept =>
    intro i v hv h0 hi
    rcases h.kept i v (hback hv) h0 hi with hU | rfl
    · exact hU
    · by_contra hU
      rw [reap_of_free (hback hv) h0 hU, update_self] at hv
      cases hv
  case used =>
    intro i hi
    rw [hkeep i (.inl hi)]
    exact h.used i (.inl hi)
  case apart =>
    intro i hi
    rw [hkeep i (.inr hi)]
    exact ⟨(h.apart i hi).1, fun hU => (h.apart i hi).2 (.inl hU)⟩
  case up => exact fun i v hi hv ht => h.up i v hi (hback hv) ht
  case entry => exact fun i j hi hj hij => h.entry i j hi hj (linksFrom_reap hij)

/-- A file is written. -/
theorem bytes (h : N.Held U O n) (hv : N i = some v) (ht : v.type ≠ T_DIR) (b : List UInt8) :
    Held (update N i (some { v with bytes := b })) U O n := by
  obtain ⟨htree, hlinks⟩ := h.tree.bytes hv ht b
  have hsome : ∀ {j}, (∃ u, N j = some u) →
      ∃ u, update N i (some { v with bytes := b }) j = some u := by
    rintro j ⟨u, hu⟩
    rcases eq_or_ne j i with rfl | hj
    · exact ⟨_, update_self ..⟩
    · exact ⟨u, (update_of_ne hj ..).trans hu⟩
  constructor
  case tree => exact htree
  case root => exact h.root
  case kept =>
    intro j u hu h0 hj
    obtain ⟨rfl, ⟨⟩⟩ | ⟨hji, hu⟩ := update_cases hu
    · exact h.kept j v hv h0 hj
    · exact h.kept j u hu h0 hj
  case used => exact fun j hj => hsome (h.used j hj)
  case apart => exact fun j hj => ⟨hsome (h.apart j hj).1, (h.apart j hj).2⟩
  case up =>
    intro j u hj hu hut
    obtain ⟨rfl, ⟨⟩⟩ | ⟨hji, hu⟩ := update_cases hu
    · exact absurd hut ht
    · exact h.up j u hj hu hut
  case entry =>
    intro j x hj hx hjx
    rw [hlinks] at hjx
    exact h.entry j x hj hx hjx

/-- A new inode without entries is in use. -/
theorem add (h : N.Held U O n) (hnone : N c = none) (hw : w.type = T_DIR → w.slots = [] ∧ w.up ∉ O)
    (htree : Tree (update N c (some w)) n) :
    Held (update N c (some w)) (fun x => U x ∨ x = c) O n := by
  have hne : ∀ {i}, (∃ v, N i = some v) → i ≠ c := by
    rintro i ⟨v, hv⟩ rfl
    rw [hnone] at hv
    cases hv
  have hcO : c ∉ O := fun hc => hne (h.apart c hc).1 rfl
  constructor
  case tree => exact htree
  case root => exact h.root
  case kept =>
    intro i v hv h0 hi
    by_cases hic : i = c
    · exact .inr hic
    · rw [update_of_ne hic] at hv
      exact .inl (h.kept i v hv h0 hi)
  case used =>
    rintro i (hi | rfl)
    · rw [update_of_ne (hne (h.used i hi))]
      exact h.used i hi
    · exact ⟨w, update_self ..⟩
  case apart =>
    intro i hi
    rw [update_of_ne (hne (h.apart i hi).1)]
    refine ⟨(h.apart i hi).1, ?_⟩
    rintro (hU | rfl)
    · exact (h.apart i hi).2 hU
    · exact hcO hi
  case up =>
    intro i v hi hv ht
    obtain ⟨rfl, ⟨⟩⟩ | ⟨hic, hv⟩ := update_cases hv
    · exact (hw ht).2
    · exact h.up i v hi hv ht
  case entry =>
    intro i j hi hj hij
    rw [linksFrom_add hnone fun ht => (hw ht).1] at hij
    exact h.entry i j hi hj hij

/-- An entry for `c` in directory `d` comes or goes while both are in use. -/
theorem relink {a b : ℕ} (h : N.Held U O n) (hr : Relink N N' n d c a b) (htree : N'.Tree n)
    (hd : U d) (hc : U c) : N'.Held U O n := by
  have hsame : ∀ i, i ∈ O → N' i = N i := by
    intro i hi
    refine hr.same i ?_ ?_
    · rintro rfl
      exact h.notMem hd hi
    · rintro rfl
      exact h.notMem hc hi
  constructor
  case tree => exact htree
  case root => exact h.root
  case kept =>
    intro i v hv h0 hi
    by_cases hid : i = d
    · exact hid ▸ hd
    · by_cases hic : i = c
      · exact hic ▸ hc
      · rw [hr.same i hid hic] at hv
        exact h.kept i v hv h0 hi
  case used =>
    intro i hi
    obtain ⟨v, hv⟩ := h.used i hi
    exact hr.isSome hv
  case apart =>
    intro i hi
    rw [hsame i hi]
    exact h.apart i hi
  case up =>
    intro i v hi hv ht
    obtain ⟨u, hu, htype, hup⟩ := hr.back hv
    rw [hup]
    exact h.up i u hi hu (htype ▸ ht)
  case entry =>
    intro i j hi hj hij
    by_cases hjc : j = c
    · exact hjc ▸ h.notMem hc
    · rw [hr.linksFrom_other hj hjc] at hij
      exact h.entry i j hi hj hij

end Held

end Nodes

end Xv6
