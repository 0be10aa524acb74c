import Xv6.Fs.Image
import Xv6.Sys.Policy

/-! # Link counts

The link count of an inode is to be the number of entries other than `.` that name it, in directories
that have links themselves. `create` does not ask whether the directory it enters a name in still has
links, and the current directory of a process may have lost them. As long as names are entered in
directories with links only, the counts stay exact. -/

namespace Xv6

open Function

/-- How many entries of a directory name inode `i`, not counting `.`. -/
def Node.names (v : Node) (i : ℕ) : ℕ :=
  (entries v.bytes).countP fun de => de.inum = i ∧ namecmp de.name [dot] ≠ 0

namespace Nodes

variable {N N' : Nodes} {U : ℕ → Prop} {n c d i p x y : ℕ} {v w : Node}

/-- Entries for inode `i` in `d`, if `d` is a directory that has links. -/
def namesFrom (N : Nodes) (d i : ℕ) : ℕ :=
  (N d).elim 0 fun v => if v.type = T_DIR ∧ 1 ≤ v.nlink.toInt then v.names i else 0

/-- Every link count is the number of entries for the inode. -/
def Exact (N : Nodes) (n : ℕ) : Prop :=
  ∀ i v, N i = some v → v.nlink.toInt = (∑ d ∈ Finset.range n, N.namesFrom d i : ℕ)

/-- The directory has links, and its `..` names `i`. -/
def upFrom (N : Nodes) (d i : ℕ) : ℕ :=
  (N d).elim 0 fun v => if v.type = T_DIR ∧ v.nlink ≠ 0 ∧ v.up = i then 1 else 0

/-! ## The two kinds of entries -/

theorem Tree.one_le_nlink (h : N.Tree n) (hv : N d = some v) (ht : v.type = T_DIR) :
    1 ≤ v.nlink.toInt ↔ v.nlink ≠ 0 := by
  have hdirs := h.dirs d v hv ht
  rw [Ne, ← Int16.toInt_inj, Int16.toInt_zero]
  split at hdirs <;> omega

/-- A directory is `.`, then `..`, then the other entries. -/
theorem entries_eq (h : v.Shape n d) :
    entries v.bytes = entryAt v.bytes 0 :: entryAt v.bytes 1 :: v.slots := by
  have hlen : 2 ≤ v.bytes.length / DIRENT := length_entries v.bytes ▸ h.two_le
  have h0 : (entries v.bytes)[0]? = some (entryAt v.bytes 0) := entries_getElem? (by omega)
  have h1 : (entries v.bytes)[1]? = some (entryAt v.bytes 1) := entries_getElem? (by omega)
  match hes : entries v.bytes with
  | e0 :: e1 :: es =>
    rw [hes, List.getElem?_cons_zero, Option.some.injEq] at h0
    rw [hes, List.getElem?_cons_succ, List.getElem?_cons_zero, Option.some.injEq] at h1
    rw [Node.slots, hes, h0, h1]
    rfl
  | [e0] => rw [hes] at h1; cases h1
  | [] => rw [hes] at h0; cases h0

theorem names_eq (h : v.Shape n d) (hi : i ≠ 0) :
    v.names i = v.links i + if v.up = i then 1 else 0 := by
  have hdotdot : namecmp (entryAt v.bytes 1).name [dot] ≠ 0 := by
    intro hc
    have hcut := h.dotdot
    rw [namecmp_eq_zero_iff] at hcut hc
    exact absurd (hcut.symm.trans hc) (by decide)
  have hrest : v.slots.countP (fun de => decide (de.inum = i ∧ namecmp de.name [dot] ≠ 0)) =
      v.links i := by
    refine List.countP_congr fun de hde => ?_
    simp only [decide_eq_true_eq]
    refine ⟨And.left, fun hc => ⟨hc, h.no_dot de hde ?_⟩⟩
    rw [hc]
    exact hi
  rw [Node.names, entries_eq h, List.countP_cons, List.countP_cons, hrest]
  by_cases hup : (entryAt v.bytes 1).inum = i
  · simp [h.dot, hdotdot, Node.up, hup]
  · simp [h.dot, Node.up, hup]

theorem namesFrom_of_unlinked (hv : N d = some v) (h0 : v.nlink = 0) (i : ℕ) :
    N.namesFrom d i = 0 := by
  simp only [namesFrom, hv, Option.elim_some]
  refine if_neg fun hc => ?_
  rw [h0, Int16.toInt_zero] at hc
  omega

theorem upFrom_of_unlinked (hv : N d = some v) (h0 : v.nlink = 0) (i : ℕ) : N.upFrom d i = 0 := by
  simp only [upFrom, hv, Option.elim_some]
  exact if_neg fun hc => hc.2.1 h0

/-- The entries of a directory that has links are those with a name and `..`. -/
theorem Tree.namesFrom_of_linked (h : N.Tree n) (hd : ∀ v, N d = some v → v.type = T_DIR → v.nlink ≠ 0)
    (hi : i ≠ 0) : N.namesFrom d i = N.linksFrom d i + N.upFrom d i := by
  cases hv : N d with
  | none => simp only [namesFrom, linksFrom, upFrom, hv, Option.elim_none]
  | some v =>
    simp only [namesFrom, linksFrom, upFrom, hv, Option.elim_some]
    by_cases ht : v.type = T_DIR
    · have h0 := hd v hv ht
      rw [if_pos ⟨ht, (h.one_le_nlink hv ht).mpr h0⟩, if_pos ht, names_eq (h.shape d v hv ht) hi]
      simp only [ht, h0, ne_eq, not_false_eq_true, true_and]
    · rw [if_neg fun hc => ht hc.1, if_neg ht, if_neg fun hc => ht hc.1]

/-! ## Subdirectories -/

/-- The entries of a directory that name directories, by the inode they name. -/
theorem countP_inum_eq_sum (q : ℕ → Bool) (hq : ∀ x, q x = true → x < n) (l : List Dirent) :
    l.countP (fun de => q de.inum) =
      ∑ x ∈ Finset.range n, if q x = true then l.countP (fun de => de.inum = x) else 0 := by
  induction l with
  | nil => simp
  | cons de l ih =>
    have hone : (∑ x ∈ Finset.range n, if q x = true then (if de.inum = x then 1 else 0) else 0) =
        if q de.inum = true then 1 else 0 := by
      by_cases hde : q de.inum = true
      · rw [if_pos hde, Finset.sum_eq_single_of_mem de.inum (Finset.mem_range.mpr (hq _ hde))]
        · rw [if_pos hde, if_pos rfl]
        · intro x _ hx
          rw [if_neg hx.symm, ite_self]
      · rw [if_neg hde]
        refine Finset.sum_eq_zero fun x _ => ?_
        by_cases hx : de.inum = x
        · rw [← hx, if_neg hde]
        · rw [if_neg hx, ite_self]
    rw [List.countP_cons, ih, ← hone, ← Finset.sum_add_distrib]
    refine Finset.sum_congr rfl fun x _ => ?_
    by_cases hx : q x = true
    · simp only [if_pos hx, List.countP_cons, decide_eq_true_eq]
    · simp only [if_neg hx]

theorem Tree.subdirs_eq_sum (h : N.Tree n) (hv : N p = some v) (ht : v.type = T_DIR) :
    N.subdirs v = ∑ x ∈ Finset.range n, if N.isDir x = true then N.linksFrom p x else 0 := by
  rw [subdirs, countP_inum_eq_sum (n := n) N.isDir]
  · simp only [linksFrom_eq hv ht, Node.links]
  · intro x hx
    obtain ⟨u, hu, -⟩ := isDir_iff.mp hx
    exact h.lt hu

/-- The root has links, and no directory has an entry for it. -/
theorem Tree.root_links (h : N.Tree n) : ∃ v, N ROOTINO = some v ∧ v.type = T_DIR ∧ v.up = ROOTINO ∧
    v.nlink ≠ 0 ∧ ∀ d, N.linksFrom d ROOTINO = 0 := by
  obtain ⟨v, hv, ht, hup⟩ := h.root
  refine ⟨v, hv, ht, hup, fun h0 => ((h.of_nlink_zero hv h0).2 ht).2 rfl, fun d => ?_⟩
  by_contra hne
  exact (h.parent d ROOTINO v (Nat.pos_of_ne_zero hne) hv ht).2.2.1 rfl

theorem Tree.linksFrom_of_count (h : N.Tree n) (d : ℕ) (hcount : N.count n x = 0) :
    N.linksFrom d x = 0 := by
  by_contra hne
  obtain ⟨w, hw, -⟩ := linksFrom_pos (Nat.pos_of_ne_zero hne)
  have := N.linksFrom_le_count (h.lt hw) x
  omega

/-- A directory with a name leads back to the directory that names it, and the root to itself. -/
theorem Tree.upFrom_eq (h : N.Tree n) (p : ℕ)
    (hx : ∀ u, N x = some u → u.type = T_DIR → x ≠ ROOTINO → N.count n x = 0 → u.nlink = 0) :
    N.upFrom x p = (if N.isDir x = true then N.linksFrom p x else 0) +
      if x = ROOTINO ∧ p = ROOTINO then 1 else 0 := by
  rcases eq_or_ne x ROOTINO with rfl | hroot
  · obtain ⟨v, hv, ht, hup, h0, hnone⟩ := h.root_links
    simp only [upFrom, hv, Option.elim_some, ht, h0, hup, hnone, ne_eq, not_false_eq_true, true_and,
      ite_self, Nat.zero_add, @eq_comm _ ROOTINO p]
  rw [if_neg (c := x = ROOTINO ∧ p = ROOTINO) fun hc => hroot hc.1, Nat.add_zero]
  by_cases hdir : N.isDir x = true
  · obtain ⟨u, hu, ht⟩ := isDir_iff.mp hdir
    simp only [upFrom, hu, Option.elim_some, ht, true_and, if_pos hdir]
    by_cases hcount : N.count n x = 0
    · -- no name, no links
      rw [h.linksFrom_of_count p hcount, if_neg fun hc => hc.1 (hx u hu ht hroot hcount)]
    · obtain ⟨d, -, hd⟩ := count_pos (Nat.pos_of_ne_zero hcount)
      have h0 : u.nlink ≠ 0 := fun h0 => hcount (h.of_nlink_zero hu h0).1
      obtain ⟨hup, -, -, hone⟩ := h.parent d x u hd hu ht
      by_cases hpd : p = d
      · rw [hpd, hone, if_pos ⟨h0, hup⟩]
      · rw [if_neg fun hc => hpd (hc.2.symm.trans hup)]
        by_contra hne
        have hpos : 0 < N.linksFrom p x := Nat.pos_of_ne_zero (Ne.symm hne)
        exact hpd ((h.parent p x u hpos hu ht).1.symm.trans hup)
  · rw [if_neg hdir]
    cases hu : N x with
    | none => simp only [upFrom, hu, Option.elim_none]
    | some u =>
      simp only [upFrom, hu, Option.elim_some]
      exact if_neg fun hc => hdir (isDir_of hu hc.1)

/-- Directories that lead back to `p` are at least those that `p` has entries for. -/
theorem Tree.le_upFrom (h : N.Tree n) (p x : ℕ) :
    (if N.isDir x = true then N.linksFrom p x else 0) + (if x = ROOTINO ∧ p = ROOTINO then 1 else 0) ≤
      N.upFrom x p := by
  by_cases hx : ∀ u, N x = some u → u.type = T_DIR → x ≠ ROOTINO → N.count n x = 0 → u.nlink = 0
  · exact (h.upFrom_eq p hx).ge
  · push Not at hx
    obtain ⟨u, -, -, hroot, hcount, -⟩ := hx
    rw [h.linksFrom_of_count p hcount, if_neg (c := x = ROOTINO ∧ p = ROOTINO) fun hc => hroot hc.1,
      ite_self]
    exact Nat.zero_le _

theorem Tree.sum_subdirs (h : N.Tree n) (hv : N p = some v) (ht : v.type = T_DIR) :
    ∑ x ∈ Finset.range n, ((if N.isDir x = true then N.linksFrom p x else 0) +
      if x = ROOTINO ∧ p = ROOTINO then 1 else 0) = N.subdirs v + if p = ROOTINO then 1 else 0 := by
  obtain ⟨u, hu, -⟩ := h.root
  rw [Finset.sum_add_distrib, ← h.subdirs_eq_sum hv ht]
  congr 1
  rw [Finset.sum_eq_single_of_mem ROOTINO (Finset.mem_range.mpr (h.lt hu))]
  · simp only [true_and]
  · intro x _ hx
    exact if_neg fun hc => hx hc.1

/-! ## Exact counts -/

/-- What keeps the link count of an inode `i` with `k` names exact: a file has as many links as names, a
directory without links has no entries, and one without a name has no links. -/
structure LinkedAt (i k : ℕ) (v : Node) : Prop where
  file : v.type ≠ T_DIR → v.nlink.toInt = k
  bare : v.type = T_DIR → v.nlink = 0 → ∀ de ∈ v.slots, de.inum = 0
  named : v.type = T_DIR → i ≠ ROOTINO → k = 0 → v.nlink = 0

def Linked (N : Nodes) (n : ℕ) : Prop := ∀ i v, N i = some v → LinkedAt i (N.count n i) v

theorem Tree.ne_zero (h : N.Tree n) (hv : N i = some v) : i ≠ 0 := by
  have := (h.pos i v hv).1
  omega

/-- The entries that count are the names and the `..` of directories that have links. -/
theorem Tree.sum_namesFrom (h : N.Tree n) (hbare : ∀ d v, N d = some v → v.type = T_DIR →
    v.nlink = 0 → ∀ de ∈ v.slots, de.inum = 0) (hi : i ≠ 0) :
    ∑ d ∈ Finset.range n, N.namesFrom d i = N.count n i + ∑ d ∈ Finset.range n, N.upFrom d i := by
  rw [count, ← Finset.sum_add_distrib]
  refine Finset.sum_congr rfl fun d _ => ?_
  by_cases hd : ∀ v, N d = some v → v.type = T_DIR → v.nlink ≠ 0
  · exact h.namesFrom_of_linked hd hi
  · push Not at hd
    obtain ⟨v, hv, ht, h0⟩ := hd
    have hlinks : N.linksFrom d i = 0 := by
      rw [linksFrom_eq hv ht]
      refine List.countP_eq_zero.mpr fun de hde => ?_
      rw [hbare d v hv ht h0 de hde, decide_eq_true_eq]
      exact hi.symm
    rw [namesFrom_of_unlinked hv h0, upFrom_of_unlinked hv h0, hlinks]

theorem Tree.ne_root (h : N.Tree n) (hv : N i = some v) (ht : v.type ≠ T_DIR) : i ≠ ROOTINO := by
  rintro rfl
  obtain ⟨u, hu, hut, -⟩ := h.root
  exact ht (Option.some.inj (hv.symm.trans hu) ▸ hut)

theorem Linked.exact (hl : N.Linked n) (h : N.Tree n) : N.Exact n := by
  intro i v hv
  have hsum : ∑ x ∈ Finset.range n, N.upFrom x i = ∑ x ∈ Finset.range n,
      ((if N.isDir x = true then N.linksFrom i x else 0) + if x = ROOTINO ∧ i = ROOTINO then 1 else 0) :=
    Finset.sum_congr rfl fun x _ => h.upFrom_eq i fun u hu => (hl x u hu).named
  rw [h.sum_namesFrom (fun d u hu => (hl d u hu).bare) (h.ne_zero hv), hsum]
  by_cases ht : v.type = T_DIR
  · rw [h.sum_subdirs hv ht, h.dirs i v hv ht]
    push_cast
    split <;> omega
  · have hzero : ∑ x ∈ Finset.range n, ((if N.isDir x = true then N.linksFrom i x else 0) +
        if x = ROOTINO ∧ i = ROOTINO then 1 else 0) = 0 := by
      refine Finset.sum_eq_zero fun x _ => ?_
      rw [linksFrom_of_file hv ht, ite_self, if_neg fun hc => h.ne_root hv ht hc.2,
        Nat.add_zero]
    rw [hzero, Nat.add_zero, (hl i v hv).file ht]

/-- Exact counts are all there is to it, if the `..` of directories with links name directories. -/
theorem Exact.linked (he : N.Exact n) (h : N.Tree n)
    (hups : ∀ d v, N d = some v → v.type = T_DIR → v.nlink ≠ 0 → N.isDir v.up = true) :
    N.Linked n := by
  have hfile : ∀ {i v}, N i = some v → v.type ≠ T_DIR → ∀ d, N.upFrom d i = 0 := by
    intro i v hv ht d
    cases hu : N d with
    | none => simp only [upFrom, hu, Option.elim_none]
    | some u =>
      simp only [upFrom, hu, Option.elim_some]
      refine if_neg fun hc => ?_
      have hdir := hups d u hu hc.1 hc.2.1
      rw [hc.2.2, isDir_eq_decide hv, decide_eq_true_eq] at hdir
      exact ht hdir
  have hbare : ∀ d v, N d = some v → v.type = T_DIR → v.nlink = 0 → ∀ de ∈ v.slots, de.inum = 0 := by
    intro d v hv ht h0 de hde
    by_contra hne
    have hpos : 0 < N.linksFrom d de.inum := linksFrom_eq hv ht _ ▸ links_pos hde
    obtain ⟨w, hw⟩ := h.alloc d de.inum hne hpos
    by_cases hwt : w.type = T_DIR
    · rw [h.linksFrom_dir_eq_zero hv h0 (isDir_of hw hwt)] at hpos
      omega
    · -- the entry would not be counted, but a file has a link for each of its names
      have hlt : ∑ x ∈ Finset.range n, N.namesFrom x de.inum < N.count n de.inum := by
        refine Finset.sum_lt_sum (fun x _ => ?_) ⟨d, Finset.mem_range.mpr (h.lt hv), ?_⟩
        · by_cases hx : ∀ u, N x = some u → u.type = T_DIR → u.nlink ≠ 0
          · rw [h.namesFrom_of_linked hx hne, hfile hw hwt, Nat.add_zero]
          · push Not at hx
            obtain ⟨u, hu, -, hu0⟩ := hx
            rw [namesFrom_of_unlinked hu hu0]
            exact Nat.zero_le _
        · rwa [namesFrom_of_unlinked hv h0]
      have hle := h.files _ w hw hwt
      have := he _ w hw
      omega
  have hsum : ∀ {i v}, N i = some v →
      v.nlink.toInt = N.count n i + (∑ d ∈ Finset.range n, N.upFrom d i : ℕ) := by
    intro i v hv
    have := he i v hv
    rw [h.sum_namesFrom hbare (h.ne_zero hv)] at this
    omega
  intro d v hv
  constructor
  case file =>
    intro ht
    have := hsum hv
    rw [Finset.sum_eq_zero fun x _ => hfile hv ht x] at this
    omega
  case bare => exact hbare d v hv
  case named =>
    intro ht hroot hcount
    by_contra h0
    -- its parent would count it, but has no entry for it
    obtain ⟨u, hu, hut⟩ := isDir_iff.mp (hups d v hv ht h0)
    have hlt : N.subdirs u + (if v.up = ROOTINO then 1 else 0) <
        ∑ x ∈ Finset.range n, N.upFrom x v.up := by
      rw [← h.sum_subdirs hu hut]
      refine Finset.sum_lt_sum (fun x _ => h.le_upFrom v.up x) ⟨d, Finset.mem_range.mpr (h.lt hv), ?_⟩
      rw [h.linksFrom_of_count v.up hcount, ite_self, if_neg fun hc => hroot hc.1]
      simp only [upFrom, hv, Option.elim_some, ht, h0, ne_eq, not_false_eq_true, true_and, if_true]
      omega
    have hdirs := h.dirs _ u hu hut
    have := hsum hu
    split at hdirs <;> split at hlt <;> omega

/-! ## Changes -/

theorem Linked.linksFrom_eq_zero (hl : N.Linked n) (hv : N y = some v) (h0 : v.nlink = 0)
    (hi : i ≠ 0) : N.linksFrom y i = 0 := by
  by_contra hne
  obtain ⟨u, hu, ht, hpos⟩ := linksFrom_pos (Nat.pos_of_ne_zero hne)
  obtain rfl := Option.some.inj (hv.symm.trans hu)
  obtain ⟨de, hde, hinum⟩ := List.countP_pos_iff.mp hpos
  rw [decide_eq_true_eq, (hl y v hv).bare ht h0 de hde] at hinum
  exact hi hinum.symm

/-- Freeing an inode takes no entries away. -/
theorem Linked.reap (hl : N.Linked n) (h : N.Tree n) (y : ℕ) : (N.reap U y).Linked n := by
  by_cases hy : ¬ U y ∧ ∃ v, N y = some v ∧ v.nlink = 0
  · obtain ⟨hU, v, hv, h0⟩ := hy
    intro i u hu
    have hu' := (frees_reap N U y).apply hu
    have hcount := count_remove (N := N) (h.lt hv) i
    rw [hl.linksFrom_eq_zero hv h0 (h.ne_zero hu'), Nat.add_zero, ← reap_of_free hv h0 hU] at hcount
    rw [hcount]
    exact hl i u hu'
  · rw [Nodes.reap, if_neg hy]
    exact hl

/-- The contents of a file are not part of the name space. -/
theorem Linked.bytes (hl : N.Linked n) (h : N.Tree n) (hv : N i = some v) (ht : v.type ≠ T_DIR)
    (b : List UInt8) : Linked (update N i (some { v with bytes := b })) n := by
  intro j u hu
  have hcount : count (update N i (some { v with bytes := b })) n j = N.count n j :=
    Finset.sum_congr rfl fun d _ => (h.bytes hv ht b).2 d j
  rw [hcount]
  obtain ⟨rfl, ⟨⟩⟩ | ⟨hj, hu⟩ := update_cases hu
  · exact ⟨(hl j v hv).file, fun hc => absurd hc ht, fun hc => absurd hc ht⟩
  · exact hl j u hu

/-- A new inode has no names and no entries. -/
theorem Linked.add (hl : N.Linked n) (h : N.Tree n) (hc : c ≠ 0) (hnone : N c = none) (h0 : w.nlink = 0)
    (hw : w.type = T_DIR → w.slots = []) : Linked (update N c (some w)) n := by
  intro j u hu
  rw [count_add hnone hw]
  rcases eq_or_ne j c with rfl | hj
  · rw [update_self] at hu
    cases hu
    have hcount : N.count n j = 0 := by
      by_contra hne
      obtain ⟨d, -, hd⟩ := count_pos (Nat.pos_of_ne_zero hne)
      obtain ⟨v, hv⟩ := h.alloc d j hc hd
      rw [hnone] at hv
      cases hv
    rw [hcount]
    refine ⟨fun _ => ?_, fun ht _ => ?_, fun _ _ _ => h0⟩
    · rw [h0]
      rfl
    · rw [hw ht]
      nofun
  · rw [update_of_ne hj] at hu
    exact hl j u hu

/-- A name is entered in a directory that has links. -/
theorem Linked.enter (hl : N.Linked n) (h : N.Tree n) (hr : Relink N N' n d c 0 1)
    (hd : ∀ v, N d = some v → v.nlink ≠ 0) : N'.Linked n := by
  obtain ⟨v, v', hv, hv', ht, hshape, -, -, hvlink⟩ := hr.dir
  obtain ⟨w, w', hw, hw', hwt, hwb, hwlink⟩ := hr.node
  have hvpos := (h.one_le_nlink hv ht).mpr (hd v hv)
  intro j u hu
  rcases eq_or_ne j d with rfl | hjd
  · obtain rfl := Option.some.inj (hv'.symm.trans hu)
    have h0 : v'.nlink ≠ 0 := by
      rw [Ne, ← Int16.toInt_inj, Int16.toInt_zero]
      split at hvlink <;> omega
    rw [hr.count_other (h.ne_zero hv) hr.ne.symm]
    refine ⟨fun hc => absurd hshape.isDir.type hc, fun _ hc => absurd hc h0, fun _ hroot hcount => ?_⟩
    exact absurd ((hl j v hv).named ht hroot hcount) (hd v hv)
  · rcases eq_or_ne j c with rfl | hjc
    · obtain rfl := Option.some.inj (hw'.symm.trans hu)
      have hcount := hr.count_eq (h.lt hv) hr.pos
      rw [if_pos rfl, if_pos rfl] at hcount
      refine ⟨fun hf => ?_, fun hdir h0 => ?_, fun _ _ _ => ?_⟩
      · have := (hl j w hw).file (hwt ▸ hf)
        omega
      · have := h.dirs j w hw (hwt ▸ hdir)
        rw [h0, Int16.toInt_zero] at hwlink
        split at this <;> omega
      · omega
    · rw [hr.same j hjd hjc] at hu
      rw [hr.count_other (h.ne_zero hu) hjc]
      exact hl j u hu

/-- A name is removed; a directory that loses its name is empty. -/
theorem Linked.leave (hl : N.Linked n) (h : N.Tree n) (hw : N c = some w)
    (hempty : w.type = T_DIR → ∀ de ∈ w.slots, de.inum = 0) (hr : Relink N N' n d c 1 0)
    (h' : N'.Tree n) : N'.Linked n := by
  obtain ⟨v, v', hv, hv', ht, hshape, -, -, hvlink⟩ := hr.dir
  obtain ⟨w1, w', hw1, hw', hwt, hwb, hwlink⟩ := hr.node
  obtain rfl := Option.some.inj (hw.symm.trans hw1)
  have hlinks := hr.linksFrom_dir hr.pos
  rw [if_pos rfl, if_pos rfl] at hlinks
  -- the directory had an entry, so it had a name and links
  have hv0 : v.nlink ≠ 0 := by
    intro h0
    have := hl.linksFrom_eq_zero hv h0 hr.pos
    omega
  have hnamed : d ≠ ROOTINO → N.count n d ≠ 0 := fun hroot hc => hv0 ((hl d v hv).named ht hroot hc)
  intro j u hu
  rcases eq_or_ne j d with rfl | hjd
  · obtain rfl := Option.some.inj (hv'.symm.trans hu)
    have hcount := hr.count_other (h.ne_zero hv) hr.ne.symm
    have h0 : v'.nlink ≠ 0 := by
      intro h0
      have hz := (h'.of_nlink_zero hv' h0)
      exact hnamed (hz.2 hshape.isDir.type).2 (hcount ▸ hz.1)
    rw [hcount]
    refine ⟨fun hc => absurd hshape.isDir.type hc, fun _ hc => absurd hc h0, fun _ hroot hc => ?_⟩
    exact absurd hc (hnamed hroot)
  · rcases eq_or_ne j c with rfl | hjc
    · obtain rfl := Option.some.inj (hw'.symm.trans hu)
      have hcount := hr.count_eq (h.lt hv) hr.pos
      rw [if_pos rfl, if_pos rfl] at hcount
      have hslots : w'.type = T_DIR → ∀ de ∈ w'.slots, de.inum = 0 := by
        rw [hwt, Node.slots, hwb]
        exact hempty
      refine ⟨fun hf => ?_, fun hdir _ => hslots hdir, fun hdir hroot hc => ?_⟩
      · have := (hl j w hw).file (hwt ▸ hf)
        omega
      · have hdirs := h'.dirs j w' hw' hdir
        rw [hc, h'.subdirs_of_empty (hslots hdir), if_neg hroot] at hdirs
        exact Int16.toInt_inj.mp hdirs
    · rw [hr.same j hjd hjc] at hu
      rw [hr.count_other (h.ne_zero hu) hjc]
      exact hl j u hu

end Nodes

/-! ## The policy -/

/-- Names are entered in directories that have links. -/
def Policy.linked : Policy where
  Inv := fun N _ _ n => N.Linked n
  Enter := fun N _ d => ∀ v, N d = some v → v.nlink ≠ 0
  Leave := fun _ _ _ _ _ => True
  NoType := True

theorem Policy.linked_lawful : Policy.linked.Lawful where
  grow := fun _ hl _ _ => hl
  reap := fun hheld hl => hl.reap hheld.tree _
  bytes := fun hheld hl hv ht b => hl.bytes hheld.tree hv ht b
  make := by
    intro N N' U O n d c w hheld hl henter hd hnone h0 hw hbare hr htree'
    obtain ⟨v, hv⟩ := hheld.used d hd
    have hdc : d ≠ c := ne_of_values hv hnone nofun
    refine (hl.add hheld.tree hr.pos hnone h0 fun ht => (hw ht).1).enter hbare hr fun u hu => ?_
    rw [update_of_ne hdc] at hu
    exact henter u hu
  link := fun hheld hl henter _ _ _ hr _ => hl.enter hheld.tree hr henter
  leave := by
    intro N N' U O n d c w hheld hl _ _ _ hw hempty hr htree'
    exact ((hl.leave hheld.tree hw hempty hr htree').reap htree' d).reap (htree'.reap d) c
  alloc := fun hno => absurd trivial hno

namespace Sys

variable {m : ℕ} {initproc : Fin m} {s : Fs} {σ τ : Sys m} {as : List (Fin m × Call)}

/-- **Link counts are exact** in runs that enter names only in directories that have links. -/
theorem link_counts_exact (hs : s.Rep s.nodes fun _ => 0) (htree : s.nodes.Tree s.sb.ninodes)
    (hexact : s.nodes.Exact s.sb.ninodes)
    (hups : ∀ d v, s.nodes d = some v → v.type = T_DIR → v.nlink ≠ 0 → s.nodes.isDir v.up = true)
    (hinit : userinit initproc (Sys.boot s) = .ok ((), σ))
    (hrun : runFrom (step initproc) σ as = some τ)
    (henters : AllSteps (step initproc) (fun ρ a _ => ∀ c r, ρ.Asks a c r → r.Fits ρ.fs.nodes c ∧
      r.Enters ρ.fs.nodes c fun d => ∀ v, ρ.fs.nodes d = some v → v.nlink ≠ 0) σ as) :
    τ.fs.nodes.Exact τ.fs.sb.ninodes := by
  have hinv := Policy.run Policy.linked_lawful hs htree (hexact.linked htree hups) hinit hrun
    (henters.mono fun _ _ _ h c r hask => ⟨(h c r hask).1, (h c r hask).2,
      r.leaves_of_forall _ _ fun _ _ => trivial⟩)
  have hl : τ.fs.nodes.Linked τ.fs.sb.ninodes := hinv.fine.inv
  exact hl.exact hinv.fine.held.tree

/-- An image with the directory `/a`. -/
def oneDir : Image where
  files := [⟨T_DIR, 0, 0, 2, Dirent.encode ⟨1, strncpy [dot] DIRSIZ⟩ ++
      Dirent.encode ⟨1, strncpy [dot, dot] DIRSIZ⟩ ++ Dirent.encode ⟨2, strncpy [97] DIRSIZ⟩⟩,
    ⟨T_DIR, 0, 0, 1, Dirent.encode ⟨2, strncpy [dot] DIRSIZ⟩ ++
      Dirent.encode ⟨1, strncpy [dot, dot] DIRSIZ⟩⟩]
  pos := by decide
  lt := by decide
  small := by decide

theorem oneDir_tree : (oneDir.fs 0).nodes.Tree (oneDir.fs 0).sb.ninodes :=
  oneDir.tree (by decide +kernel) (by decide +kernel) (by decide +kernel)

theorem oneDir_cases {i : ℕ} {v : Node} (hv : oneDir.node i = some v) : i = 1 ∨ i = 2 := by
  have hi := Image.node_lt hv
  have hlen : oneDir.files.length = 2 := rfl
  omega

theorem oneDir_exact : (oneDir.fs 0).nodes.Exact (oneDir.fs 0).sb.ninodes := by
  have hcheck : ∀ i, i = 1 ∨ i = 2 → (oneDir.node i).all (fun v : Node => decide (v.nlink.toInt =
      (∑ d ∈ Finset.range IPB, Nodes.namesFrom oneDir.node d i : ℕ))) = true := by
    rintro i (rfl | rfl)
    · decide +kernel
    · decide +kernel
  rw [Image.nodes_fs]
  intro i v hv
  have := hcheck i (oneDir_cases hv)
  rw [hv, Option.all_some, decide_eq_true_eq] at this
  exact this

/-- **A link that is not counted.** A process removes its current directory `/a` and makes a device in
it. The device has one link, but its only name is in a directory without links. -/
theorem device_in_removed_directory : (oneDir.fs 0).nodes.Tree (oneDir.fs 0).sb.ninodes ∧
    (oneDir.fs 0).nodes.Exact (oneDir.fs 0).sb.ninodes ∧
    ∃ σ τ : Sys 1, userinit 0 (Sys.boot (oneDir.fs 0)) = .ok ((), σ) ∧
      runFrom (step 0) σ [(0, .chdir (some [97])), (0, .unlink (some [47, 97])),
        (0, .mknod (some [120]) 1 1)] = some τ ∧
      τ.panicked = none ∧ ¬ τ.fs.nodes.Exact τ.fs.sb.ninodes := by
  have hany : ((Sys.bootRun 0 (oneDir.fs 0) [(0, .chdir (some [97])), (0, .unlink (some [47, 97])),
      (0, .mknod (some [120]) 1 1)]).any fun τ : Sys 1 => decide (τ.panicked = none ∧
        (τ.fs.nodes 3).any (fun v : Node => decide (v.nlink.toInt ≠
          (∑ d ∈ Finset.range τ.fs.sb.ninodes, τ.fs.nodes.namesFrom d 3 : ℕ))) = true)) = true := by
    decide +kernel
  obtain ⟨τ, hτ, hdec⟩ := (Option.any_eq_true _ _).mp hany
  obtain ⟨hpanic, hthree⟩ := of_decide_eq_true hdec
  obtain ⟨v, hv, hne⟩ := (Option.any_eq_true _ _).mp hthree
  obtain ⟨σ, hinit, hrun⟩ := bootRun_eq_some hτ
  exact ⟨oneDir_tree, oneDir_exact, σ, τ, hinit, hrun, hpanic,
    fun he => of_decide_eq_true hne (he 3 v hv)⟩

theorem link_counts_exact_mkdir : ∃ σ τ : Sys 1,
    userinit 0 (Sys.boot (oneDir.fs 0)) = .ok ((), σ) ∧
    runFrom (step 0) σ [(0, .mkdir (some [97, 47, 98]))] = some τ ∧
    τ.fs.nodes.Exact τ.fs.sb.ninodes := by
  have hsome : (Sys.bootRun 0 (oneDir.fs 0) [(0, .mkdir (some [97, 47, 98]))] : Option (Sys 1)).isSome
      = true := by
    decide +kernel
  obtain ⟨τ, hτ⟩ := Option.isSome_iff_exists.mp hsome
  obtain ⟨σ, hinit, hrun⟩ := bootRun_eq_some hτ
  obtain ⟨hnodes, -, hcwd⟩ := userinit_start oneDir.rep_nodes hinit
  have hups : ∀ d v, oneDir.node d = some v → v.type = T_DIR → v.nlink ≠ 0 →
      Nodes.isDir oneDir.node v.up = true := by
    intro d v hv _ _
    rcases oneDir_cases hv with rfl | rfl
    all_goals
      cases hv
      decide +kernel
  refine ⟨σ, τ, hinit, hrun, link_counts_exact oneDir.rep_nodes oneDir_tree oneDir_exact
    (by rw [Image.nodes_fs]; exact hups) hinit hrun fun ρ _ => ⟨?_, trivial⟩⟩
  rintro c r ⟨hreq, ip, hip, rfl⟩
  obtain rfl : r = .create [97, 47, 98] T_DIR := (Option.some.inj hreq).symm
  refine ⟨trivial, fun d name hres _ v hv => ?_⟩
  rw [hcwd ip hip, hnodes, Image.nodes_fs] at hres
  rw [hnodes, Image.nodes_fs] at hv
  have hparent : Nodes.resolve oneDir.node ROOTINO [97, 47, 98] true = some (2, [98]) := by
    decide +kernel
  obtain ⟨rfl, rfl⟩ := Prod.mk.inj (Option.some.inj (hparent.symm.trans hres))
  cases hv
  decide

end Sys

end Xv6
