import Xv6.Fs.Shape

/-! # The name space

Directories, their entries and the link counts of inodes, on the nodes alone. `Nodes.Tree` says that
entries name allocated inodes, that a directory is named at most once, by the directory its `..`
names, and how link counts relate to entries. Three changes keep it: adding and removing an inode
without links, and changing one entry together with the counts it affects. -/

namespace Xv6

open Function

/-- The type is that of a directory. -/
def Nodes.isDir (N : Nodes) (i : ℕ) : Bool := (N i).any fun v => v.type = T_DIR

namespace Nodes

/-- How many entries of `d` other than its first two name inode `i`. -/
def linksFrom (N : Nodes) (d i : ℕ) : ℕ :=
  (N d).elim 0 fun v => if v.type = T_DIR then v.links i else 0

/-- How many entries of all directories name inode `i`, not counting `.` and `..`. -/
def count (N : Nodes) (n i : ℕ) : ℕ := ∑ d ∈ Finset.range n, N.linksFrom d i

/-- How many entries of a directory name directories. -/
def subdirs (N : Nodes) (v : Node) : ℕ := v.slots.countP fun de => N.isDir de.inum

/-- The name space of a disk with `n` inodes. -/
structure Tree (N : Nodes) (n : ℕ) : Prop where
  pos : ∀ i v, N i = some v → 1 ≤ i ∧ i < n
  root : ∃ v, N ROOTINO = some v ∧ v.type = T_DIR ∧ v.up = ROOTINO
  shape : ∀ d v, N d = some v → v.type = T_DIR → v.Shape n d
  alloc : ∀ d i, i ≠ 0 → 0 < N.linksFrom d i → ∃ v, N i = some v
  parent : ∀ d i v, 0 < N.linksFrom d i → N i = some v → v.type = T_DIR →
    v.up = d ∧ i ≠ d ∧ i ≠ ROOTINO ∧ N.linksFrom d i = 1
  dirs : ∀ i v, N i = some v → v.type = T_DIR →
    v.nlink.toInt = N.count n i + N.subdirs v + if i = ROOTINO then 1 else 0
  files : ∀ i v, N i = some v → v.type ≠ T_DIR → N.count n i ≤ v.nlink.toInt

end Nodes

/-! ## Counting entries -/

namespace Nodes

variable {N N' : Nodes} {n c d i x y : ℕ} {v w : Node}

theorem isDir_iff : N.isDir i = true ↔ ∃ v, N i = some v ∧ v.type = T_DIR := by
  rw [isDir, Option.any_eq_true]
  simp only [decide_eq_true_eq]

theorem isDir_of (hv : N i = some v) (ht : v.type = T_DIR) : N.isDir i = true :=
  isDir_iff.mpr ⟨v, hv, ht⟩

theorem linksFrom_eq (hv : N d = some v) (ht : v.type = T_DIR) (i : ℕ) :
    N.linksFrom d i = v.links i := by
  simp only [linksFrom, hv, Option.elim_some, if_pos ht]

theorem linksFrom_of_none (hv : N d = none) (i : ℕ) : N.linksFrom d i = 0 := by
  simp only [linksFrom, hv, Option.elim_none]

theorem linksFrom_of_file (hv : N d = some v) (ht : v.type ≠ T_DIR) (i : ℕ) :
    N.linksFrom d i = 0 := by
  simp only [linksFrom, hv, Option.elim_some, if_neg ht]

/-- Entries of an inode depend on its type and its bytes. -/
theorem linksFrom_congr (hv : N d = some v) (hw : N' d = some w) (ht : w.type = v.type)
    (hb : w.bytes = v.bytes) (i : ℕ) : N'.linksFrom d i = N.linksFrom d i := by
  simp only [linksFrom, hv, hw, Option.elim_some, ht, Node.links, Node.slots, hb]

theorem linksFrom_pos (h : 0 < N.linksFrom d i) :
    ∃ v, N d = some v ∧ v.type = T_DIR ∧ 0 < v.links i := by
  cases hv : N d with
  | none => simp [linksFrom_of_none hv] at h
  | some v =>
    by_cases ht : v.type = T_DIR
    · exact ⟨v, rfl, ht, linksFrom_eq hv ht i ▸ h⟩
    · simp [linksFrom_of_file hv ht] at h

theorem links_pos {de : Dirent} (h : de ∈ v.slots) : 0 < v.links de.inum :=
  List.countP_pos_iff.mpr ⟨de, h, decide_eq_true rfl⟩

theorem linksFrom_le_count (hd : d < n) (i : ℕ) : N.linksFrom d i ≤ N.count n i :=
  Finset.single_le_sum (f := fun d => N.linksFrom d i) (fun _ _ => Nat.zero_le _)
    (Finset.mem_range.mpr hd)

theorem count_pos (h : 0 < N.count n i) : ∃ d, d < n ∧ 0 < N.linksFrom d i := by
  obtain ⟨d, hd, hpos⟩ := Finset.exists_ne_zero_of_sum_ne_zero (Nat.pos_iff_ne_zero.mp h)
  exact ⟨d, Finset.mem_range.mp hd, Nat.pos_of_ne_zero hpos⟩

/-- Counting the directories an entry list names depends on what it names. -/
theorem subdirs_congr (hv : N d = some v) (ht : v.type = T_DIR)
    (hsame : ∀ i, 0 < N.linksFrom d i → N'.isDir i = N.isDir i) : N'.subdirs v = N.subdirs v := by
  refine List.countP_congr fun de hde => ?_
  rw [hsame de.inum (linksFrom_eq hv ht _ ▸ links_pos hde)]

/-- If only the entries of `d` change, every count changes by as much. -/
theorem count_change {a b : ℕ} (hd : d < n) (hsame : ∀ x, x ≠ d → N'.linksFrom x i = N.linksFrom x i)
    (hat : N'.linksFrom d i + a = N.linksFrom d i + b) : N'.count n i + a = N.count n i + b := by
  have hmem : d ∈ Finset.range n := Finset.mem_range.mpr hd
  have hrest : ∑ x ∈ (Finset.range n).erase d, N'.linksFrom x i =
      ∑ x ∈ (Finset.range n).erase d, N.linksFrom x i :=
    Finset.sum_congr rfl fun x hx => hsame x (Finset.ne_of_mem_erase hx)
  rw [count, count, ← Finset.add_sum_erase _ _ hmem, ← Finset.add_sum_erase _ _ hmem, hrest]
  omega

/-- A new inode has no entries yet. -/
theorem linksFrom_add (hnone : N c = none) (hw : w.type = T_DIR → w.slots = []) (d i : ℕ) :
    linksFrom (update N c (some w)) d i = N.linksFrom d i := by
  rcases eq_or_ne d c with rfl | hd
  · rw [linksFrom_of_none hnone]
    by_cases ht : w.type = T_DIR
    · rw [linksFrom_eq (update_self _ _ _) ht, Node.links, hw ht, List.countP_nil]
    · exact linksFrom_of_file (update_self _ _ _) ht i
  · simp only [linksFrom, update_of_ne hd]

theorem count_add (hnone : N c = none) (hw : w.type = T_DIR → w.slots = []) (i : ℕ) :
    count (update N c (some w)) n i = N.count n i :=
  Finset.sum_congr rfl fun d _ => linksFrom_add hnone hw d i

theorem linksFrom_remove_self (y i : ℕ) : linksFrom (update N y none) y i = 0 :=
  linksFrom_of_none (update_self _ _ _) i

theorem linksFrom_remove (hd : d ≠ y) (i : ℕ) :
    linksFrom (update N y none) d i = N.linksFrom d i := by
  simp only [linksFrom, update_of_ne hd]

theorem count_remove (hy : y < n) (i : ℕ) :
    count (update N y none) n i + N.linksFrom y i = N.count n i := by
  rw [← Nat.add_zero (N.count n i)]
  refine count_change hy (fun x hx => linksFrom_remove hx i) ?_
  rw [linksFrom_remove_self, Nat.zero_add, Nat.add_zero]

namespace Tree

theorem lt (h : N.Tree n) (hv : N i = some v) : i < n := (h.pos i v hv).2

theorem zero (h : N.Tree n) : N 0 = none := by
  by_contra hne
  obtain ⟨v, hv⟩ := Option.ne_none_iff_exists'.mp hne
  exact absurd (h.pos 0 v hv).1 (by decide)

/-- Entries in use name allocated inodes. -/
theorem slot_alloc (h : N.Tree n) (hv : N d = some v) (ht : v.type = T_DIR) {de : Dirent}
    (hde : de ∈ v.slots) (hne : de.inum ≠ 0) : ∃ w, N de.inum = some w :=
  h.alloc d de.inum hne (linksFrom_eq hv ht _ ▸ links_pos hde)

theorem count_eq_zero (h : N.Tree n) (hi : i ≠ 0) (hnone : N i = none) : N.count n i = 0 := by
  by_contra hne
  obtain ⟨d, -, hd⟩ := count_pos (Nat.pos_of_ne_zero hne)
  obtain ⟨v, hv⟩ := h.alloc d i hi hd
  rw [hnone] at hv
  cases hv

/-- An inode without links is not named by any entry; a directory without links names no
directory. -/
theorem of_nlink_zero (h : N.Tree n) (hv : N i = some v) (h0 : v.nlink = 0) :
    N.count n i = 0 ∧ (v.type = T_DIR → N.subdirs v = 0 ∧ i ≠ ROOTINO) := by
  by_cases ht : v.type = T_DIR
  · have := h.dirs i v hv ht
    rw [h0, Int16.toInt_zero] at this
    split at this
    · omega
    · exact ⟨by omega, fun _ => ⟨by omega, ‹_›⟩⟩
  · have := h.files i v hv ht
    rw [h0, Int16.toInt_zero] at this
    exact ⟨by omega, fun hc => absurd hc ht⟩

/-- What there is to check for a table of nodes. -/
theorem of_table (hpos : ∀ i v, N i = some v → 1 ≤ i ∧ i < n)
    (hroot : (N ROOTINO).any fun v => v.type = T_DIR ∧ v.up = ROOTINO)
    (hdirs : ∀ d < n, ∀ v ∈ N d, v.type = T_DIR → v.Shape n d ∧
      (∀ de ∈ v.slots, de.inum ≠ 0 → (N de.inum).isSome = true ∧ ∀ w ∈ N de.inum, w.type = T_DIR →
        w.up = d ∧ de.inum ≠ d ∧ de.inum ≠ ROOTINO ∧ v.links de.inum = 1) ∧
      v.nlink.toInt = N.count n d + N.subdirs v + if d = ROOTINO then 1 else 0)
    (hfiles : ∀ i < n, ∀ v ∈ N i, v.type ≠ T_DIR → N.count n i ≤ v.nlink.toInt) : N.Tree n := by
  -- an entry that is counted is an entry of a directory
  have hentry : ∀ {d i}, 0 < N.linksFrom d i → ∃ v, N d = some v ∧ d < n ∧ v.type = T_DIR ∧
      ∃ de ∈ v.slots, de.inum = i := by
    intro d i hdi
    obtain ⟨v, hv, ht, hlinks⟩ := linksFrom_pos hdi
    obtain ⟨de, hde, hi⟩ := List.countP_pos_iff.mp hlinks
    exact ⟨v, hv, (hpos d v hv).2, ht, de, hde, of_decide_eq_true hi⟩
  constructor
  case pos => exact hpos
  case root =>
    obtain ⟨v, hv, hv'⟩ := (Option.any_eq_true _ _).mp hroot
    exact ⟨v, hv, of_decide_eq_true hv'⟩
  case shape => exact fun d v hv ht => (hdirs d (hpos d v hv).2 v hv ht).1
  case alloc =>
    intro d i hi hdi
    obtain ⟨v, hv, hd, ht, de, hde, rfl⟩ := hentry hdi
    exact Option.isSome_iff_exists.mp ((hdirs d hd v hv ht).2.1 de hde hi).1
  case parent =>
    intro d i w hdi hw hwt
    obtain ⟨v, hv, hd, ht, de, hde, rfl⟩ := hentry hdi
    rw [linksFrom_eq hv ht]
    have hne : de.inum ≠ 0 := by
      have := (hpos _ w hw).1
      omega
    exact ((hdirs d hd v hv ht).2.1 de hde hne).2 w hw hwt
  case dirs => exact fun i v hv ht => (hdirs i (hpos i v hv).2 v hv ht).2.2
  case files => exact fun i v hv ht => hfiles i (hpos i v hv).2 v hv ht

/-! ## Inodes without links -/

/-- A free inode may become one without links and without entries. -/
theorem add (h : N.Tree n) (hpos : 1 ≤ c) (hc : c < n) (hnone : N c = none) (h0 : w.nlink = 0)
    (hw : w.type = T_DIR → w.Shape n c ∧ w.slots = []) :
    Tree (update N c (some w)) n := by
  obtain ⟨N', hN'⟩ : ∃ N' : Nodes, N' = update N c (some w) := ⟨_, rfl⟩
  have hat : N' c = some w := by rw [hN', update_self]
  have hne : ∀ {i}, i ≠ c → N' i = N i := fun hi => by rw [hN', update_of_ne hi]
  have hlinks : ∀ d i, N'.linksFrom d i = N.linksFrom d i := fun d i =>
    hN' ▸ linksFrom_add hnone (fun ht => (hw ht).2) d i
  have hcount : ∀ i, N'.count n i = N.count n i := fun i =>
    hN' ▸ count_add hnone (fun ht => (hw ht).2) i
  have hc0 := h.count_eq_zero (show c ≠ 0 by omega) hnone
  have hisDir : ∀ d i, 0 < N.linksFrom d i → N'.isDir i = N.isDir i := by
    intro d i hdi
    have hdn : d < n := by
      obtain ⟨v, hv, -⟩ := linksFrom_pos hdi
      exact h.lt hv
    have hic : i ≠ c := by
      rintro rfl
      have := N.linksFrom_le_count hdn i
      omega
    rw [isDir, isDir, hne hic]
  rw [← hN']
  constructor
  case pos =>
    intro i v hv
    by_cases hi : i = c
    · exact hi ▸ ⟨hpos, hc⟩
    · exact h.pos i v (hne hi ▸ hv)
  case root =>
    obtain ⟨v, hv, hroot⟩ := h.root
    refine ⟨v, ?_, hroot⟩
    rw [hne (ne_of_values hv hnone nofun), hv]
  case shape =>
    intro d v hv ht
    rcases eq_or_ne d c with rfl | hd
    · obtain rfl := Option.some.inj (hat.symm.trans hv)
      exact (hw ht).1
    · exact h.shape d v (hne hd ▸ hv) ht
  case alloc =>
    intro d i hi hdi
    by_cases hic : i = c
    · exact ⟨w, hic ▸ hat⟩
    · rw [hne hic]
      exact h.alloc d i hi (hlinks d i ▸ hdi)
  case parent =>
    intro d i v hdi hv ht
    rw [hlinks] at hdi ⊢
    have hic : i ≠ c := by
      rintro rfl
      obtain ⟨u, hu, -⟩ := linksFrom_pos hdi
      have := N.linksFrom_le_count (h.lt hu) i
      omega
    exact h.parent d i v hdi (hne hic ▸ hv) ht
  case dirs =>
    intro i v hv ht
    rw [hcount]
    rcases eq_or_ne i c with rfl | hi
    · obtain rfl := Option.some.inj (hat.symm.trans hv)
      have hroot : i ≠ ROOTINO := by
        rintro rfl
        obtain ⟨u, hu, -⟩ := h.root
        rw [hnone] at hu
        cases hu
      rw [h0, hc0, subdirs, (hw ht).2, List.countP_nil, if_neg hroot]
      rfl
    · rw [hne hi] at hv
      rw [subdirs_congr hv ht (hisDir i)]
      exact h.dirs i v hv ht
  case files =>
    intro i v hv ht
    rw [hcount]
    rcases eq_or_ne i c with rfl | hi
    · obtain rfl := Option.some.inj (hat.symm.trans hv)
      rw [h0, hc0]
      rfl
    · exact h.files i v (hne hi ▸ hv) ht

/-- An entry never names an inode without links. -/
theorem linksFrom_ne (h : N.Tree n) (hv : N y = some v) (h0 : v.nlink = 0) (hdi : 0 < N.linksFrom d i) :
    i ≠ y := by
  rintro rfl
  obtain ⟨u, hu, -⟩ := linksFrom_pos hdi
  have := N.linksFrom_le_count (h.lt hu) i
  have := (h.of_nlink_zero hv h0).1
  omega

/-- An inode without links names no directories. -/
theorem linksFrom_dir_eq_zero (h : N.Tree n) (hv : N y = some v) (h0 : v.nlink = 0)
    (hi : N.isDir i = true) : N.linksFrom y i = 0 := by
  by_contra hne
  obtain ⟨u, hu, ht, hpos⟩ := linksFrom_pos (Nat.pos_of_ne_zero hne)
  obtain rfl := Option.some.inj (hv.symm.trans hu)
  obtain ⟨de, hde, hinum⟩ := List.countP_pos_iff.mp hpos
  rw [decide_eq_true_eq] at hinum
  have : 0 < N.subdirs v := List.countP_pos_iff.mpr ⟨de, hde, by rw [hinum]; exact hi⟩
  have := ((h.of_nlink_zero hv h0).2 ht).1
  omega

/-- An inode without links may be freed. -/
theorem remove (h : N.Tree n) (hv : N y = some v) (h0 : v.nlink = 0) :
    Tree (update N y none) n := by
  obtain ⟨N', hN'⟩ : ∃ N' : Nodes, N' = update N y none := ⟨_, rfl⟩
  have hat : N' y = none := by rw [hN', update_self]
  have hne : ∀ {i}, i ≠ y → N' i = N i := fun hi => by rw [hN', update_of_ne hi]
  have hback : ∀ {i w}, N' i = some w → i ≠ y ∧ N i = some w := by
    intro i w hw
    have hi : i ≠ y := ne_of_values hw hat nofun
    exact ⟨hi, hne hi ▸ hw⟩
  have hlinks : ∀ {d i}, d ≠ y → N'.linksFrom d i = N.linksFrom d i := fun hd =>
    hN' ▸ linksFrom_remove hd _
  have hgone : ∀ i, N'.linksFrom y i = 0 := linksFrom_of_none hat
  have hcount : ∀ i, N'.count n i + N.linksFrom y i = N.count n i := fun i =>
    hN' ▸ count_remove (h.lt hv) i
  -- what is left of the entries is as it was
  have hold : ∀ {d i}, 0 < N'.linksFrom d i → d ≠ y ∧ 0 < N.linksFrom d i := by
    intro d i hdi
    have hd : d ≠ y := by
      rintro rfl
      rw [hgone] at hdi
      omega
    exact ⟨hd, hlinks hd ▸ hdi⟩
  rw [← hN']
  constructor
  case pos => exact fun i w hw => h.pos i w (hback hw).2
  case root =>
    obtain ⟨u, hu, ht, hup⟩ := h.root
    refine ⟨u, ?_, ht, hup⟩
    rw [hne, hu]
    rintro rfl
    obtain rfl := Option.some.inj (hv.symm.trans hu)
    exact ((h.of_nlink_zero hv h0).2 ht).2 rfl
  case shape => exact fun d w hw => h.shape d w (hback hw).2
  case alloc =>
    intro d i hi hdi
    rw [hne (h.linksFrom_ne hv h0 (hold hdi).2)]
    exact h.alloc d i hi (hold hdi).2
  case parent =>
    intro d i w hdi hw ht
    obtain ⟨hd, hdi⟩ := hold hdi
    rw [hlinks hd]
    exact h.parent d i w hdi (hback hw).2 ht
  case dirs =>
    intro i w hw ht
    obtain ⟨hi, hw⟩ := hback hw
    have hsub : N'.subdirs w = N.subdirs w := subdirs_congr hw ht fun j hj => by
      rw [isDir, isDir, hne (h.linksFrom_ne hv h0 hj)]
    have hc := hcount i
    rw [h.linksFrom_dir_eq_zero hv h0 (isDir_of hw ht), Nat.add_zero] at hc
    rw [hsub, hc]
    exact h.dirs i w hw ht
  case files =>
    intro i w hw ht
    have := h.files i w (hback hw).2 ht
    have := hcount i
    omega

end Tree

/-! ## Changing an entry together with the link counts -/

/-- From `N` to `N'` an entry of directory `d` that names `c` is removed (`a = 1`) or added
(`b = 1`), and the link counts are adjusted. -/
structure Relink (N N' : Nodes) (n d c a b : ℕ) : Prop where
  one : a + b = 1
  ne : c ≠ d
  pos : c ≠ 0
  same : ∀ j, j ≠ d → j ≠ c → N' j = N j
  dir : ∃ v v', N d = some v ∧ N' d = some v' ∧ v.type = T_DIR ∧ v'.Shape n d ∧ v'.up = v.up ∧
    (∀ q : ℕ → Bool, q 0 = false → v'.slots.countP (fun de => q de.inum) + (if q c then a else 0) =
      v.slots.countP (fun de => q de.inum) + if q c then b else 0) ∧
    v'.nlink.toInt + (if N.isDir c then a else 0) = v.nlink.toInt + if N.isDir c then b else 0
  node : ∃ w w', N c = some w ∧ N' c = some w' ∧ w'.type = w.type ∧ w'.bytes = w.bytes ∧
    w'.nlink.toInt + a = w.nlink.toInt + b

namespace Relink

variable {a b : ℕ}

/-- Types and parents stay. -/
theorem back (h : Relink N N' n d c a b) (hw : N' i = some w) :
    ∃ v, N i = some v ∧ w.type = v.type ∧ w.up = v.up := by
  rcases eq_or_ne i d with rfl | hd
  · obtain ⟨v, v', hv, hv', ht, hshape, hup, -⟩ := h.dir
    obtain rfl := Option.some.inj (hv'.symm.trans hw)
    exact ⟨v, hv, hshape.isDir.type.trans ht.symm, hup⟩
  · rcases eq_or_ne i c with rfl | hc
    · obtain ⟨u, u', hu, hu', ht, hb, -⟩ := h.node
      obtain rfl := Option.some.inj (hu'.symm.trans hw)
      exact ⟨u, hu, ht, by rw [Node.up, Node.up, hb]⟩
    · exact ⟨w, h.same i hd hc ▸ hw, rfl, rfl⟩

theorem isSome (h : Relink N N' n d c a b) (hv : N i = some v) : ∃ w, N' i = some w := by
  rcases eq_or_ne i d with rfl | hd
  · obtain ⟨v, v', -, hv', -⟩ := h.dir
    exact ⟨v', hv'⟩
  · rcases eq_or_ne i c with rfl | hc
    · obtain ⟨u, u', -, hu', -⟩ := h.node
      exact ⟨u', hu'⟩
    · exact ⟨v, h.same i hd hc ▸ hv⟩

theorem isDir_eq (h : Relink N N' n d c a b) (i : ℕ) : N'.isDir i = N.isDir i := by
  rw [Bool.eq_iff_iff, isDir_iff, isDir_iff]
  constructor
  · rintro ⟨w, hw, ht⟩
    obtain ⟨v, hv, htype, -⟩ := h.back hw
    exact ⟨v, hv, htype ▸ ht⟩
  · rintro ⟨v, hv, ht⟩
    obtain ⟨w, hw⟩ := h.isSome hv
    obtain ⟨u, hu, htype, -⟩ := h.back hw
    obtain rfl := Option.some.inj (hv.symm.trans hu)
    exact ⟨w, hw, htype.trans ht⟩

theorem subdirs_eq (h : Relink N N' n d c a b) (v : Node) : N'.subdirs v = N.subdirs v := by
  simp only [subdirs, h.isDir_eq]

theorem linksFrom_of_ne (h : Relink N N' n d c a b) (hx : x ≠ d) (i : ℕ) :
    N'.linksFrom x i = N.linksFrom x i := by
  rcases eq_or_ne x c with rfl | hc
  · obtain ⟨w, w', hw, hw', ht, hb, -⟩ := h.node
    exact linksFrom_congr hw hw' ht hb i
  · simp only [linksFrom, h.same x hx hc]

theorem linksFrom_dir (h : Relink N N' n d c a b) (hi : i ≠ 0) :
    N'.linksFrom d i + (if i = c then a else 0) = N.linksFrom d i + if i = c then b else 0 := by
  obtain ⟨v, v', hv, hv', ht, hshape, -, hcount, -⟩ := h.dir
  rw [linksFrom_eq hv ht, linksFrom_eq hv' hshape.isDir.type]
  have := hcount (fun j => j = i) (decide_eq_false (Ne.symm hi))
  simp only [decide_eq_true_eq, @eq_comm _ c i] at this
  exact this

theorem linksFrom_other (h : Relink N N' n d c a b) (hi : i ≠ 0) (hc : i ≠ c) (x : ℕ) :
    N'.linksFrom x i = N.linksFrom x i := by
  rcases eq_or_ne x d with rfl | hx
  · have := h.linksFrom_dir hi
    rwa [if_neg hc, if_neg hc] at this
  · exact h.linksFrom_of_ne hx i

theorem count_eq (h : Relink N N' n d c a b) (hd : d < n) (hi : i ≠ 0) :
    N'.count n i + (if i = c then a else 0) = N.count n i + if i = c then b else 0 :=
  count_change hd (fun _ hx => h.linksFrom_of_ne hx i) (h.linksFrom_dir hi)

theorem count_other (h : Relink N N' n d c a b) (hi : i ≠ 0) (hc : i ≠ c) :
    N'.count n i = N.count n i :=
  Finset.sum_congr rfl fun x _ => h.linksFrom_other hi hc x

end Relink

/-- The name space after an entry and its link counts change together. A directory that gets a name
must not have had one, and the name must be in its parent. -/
theorem Tree.relink {a b : ℕ} (h : N.Tree n) (hr : Relink N N' n d c a b)
    (hnew : b = 1 → ∀ w, N c = some w → w.type = T_DIR →
      w.up = d ∧ c ≠ ROOTINO ∧ N.count n c = 0) : N'.Tree n := by
  obtain ⟨v, v', hv, hv', ht, hshape, hup, hcountP, hvlink⟩ := hr.dir
  obtain ⟨w, w', hw, hw', hwt, hwb, hwlink⟩ := hr.node
  have hone := hr.one
  have hdn := h.lt hv
  constructor
  case pos =>
    intro i u hu
    obtain ⟨u0, hu0, -⟩ := hr.back hu
    exact h.pos i u0 hu0
  case root =>
    obtain ⟨u, hu, hut, hu1⟩ := h.root
    obtain ⟨u', hu'⟩ := hr.isSome hu
    obtain ⟨u0, hu0, htype, hup0⟩ := hr.back hu'
    obtain rfl := Option.some.inj (hu.symm.trans hu0)
    exact ⟨u', hu', htype.trans hut, hup0.trans hu1⟩
  case shape =>
    intro x u hu hut
    rcases eq_or_ne x d with rfl | hxd
    · obtain rfl := Option.some.inj (hv'.symm.trans hu)
      exact hshape
    · rcases eq_or_ne x c with rfl | hxc
      · obtain rfl := Option.some.inj (hw'.symm.trans hu)
        have hs := h.shape x w hw (hwt ▸ hut)
        exact hs.congr hwt hwb
      · exact h.shape x u (hr.same x hxd hxc ▸ hu) hut
  case alloc =>
    intro x i hi hxi
    by_cases hic : i = c
    · exact ⟨w', hic ▸ hw'⟩
    · rw [hr.linksFrom_other hi hic] at hxi
      obtain ⟨u, hu⟩ := h.alloc x i hi hxi
      exact hr.isSome hu
  case parent =>
    intro x i u hxi hu hut
    obtain ⟨u0, hu0, htype, hup0⟩ := hr.back hu
    rw [hup0]
    have hi : i ≠ 0 := ne_of_values hu0 h.zero nofun
    by_cases hcase : i = c ∧ x = d
    · obtain ⟨rfl, rfl⟩ := hcase
      have hlinks := hr.linksFrom_dir hi
      rw [if_pos rfl, if_pos rfl] at hlinks
      obtain hb | ha : b = 1 ∨ a = 1 := by omega
      · -- the entry is new
        obtain ⟨h1, h2, h3⟩ := hnew hb u0 hu0 (htype ▸ hut)
        have := N.linksFrom_le_count hdn i
        exact ⟨h1, hr.ne, h2, by omega⟩
      · -- there is no second entry to be left
        have := (h.parent x i u0 (by omega) hu0 (htype ▸ hut)).2.2.2
        omega
    · have hlinks : N'.linksFrom x i = N.linksFrom x i := by
        by_cases hxd : x = d
        · exact hr.linksFrom_other hi (fun hic => hcase ⟨hic, hxd⟩) x
        · exact hr.linksFrom_of_ne hxd i
      rw [hlinks] at hxi ⊢
      exact h.parent x i u0 hxi hu0 (htype ▸ hut)
  case dirs =>
    intro i u hu hut
    rw [hr.subdirs_eq]
    rcases eq_or_ne i d with rfl | hid
    · obtain rfl := Option.some.inj (hv'.symm.trans hu)
      have hold := h.dirs i v hv ht
      have hsub : N.subdirs v' + (if N.isDir c then a else 0) =
          N.subdirs v + if N.isDir c then b else 0 :=
        hcountP N.isDir (by rw [isDir, h.zero]; rfl)
      rw [hr.count_other (by have := (h.pos i v hv).1; omega) hr.ne.symm]
      split_ifs at * <;> omega
    · rcases eq_or_ne i c with rfl | hic
      · obtain rfl := Option.some.inj (hw'.symm.trans hu)
        have hold := h.dirs i w hw (hwt ▸ hut)
        have hcount := hr.count_eq hdn hr.pos
        rw [if_pos rfl, if_pos rfl] at hcount
        have hsub : N.subdirs w' = N.subdirs w := by rw [subdirs, subdirs, Node.slots, Node.slots, hwb]
        rw [hsub]
        split_ifs at * <;> omega
      · have hu0 := hr.same i hid hic ▸ hu
        rw [hr.count_other (by have := (h.pos i u hu0).1; omega) hic]
        exact h.dirs i u hu0 hut
  case files =>
    intro i u hu hut
    rcases eq_or_ne i c with rfl | hic
    · obtain rfl := Option.some.inj (hw'.symm.trans hu)
      have hold := h.files i w hw (hwt ▸ hut)
      have hcount := hr.count_eq hdn hr.pos
      rw [if_pos rfl, if_pos rfl] at hcount
      omega
    · have hid : i ≠ d := by
        rintro rfl
        obtain rfl := Option.some.inj (hv'.symm.trans hu)
        exact hut hshape.isDir.type
      have hu0 := hr.same i hid hic ▸ hu
      rw [hr.count_other (by have := (h.pos i u hu0).1; omega) hic]
      exact h.files i u hu0 hut

end Nodes

end Xv6
