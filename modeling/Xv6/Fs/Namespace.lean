import Xv6.Fs.Tree

/-! # The name space under the system calls

What `sys_unlink`, `create` and `sys_link` do to the nodes, as changes of one entry together with the
link counts. -/

namespace Xv6

open Function

namespace Nodes

variable {N N' : Nodes} {n c d i x y : ℕ} {v w : Node}

/-- One link less, where there is one. -/
theorem toInt_dropLink (h : 1 ≤ v.nlink.toInt) : v.dropLink.nlink.toInt = v.nlink.toInt - 1 := by
  have hlt := v.nlink.toInt_lt
  rw [Node.dropLink, Int16.toInt_sub, Int16.toInt_one]
  apply Int.bmod_eq_of_le <;> omega

/-- One link more, short of an overflow. -/
theorem toInt_addLink (h : v.nlink ≠ 32767) : v.addLink.nlink.toInt = v.nlink.toInt + 1 := by
  have hle := v.nlink.le_toInt
  have hlt := v.nlink.toInt_lt
  have hne : v.nlink.toInt ≠ 32767 := fun hc => h (Int16.toInt_inj.mp hc)
  rw [Node.addLink, Int16.toInt_add, Int16.toInt_one]
  apply Int.bmod_eq_of_le <;> omega

theorem isDir_eq_decide (hv : N i = some v) : N.isDir i = decide (v.type = T_DIR) := by
  rw [isDir, hv, Option.any_some]

theorem child_eq_some (hv : N d = some v) {name : List UInt8} (hc : N.child d name = some c) :
    v.type = T_DIR ∧ ∃ k, findEntry (entries v.bytes) name = some k ∧ (entryAt v.bytes k).inum = c := by
  rw [child, hv, Option.bind_some] at hc
  split at hc
  · rename_i ht
    obtain ⟨k, hk, hinum⟩ := Option.map_eq_some_iff.mp hc
    exact ⟨ht, k, hk, hinum⟩
  · cases hc

theorem modify_reap {U : ℕ → Prop} (f : Node → Node) (h : x ≠ y) :
    (N.reap U y).modify x f = (N.modify x f).reap U y := by
  by_cases hfree : ¬ U y ∧ ∃ v, N y = some v ∧ v.nlink = 0
  · rw [reap, if_pos hfree, reap, if_pos (by rwa [modify_of_ne N f h.symm]), modify, modify,
      update_of_ne h, update_comm h]
  · rw [reap, if_neg hfree, reap, if_neg (by rwa [modify_of_ne N f h.symm])]

/-- The nodes after entry `k` of directory `d` is cleared and the links it stood for are dropped. -/
def cleared (N : Nodes) (d k c : ℕ) (isDir : Bool) : Nodes :=
  let N1 := N.modify d fun v => v.setEntry k .none
  (if isDir then N1.modify d Node.dropLink else N1).modify c Node.dropLink

/-- What `sys_unlink` does, with the two inodes put at the end. -/
theorem unlinked_eq (N : Nodes) (U : ℕ → Prop) (k : ℕ) (isDir : Bool) (h : c ≠ d) :
    N.unlinked U d k c isDir =
      ((N.cleared d k c isDir).reap (fun x => U x ∨ x = c) d).reap U c := by
  simp only [unlinked, cleared, modify_reap _ h]

/-- **`sys_unlink`** removes an entry and the links it stands for. -/
theorem Relink.cleared (h : N.Tree n) (hn : n ≤ 2 ^ 16) {name : List UInt8} {k : ℕ}
    (hv : N d = some v) (hw : N c = some w)
    (hname : ¬ (namecmp name [dot] = 0 ∨ namecmp name [dot, dot] = 0))
    (hfind : findEntry (entries v.bytes) name = some k) (hc : N.child d name = some c)
    (hlink : ¬ w.nlink < 1) : Relink N (N.cleared d k c (w.type = T_DIR)) n d c 1 0 := by
  obtain ⟨ht, k', hk', hinum⟩ := child_eq_some hv hc
  obtain rfl := Option.some.inj (hfind.symm.trans hk')
  obtain ⟨hk, hget, hne0, -⟩ := Node.findEntry_spec hfind
  have hshape := h.shape d v hv ht
  have h2 := hshape.two_le_findEntry hname hfind
  have hzero : Dirent.none.inum < n := by
    have := (h.pos d v hv).1
    exact lt_of_le_of_lt (Nat.zero_le _) (h.lt hv)
  have hlen : Dirent.none.name.length = DIRSIZ := List.length_replicate
  have hset := hshape.setEntry hn hzero hlen h2 (Nat.le_of_lt hk) (fun hne => absurd rfl hne)
  have hslot : 0 < N.linksFrom d c := by
    rw [linksFrom_eq hv ht, ← hinum]
    apply links_pos
    rw [Node.slots, List.mem_iff_getElem?]
    exact ⟨k - 2, by rw [List.getElem?_drop, Nat.add_sub_cancel' h2, hget]⟩
  have hcd : c ≠ d := by
    rintro rfl
    exact (h.parent c c v hslot hv ht).2.1 rfl
  have hone : 1 ≤ w.nlink.toInt := by
    rw [Int16.lt_iff_toInt_lt, Int16.toInt_one] at hlink
    omega
  have hat : N.cleared d k c (w.type = T_DIR) d = some
      (if w.type = T_DIR then (v.setEntry k .none).dropLink else v.setEntry k .none) := by
    simp only [Nodes.cleared, decide_eq_true_eq, modify_of_ne _ _ hcd.symm]
    split <;> simp [hv]
  refine ⟨rfl, hcd, hinum ▸ hne0, fun j hjd hjc => ?_, ⟨v, _, hv, hat, ht, ?_, ?_, ?_, ?_⟩,
    w, w.dropLink, hw, ?_, rfl, rfl, ?_⟩
  · simp only [Nodes.cleared, decide_eq_true_eq, modify_of_ne _ _ hjc]
    split <;> simp only [modify_of_ne _ _ hjd]
  · split <;> exact hset.congr rfl rfl
  · have := Node.entryAt_setEntry (Nat.two_pow_pos 16) hlen hshape.isDir.dvd (Nat.le_of_lt hk)
      (show 1 < k by omega)
    split <;> exact congrArg Dirent.inum this
  · intro q hq
    have := Node.countP_setEntry (Nat.two_pow_pos 16) hlen hshape.isDir.dvd h2 hget fun de => q de.inum
    rw [hinum, show Dirent.none.inum = 0 from rfl, hq, if_neg Bool.false_ne_true] at this
    rw [ite_self]
    split <;> exact this
  · rw [isDir_eq_decide hw]
    by_cases hwt : w.type = T_DIR
    · -- the parent has a link from the `..` that goes
      have hdirs := h.dirs d v hv ht
      have hsub : 0 < N.subdirs v := by
        rw [linksFrom_eq hv ht] at hslot
        obtain ⟨de, hde, hdc⟩ := List.countP_pos_iff.mp hslot
        rw [decide_eq_true_eq] at hdc
        exact List.countP_pos_iff.mpr ⟨de, hde, by rw [hdc]; exact isDir_of hw hwt⟩
      have := toInt_dropLink (v := v.setEntry k .none) (by
        show 1 ≤ v.nlink.toInt
        split_ifs at hdirs <;> omega)
      simp only [hwt, if_pos, decide_true, this]
      show v.nlink.toInt - 1 + 1 = _
      simp
    · simp [hwt]
      rfl
  · simp only [Nodes.cleared, decide_eq_true_eq, modify_self]
    split <;> simp [modify_of_ne _ _ hcd, hw]
  · rw [toInt_dropLink hone]
    simp

/-- Entering a name adds an entry and the links it stands for. -/
theorem Relink.entered (h : N.Tree n) (hn : n ≤ 2 ^ 16) {name : List UInt8} {v' w' : Node}
    (hv : N d = some v) (ht : v.type = T_DIR) (hw : N c = some w) (hcd : c ≠ d)
    (hfind : findEntry (entries v.bytes) name = none)
    (hsame : ∀ j, j ≠ d → j ≠ c → N' j = N j) (hv' : N' d = some v') (hvt : v'.type = v.type)
    (hvb : v'.bytes =
      (v.setEntry (freeEntry (entries v.bytes)) ⟨c, strncpy name DIRSIZ⟩).bytes)
    (hvl : v'.nlink.toInt = v.nlink.toInt + if w.type = T_DIR then 1 else 0)
    (hw' : N' c = some w') (hwt : w'.type = w.type) (hwb : w'.bytes = w.bytes)
    (hwl : w'.nlink.toInt = w.nlink.toInt + 1) : Relink N N' n d c 0 1 := by
  have hc := h.pos c w hw
  have hd := h.pos d v hv
  have hshape := h.shape d v hv ht
  have hlen : (strncpy name DIRSIZ).length = DIRSIZ := length_strncpy _ _
  have hc16 : c < 2 ^ 16 := by omega
  have h2 := hshape.two_le_freeEntry (by omega)
  have hle : freeEntry (entries v.bytes) ≤ (entries v.bytes).length := List.findIdx_le_length
  have hset := @Node.Shape.setEntry v n d _ ⟨c, strncpy name DIRSIZ⟩ hshape hn hc.2 hlen h2 hle
    fun _ => hshape.ne_dot (by omega) hfind
  refine ⟨rfl, hcd, by omega, hsame, ⟨v, v', hv, hv', ht, hset.congr hvt hvb, ?_, ?_, ?_⟩,
    w, w', hw, hw', hwt, hwb, by simpa using hwl⟩
  · rw [Node.up, hvb]
    exact congrArg Dirent.inum (@Node.entryAt_setEntry v _ ⟨c, strncpy name DIRSIZ⟩ hc16 hlen
      hshape.isDir.dvd hle 1 (by omega))
  · intro q hq
    have := @Node.countP_enter v ⟨c, strncpy name DIRSIZ⟩ hc16 hlen hshape.isDir.dvd h2
      (fun de => q de.inum) fun de hde => by rw [hde, hq]
    rw [Node.slots, hvb, ite_self, Nat.add_zero]
    exact this
  · rw [isDir_eq_decide hw, hvl]
    by_cases hwt : w.type = T_DIR <;> simp [hwt]

section Made

variable {type major minor : Int16} {name : List UInt8}

/-- The nodes after inode `c` is made and entered in directory `d`, all references kept. -/
def filled (N : Nodes) (d c : ℕ) (name : List UInt8) (type major minor : Int16) : Nodes :=
  let N1 := Nodes.enter (update N c (some (Node.made type major minor c d))) d c name
  if type = T_DIR then N1.modify d Node.addLink else N1

theorem created_eq (N : Nodes) (U : ℕ → Prop) (d c : ℕ) (name : List UInt8)
    (type major minor : Int16) : N.created U d c name type major minor =
      (N.filled d c name type major minor).reap (fun x => U x ∨ x = c) d := rfl

/-- A new inode can stand without a name. -/
theorem Tree.unnamed (h : N.Tree n) (hn : n ≤ 2 ^ 16) (hv : N d = some v) (hpos : 1 ≤ c) (hc : c < n)
    (hnone : N c = none) :
    Tree (update N c (some (Node.unnamed type major minor c d))) n := by
  have hd := h.pos d v hv
  refine h.add hpos hc hnone rfl fun ht => ?_
  obtain ⟨hshape, hslots, -⟩ := Node.unnamed_shape major minor ht hpos hc hd.2 (by omega) hn
  exact ⟨hshape, hslots⟩

/-- **`create`** adds an entry and the links it stands for. -/
theorem Relink.filled (h : N.Tree n) (hn : n ≤ 2 ^ 16) (hv : N d = some v) (ht : v.type = T_DIR)
    (hpos : 1 ≤ c) (hc : c < n) (hnone : N c = none)
    (hfind : findEntry (entries v.bytes) name = none) (hlink : type = T_DIR → v.nlink ≠ 32767) :
    Relink (update N c (some (Node.unnamed type major minor c d)))
      (N.filled d c name type major minor) n d c 0 1 := by
  have hcd : c ≠ d := ne_of_values hnone hv nofun
  obtain ⟨v1, hv1⟩ : ∃ v1, v1 = v.setEntry (freeEntry (entries v.bytes)) ⟨c, strncpy name DIRSIZ⟩ :=
    ⟨_, rfl⟩
  have hat : N.filled d c name type major minor d =
      some (if type = T_DIR then v1.addLink else v1) := by
    simp only [Nodes.filled, Nodes.enter]
    split <;> simp [update_of_ne hcd.symm, hv, hv1]
  have hatc : N.filled d c name type major minor c = some (Node.made type major minor c d) := by
    simp only [Nodes.filled, Nodes.enter]
    split <;> simp [modify_of_ne _ _ hcd]
  refine .entered (h.unnamed hn hv hpos hc hnone) hn (update_of_ne hcd.symm _ _ ▸ hv) ht
    (update_self _ _ _) hcd hfind (fun j hjd hjc => ?_) hat ?_ ?_ ?_ hatc rfl rfl rfl
  · simp only [Nodes.filled, Nodes.enter]
    split <;> simp [modify_of_ne _ _ hjd, update_of_ne hjc]
  · rw [hv1]
    split <;> rfl
  · rw [hv1]
    split <;> rfl
  · show _ = _ + if type = T_DIR then 1 else 0
    by_cases hty : type = T_DIR
    · have := toInt_addLink (v := v1) (by rw [hv1]; exact hlink hty)
      rw [if_pos hty, if_pos hty, this, hv1]
      rfl
    · rw [if_neg hty, if_neg hty, hv1, Int.add_zero]
      rfl

/-- The nodes after inode `c` gets one more name, in directory `d`. -/
def linked (N : Nodes) (d c : ℕ) (name : List UInt8) : Nodes :=
  (N.modify c Node.addLink).enter d c name

/-- **`sys_link`** adds an entry and the link it stands for. -/
theorem Relink.linked (h : N.Tree n) (hn : n ≤ 2 ^ 16) (hv : N d = some v) (ht : v.type = T_DIR)
    (hw : N c = some w) (hwt : w.type ≠ T_DIR) (hfind : findEntry (entries v.bytes) name = none)
    (hlink : w.nlink ≠ 32767) : Relink N (N.linked d c name) n d c 0 1 := by
  have hcd : c ≠ d := by
    rintro rfl
    obtain rfl := Option.some.inj (hv.symm.trans hw)
    exact hwt ht
  have hat : N.linked d c name d =
      some (v.setEntry (freeEntry (entries v.bytes)) ⟨c, strncpy name DIRSIZ⟩) := by
    simp [Nodes.linked, Nodes.enter, modify_of_ne _ _ hcd.symm, hv]
  have hatc : N.linked d c name c = some w.addLink := by
    simp [Nodes.linked, Nodes.enter, modify_of_ne _ _ hcd, hw]
  refine .entered h hn hv ht hw hcd hfind (fun j hjd hjc => ?_) hat rfl rfl ?_ hatc rfl rfl
    (toInt_addLink hlink)
  · simp [Nodes.linked, Nodes.enter, modify_of_ne _ _ hjd, modify_of_ne _ _ hjc]
  · rw [if_neg hwt, Int.add_zero]
    rfl

end Made

theorem Tree.reap {U : ℕ → Prop} (h : N.Tree n) (i : ℕ) : (N.reap U i).Tree n := by
  by_cases hfree : ¬ U i ∧ ∃ v, N i = some v ∧ v.nlink = 0
  · rw [Nodes.reap, if_pos hfree]
    obtain ⟨-, v, hv, h0⟩ := hfree
    exact h.remove hv h0
  · rw [Nodes.reap, if_neg hfree]
    exact h

/-- An entry is removed. -/
theorem Tree.leave (h : N.Tree n) (hr : Relink N N' n d c 1 0) : N'.Tree n :=
  h.relink hr fun hc => absurd hc (by decide)

/-- The new inode gets its name. -/
theorem Tree.filled {type major minor : Int16} {name : List UInt8} (h : N.Tree n) (hn : n ≤ 2 ^ 16)
    (hv : N d = some v) (ht : v.type = T_DIR) (hpos : 1 ≤ c) (hc : c < n) (hnone : N c = none)
    (hfind : findEntry (entries v.bytes) name = none) (hlink : type = T_DIR → v.nlink ≠ 32767) :
    (N.filled d c name type major minor).Tree n := by
  have hd := h.pos d v hv
  refine (h.unnamed hn hv hpos hc hnone).relink
    (.filled h hn hv ht hpos hc hnone hfind hlink) fun _ w hw hwt => ?_
  rw [update_self] at hw
  cases hw
  obtain ⟨-, hslots, hup⟩ := Node.unnamed_shape major minor hwt hpos hc hd.2 (by omega) hn
  refine ⟨hup, ?_, ?_⟩
  · rintro rfl
    obtain ⟨u, hu, -⟩ := h.root
    rw [hnone] at hu
    cases hu
  · exact (count_add hnone (fun _ => hslots) c).trans (h.count_eq_zero (by omega) hnone)

/-- A file gets one more name. -/
theorem Tree.linked {name : List UInt8} (h : N.Tree n) (hn : n ≤ 2 ^ 16) (hv : N d = some v)
    (ht : v.type = T_DIR) (hw : N c = some w) (hwt : w.type ≠ T_DIR)
    (hfind : findEntry (entries v.bytes) name = none) (hlink : w.nlink ≠ 32767) :
    (N.linked d c name).Tree n :=
  h.relink (.linked h hn hv ht hw hwt hfind hlink) fun _ _ hu hut =>
    absurd (Option.some.inj (hw.symm.trans hu) ▸ hut) hwt

end Nodes

end Xv6
