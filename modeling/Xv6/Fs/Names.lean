import Xv6.Fs.Path

/-! # Creating and removing names

What `create`, `sys_unlink` and `sys_link` do to the nodes, exactly. Every effect is a composition of
two: `Nodes.modify` changes one node, and `Nodes.reap` frees a node that has neither links nor
users, which is what dropping a reference amounts to. -/

namespace Xv6

open Function

namespace Nodes

/-- The nodes with node `i` changed, if there is one. -/
def modify (N : Nodes) (i : ℕ) (f : Node → Node) : Nodes := update N i ((N i).map f)

open Classical in
/-- The nodes after the last reference to node `i` may have been dropped: it is freed if it has no
links and is not in use. -/
noncomputable def reap (N : Nodes) (U : ℕ → Prop) (i : ℕ) : Nodes :=
  if ¬ U i ∧ ∃ v, N i = some v ∧ v.nlink = 0 then update N i none else N

variable {N : Nodes} {U : ℕ → Prop} {i j n : ℕ} {v : Node} {f g : Node → Node}

@[simp] theorem modify_self (N : Nodes) (i : ℕ) (f : Node → Node) :
    N.modify i f i = (N i).map f := update_self _ _ _

theorem modify_of_ne (N : Nodes) (f : Node → Node) (h : j ≠ i) : N.modify i f j = N j :=
  update_of_ne h _ _

theorem modify_eq (hv : N i = some v) (f : Node → Node) :
    N.modify i f = update N i (some (f v)) := by
  rw [modify, hv, Option.map_some]

theorem modify_modify (N : Nodes) (i : ℕ) (f g : Node → Node) :
    (N.modify i f).modify i g = N.modify i fun v => g (f v) := by
  rw [modify, modify_self, Option.map_map, modify, update_idem]
  rfl

theorem frees_reap (N : Nodes) (U : ℕ → Prop) (i : ℕ) : N.Frees (N.reap U i) := by
  by_cases h : ¬ U i ∧ ∃ v, N i = some v ∧ v.nlink = 0
  · rw [reap, if_pos h]
    obtain ⟨-, v, hv, h0⟩ := h
    exact Frees.remove hv h0
  · rw [reap, if_neg h]
    exact .refl N

theorem reap_of_inUse (h : U i) : N.reap U i = N := if_neg fun hc => hc.1 h

/-- Nothing is freed if the node is in use whenever it has no links. -/
theorem reap_of_kept (h : ∀ v, N i = some v → v.nlink = 0 → U i) : N.reap U i = N := by
  refine if_neg ?_
  rintro ⟨hU, v, hv, h0⟩
  exact hU (h v hv h0)

theorem reap_of_linked (hv : N i = some v) (h : v.nlink ≠ 0) : N.reap U i = N := by
  refine if_neg ?_
  rintro ⟨-, w, hw, h0⟩
  rw [hv] at hw
  exact h (Option.some.inj hw ▸ h0)

theorem reap_of_free (hv : N i = some v) (h : v.nlink = 0) (hU : ¬ U i) :
    N.reap U i = update N i none := if_pos ⟨hU, v, hv, h⟩

theorem reap_of_ne (N : Nodes) (U : ℕ → Prop) (h : j ≠ i) : N.reap U i j = N j := by
  rw [reap]
  split
  · exact update_of_ne h _ _
  · rfl

/-- A change that keeps the type and the form of directories. -/
theorem DirsOk.modify (h : N.DirsOk n)
    (hf : ∀ v, N i = some v → (f v).type = T_DIR → (f v).IsDir n) : (N.modify i f).DirsOk n := by
  intro j w hw ht
  rcases eq_or_ne j i with rfl | hj
  · rw [modify_self, Option.map_eq_some_iff] at hw
    obtain ⟨v, hv, rfl⟩ := hw
    exact hf v hv ht
  · rw [modify_of_ne _ _ hj] at hw
    exact h j w hw ht

theorem DirsOk.put (h : N.DirsOk n) (hw : v.type = T_DIR → v.IsDir n) :
    DirsOk (update N i (some v)) n := by
  intro j w hj ht
  obtain ⟨rfl, ⟨⟩⟩ | ⟨hji, hj⟩ := update_cases hj
  · exact hw ht
  · exact h j w hj ht

end Nodes

/-- A directory stays one when an entry with an existing inode number is written. -/
theorem Node.IsDir.setEntry {v : Node} {n k : ℕ} {de : Dirent} (h : v.IsDir n) (hn : n ≤ 2 ^ 16)
    (hi : de.inum < n) (hname : de.name.length = DIRSIZ) (hk : k ≤ (entries v.bytes).length) :
    (v.setEntry k de).IsDir n := by
  have hle : DIRENT * k ≤ v.bytes.length := by
    rw [← Nat.mul_div_cancel' h.dvd, ← length_entries]
    exact Nat.mul_le_mul_left _ hk
  refine ⟨h.type, dvd_length_splice hname h.dvd hle, fun e he => ?_⟩
  rw [Node.setEntry, entries_splice (by omega) hname h.dvd hk] at he
  split at he
  · rcases List.mem_or_eq_of_mem_set he with he | rfl
    · exact h.lt e he
    · exact hi
  · rcases List.mem_append.mp he with he | he
    · exact h.lt e he
    · rw [List.mem_singleton.mp he]
      exact hi

/-- An entry that is not in use. -/
def Dirent.none : Dirent := ⟨0, List.replicate DIRSIZ 0⟩

/-- One link less. -/
def Node.dropLink (v : Node) : Node := { v with nlink := v.nlink - 1 }

/-- One link more. -/
def Node.addLink (v : Node) : Node := { v with nlink := v.nlink + 1 }

/-- The nodes after entry `k` of directory `d`, which named `c`, is removed, when `U` are in use. -/
noncomputable def Nodes.unlinked (N : Nodes) (U : ℕ → Prop) (d k c : ℕ) (isDir : Bool) : Nodes :=
  let N1 := N.modify d fun v => v.setEntry k .none
  let N2 := if isDir then N1.modify d Node.dropLink else N1
  ((N2.reap (fun x => U x ∨ x = c) d).modify c Node.dropLink).reap U c

/-- The node `create` makes for inode `c` in directory `d`. -/
def Node.made (type major minor : Int16) (c d : ℕ) : Node where
  type := type
  major := major
  minor := minor
  nlink := 1
  bytes := if type = T_DIR then Dirent.encode ⟨c, strncpy [dot] DIRSIZ⟩ ++
    Dirent.encode ⟨d, strncpy [dot, dot] DIRSIZ⟩ else []

section Made

variable {type : Int16} (major minor : Int16) {c d n : ℕ}

/-- A directory before it has any entries. -/
def Node.blank (type major minor : Int16) : Node := ⟨type, major, minor, 1, []⟩

theorem Node.made_of_ne (h : type ≠ T_DIR) :
    Node.made type major minor c d = Node.blank type major minor := by
  rw [made, if_neg h, blank]

/-- The new directory is what the two calls of `dirlink` leave. -/
theorem Node.made_eq (h : type = T_DIR) (hpos : 1 ≤ c) (hc : c < 2 ^ 16) :
    (((Node.blank type major minor).setEntry 0 ⟨c, strncpy [dot] DIRSIZ⟩).setEntry
      (freeEntry (entries ((Node.blank type major minor).setEntry 0
        ⟨c, strncpy [dot] DIRSIZ⟩).bytes)) ⟨d, strncpy [dot, dot] DIRSIZ⟩) =
      Node.made type major minor c d := by
  have hlen : (Dirent.encode ⟨c, strncpy [dot] DIRSIZ⟩).length = DIRENT :=
    Dirent.length_encode (length_strncpy _ _)
  have hfirst : ((Node.blank type major minor).setEntry 0 ⟨c, strncpy [dot] DIRSIZ⟩).bytes =
      Dirent.encode ⟨c, strncpy [dot] DIRSIZ⟩ := by
    simp [setEntry, blank, splice]
  have hone : entries ((Node.blank type major minor).setEntry 0 ⟨c, strncpy [dot] DIRSIZ⟩).bytes =
      [⟨c, strncpy [dot] DIRSIZ⟩] := by
    have := @entries_splice [] ⟨c, strncpy [dot] DIRSIZ⟩ 0 hc (length_strncpy _ _) (Nat.dvd_zero _)
      (Nat.zero_le _)
    rw [entries_nil] at this
    exact this
  have hfree : freeEntry [(⟨c, strncpy [dot] DIRSIZ⟩ : Dirent)] = 1 := by
    have : c ≠ 0 := by omega
    simp [freeEntry, Dirent.free, this]
  rw [hone, hfree, made, if_pos h, setEntry, hfirst, Nat.mul_one, splice, ← hlen, List.take_length,
    List.drop_of_length_le (Nat.le_add_right _ _), List.append_nil]
  rfl

theorem Node.blank_isDir (h : type = T_DIR) (n : ℕ) : (Node.blank type major minor).IsDir n :=
  ⟨h, Nat.dvd_zero _, fun _ he => by
    rw [blank, entries_nil] at he
    cases he⟩

theorem Node.made_isDir (h : type = T_DIR) (hpos : 1 ≤ c) (hc : c < n) (hd : d < n)
    (hn : n ≤ 2 ^ 16) : (Node.made type major minor c d).IsDir n := by
  rw [← made_eq major minor h hpos (by omega)]
  refine (Node.IsDir.setEntry (blank_isDir major minor h n) hn hc (length_strncpy _ _)
    (Nat.zero_le _)).setEntry hn hd (length_strncpy _ _) List.findIdx_le_length

end Made

/-- The nodes after directory `d` gets an entry for inode `c`. -/
def Nodes.enter (N : Nodes) (d c : ℕ) (name : List UInt8) : Nodes :=
  N.modify d fun v => v.setEntry (freeEntry (entries v.bytes)) ⟨c, strncpy name DIRSIZ⟩

/-- The nodes after inode `c` is made and entered in directory `d`. -/
noncomputable def Nodes.created (N : Nodes) (U : ℕ → Prop) (d c : ℕ) (name : List UInt8)
    (type major minor : Int16) : Nodes :=
  let N1 := Nodes.enter (update N c (some (Node.made type major minor c d))) d c name
  let N2 := if type = T_DIR then N1.modify d Node.addLink else N1
  N2.reap (fun x => U x ∨ x = c) d

namespace Nodes

variable {N : Nodes} {U : ℕ → Prop} {c d i k n : ℕ} {v : Node} {name : List UInt8}
  {type major minor : Int16}

/-- Link counts do not matter. -/
theorem DirsOk.setLinks (h : N.DirsOk n) (f : Int16 → Int16) :
    (N.modify i fun v => { v with nlink := f v.nlink }).DirsOk n :=
  h.modify fun v hv ht => ⟨ht, (h i v hv ht).dvd, (h i v hv ht).lt⟩

theorem DirsOk.unlinked (h : N.DirsOk n) (hn : n ≤ 2 ^ 16) (h0 : 0 < n) (hv : N d = some v)
    (hk : k < (entries v.bytes).length) (isDir : Bool) : (N.unlinked U d k c isDir).DirsOk n := by
  have h1 : (N.modify d fun v => v.setEntry k .none).DirsOk n := by
    refine h.modify fun u hu ht => ?_
    obtain rfl := Option.some.inj (hv.symm.trans hu)
    exact (h d v hv ht).setEntry hn h0 List.length_replicate (Nat.le_of_lt hk)
  have h2 : DirsOk (if isDir then (N.modify d fun v => v.setEntry k .none).modify d Node.dropLink
      else N.modify d fun v => v.setEntry k .none) n := by
    split
    · exact h1.setLinks (· - 1)
    · exact h1
  exact ((h2.frees (frees_reap _ _ _)).setLinks (· - 1)).frees (frees_reap _ _ _)

theorem DirsOk.created (h : N.DirsOk n) (hn : n ≤ 2 ^ 16) (hd : d < n) (hpos : 1 ≤ c) (hc : c < n) :
    (N.created U d c name type major minor).DirsOk n := by
  have h1 : DirsOk (update N c (some (Node.made type major minor c d))) n :=
    h.put fun ht => Node.made_isDir major minor ht hpos hc hd hn
  have h2 : DirsOk (Nodes.enter (update N c (some (Node.made type major minor c d))) d c name)
      n := by
    refine h1.modify fun u hu ht => ?_
    exact Node.IsDir.setEntry (h1 d u hu ht) hn hc (length_strncpy _ _) List.findIdx_le_length
  rw [Nodes.created]
  refine DirsOk.frees ?_ (frees_reap _ _ _)
  split
  · exact h2.setLinks (· + 1)
  · exact h2

/-- The inode that `create` made. -/
theorem created_self (hfree : N c = none) (hv : N d = some v) :
    N.created U d c name type major minor c = some (Node.made type major minor c d) := by
  have hcd : c ≠ d := ne_of_values hfree hv nofun
  rw [Nodes.created, reap_of_ne _ _ hcd]
  split <;> simp only [enter, modify_of_ne _ _ hcd, update_self]

end Nodes

namespace Fs

variable {s t u : Fs} {H : Fin NINODE → ℕ} {E : Panic → Prop} {N N' : Nodes}
  {cwd dp ip jp : Fin NINODE} {c d i j k : ℕ} {v w : Node} {name : List UInt8}

/-! ## Dropping references -/

theorem Keeps.inUse_eq (hk : Keeps H s t) : t.InUse H = s.InUse H :=
  funext fun _ => propext hk.inUse_iff

theorem inUse_addRef (hi : (s.itable ip).inum = i) :
    s.InUse (addRef H ip) = fun x => s.InUse H x ∨ x = i := by
  funext x
  apply propext
  constructor
  · rintro ⟨jp, hjp, rfl⟩
    rcases eq_or_ne jp ip with rfl | h
    · exact Or.inr hi
    · rw [addRef_apply, if_neg h] at hjp
      exact Or.inl ⟨jp, hjp, rfl⟩
  · rintro (⟨jp, hjp, rfl⟩ | rfl)
    · exact ⟨jp, lt_of_lt_of_le hjp (le_addRef H ip jp), rfl⟩
    · exact ⟨ip, addRef_pos H ip, hi⟩

/-- Dropping the reference to an inode that was read. -/
theorem putNodes_addRef (h : s.Rep N (addRef H ip)) (ho : s.Opened (addRef H ip) ip i) :
    s.putNodes N (addRef H ip) ip = N.reap (s.InUse H) i := by
  have hentry := ho.entry h
  have huse : s.InUse H i ↔ H ip ≠ 0 := by
    constructor
    · rintro ⟨jp, hjp, hinum⟩
      obtain rfl := h.inum_inj (lt_of_lt_of_le hjp (le_addRef H ip jp)) ho.held
        (hinum.trans ho.inum.symm)
      omega
    · exact fun hne => ⟨ip, by omega, ho.inum⟩
  by_cases hfree : (s.itable ip).nlink = 0 ∧ H ip = 0
  · rw [putNodes, if_pos ⟨by rw [addRef_self, hfree.2], ho.valid, hfree.1⟩, ho.inum,
      Nodes.reap_of_free hentry hfree.1 fun hu => huse.mp hu hfree.2]
  · rw [putNodes, if_neg]
    · by_cases h0 : H ip = 0
      · rw [Nodes.reap_of_linked hentry fun hz => hfree ⟨hz, h0⟩]
      · rw [Nodes.reap_of_inUse (huse.mpr h0)]
    · rintro ⟨hone, -, h0⟩
      rw [addRef_self] at hone
      exact hfree ⟨h0, by omega⟩

theorem iput_reap (h : s.Rep N (addRef H ip)) (ho : s.Opened (addRef H ip) ip i) :
    Wp (iput ip) E (fun _ t => t.Rep (N.reap (s.InUse H) i) H ∧ Keeps H s t) s := by
  refine (iput_rep h ho.held).mono fun _ t ht => ?_
  rwa [putNodes_addRef h ho, dropRef_addRef] at ht

theorem iunlockput_reap (h : s.Rep N (addRef H ip)) (ho : s.Opened (addRef H ip) ip i) :
    Wp (iunlockput ip) E (fun _ t => t.Rep (N.reap (s.InUse H) i) H ∧ Keeps H s t) s := by
  refine (iunlockput_rep h ho.held).mono fun _ t ht => ?_
  rwa [putNodes_addRef h ho, dropRef_addRef] at ht

/-- Changing the numbers of an inode that was read. -/
theorem setLinks_rep (h : s.Rep N H) (ho : s.Opened H ip i) (f : Int16 → Int16) :
    Wp (iupdate ip) E (fun _ t => Keeps H s t ∧
      t.Rep (N.modify i fun v => { v with nlink := f v.nlink }) H)
      (s.setInode ip fun e => { e with nlink := f e.nlink }) := by
  refine (iupdate_rep h ho (ho.entry h) (fun e => { e with nlink := f e.nlink })
    fun _ => ⟨rfl, rfl, rfl, rfl, rfl, rfl⟩).mono fun _ t ht => ⟨ht.1, ?_⟩
  rw [Nodes.modify_eq (ho.entry h)]
  exact ht.2

/-- The end of a transaction is not seen on the nodes. -/
theorem wp_endOp_return {α : Type} (a : α) {Q : α → Fs → Prop} (hQ : ∀ t, t.Rep N H → Keeps H s t → Q a t)
    (h : s.Rep N H) : Wp (do
      endOp
      return a : FsM α) E Q s := by
  simp only [endOp, wp_bind, wp_modify, wp_pure]
  exact hQ _ (h.congr rfl rfl rfl) (.of_itable rfl rfl)

/-- A reference to inode `i`, which was read, on top of those `H` counts; nothing `H` refers to has
moved since `t`. -/
structure Has (t : Fs) (N : Nodes) (H : Fin NINODE → ℕ) (ip : Fin NINODE) (i : ℕ) (s : Fs) : Prop where
  rep : s.Rep N (addRef H ip)
  opened : s.Opened (addRef H ip) ip i
  keeps : Keeps H t s

theorem Has.next (h : t.Has N H ip i s) (hrep : u.Rep N' (addRef H ip)) (hk : Keeps (addRef H ip) s u) :
    t.Has N' H ip i u := ⟨hrep, h.opened.keep hk, h.keeps.trans hk.of_addRef⟩

theorem Has.put (h : t.Has N H ip i s) :
    Wp (iunlockput ip) E (fun _ u => u.Rep (N.reap (t.InUse H) i) H ∧ Keeps H t u) s := by
  refine (iunlockput_reap h.rep h.opened).mono fun _ u ⟨hrep, hk⟩ => ?_
  exact ⟨h.keeps.inUse_eq ▸ hrep, h.keeps.trans hk⟩

/-- References to the directory `d` and to the inode `c`, which were both read. -/
structure Both (t : Fs) (N : Nodes) (H : Fin NINODE → ℕ) (dp ip : Fin NINODE) (d c : ℕ) (s : Fs) :
    Prop where
  rep : s.Rep N (addRef (addRef H dp) ip)
  dir : s.Opened (addRef (addRef H dp) ip) dp d
  file : s.Opened (addRef (addRef H dp) ip) ip c
  keeps : Keeps H t s

namespace Both

theorem next (h : t.Both N H dp ip d c s) (hrep : u.Rep N' (addRef (addRef H dp) ip))
    (hk : Keeps (addRef (addRef H dp) ip) s u) : t.Both N' H dp ip d c u :=
  ⟨hrep, h.dir.keep hk, h.file.keep hk, h.keeps.trans hk.of_addRef.of_addRef⟩

theorem swap (h : t.Both N H dp ip d c s) : t.Both N H ip dp c d s := by
  obtain ⟨hrep, hd, hc, hk⟩ := h
  rw [addRef_comm] at hrep hd hc
  exact ⟨hrep, hc, hd, hk⟩

/-- Dropping the inode leaves the directory. -/
theorem putFile (h : t.Both N H dp ip d c s) :
    Wp (iunlockput ip) E (fun _ u => t.Has (N.reap (fun x => t.InUse H x ∨ x = d) c) H dp d u) s := by
  refine (iunlockput_reap h.rep h.file).mono fun _ u ⟨hrep, hk⟩ => ?_
  rw [inUse_addRef h.dir.inum, h.keeps.inUse_eq] at hrep
  exact ⟨hrep, (h.dir.mono (addRef_pos H dp)).keep hk, h.keeps.trans hk.of_addRef⟩

/-- Dropping the directory leaves the inode. -/
theorem putDir (h : t.Both N H dp ip d c s) :
    Wp (iunlockput dp) E (fun _ u => t.Has (N.reap (fun x => t.InUse H x ∨ x = c) d) H ip c u) s :=
  h.swap.putFile

/-- The link count of the directory follows its `..` entries. -/
theorem setLinks (h : t.Both N H dp ip d c s) (p : Prop) [Decidable p] (f : Int16 → Int16) :
    Wp (if p then do
        modifyInode dp fun e => { e with nlink := f e.nlink }
        iupdate dp
      else return () : FsM Unit) E (fun _ u => t.Both
        (if p then N.modify d fun v => { v with nlink := f v.nlink } else N) H dp ip d c u) s := by
  by_cases hp : p
  · rw [if_pos hp, if_pos hp]
    simp only [modifyInode, wp_bind, wp_modify]
    exact (setLinks_rep h.rep h.dir f).mono fun _ u hu => h.next hu.2 hu.1
  · rw [if_neg hp, if_neg hp, wp_pure]
    exact h

end Both

/-! ## Removing a name -/

/-- What `sys_unlink` does: nothing, or it removes entry `k` of directory `d`, which names `c`. -/
inductive Unlinked (s : Fs) (N : Nodes) (H : Fin NINODE → ℕ) (d : ℕ) (name : List UInt8) :
    ℤ → Fs → Prop
  | refused (t : Fs) (N' : Nodes) (hrep : t.Rep N' H) (hkeeps : Keeps H s t) (hfrees : N.Frees N')
      (hsame : (∀ i, i = d ∨ N.child d name = some i → ∀ v, N i = some v → v.nlink = 0 →
        s.InUse H i) → N' = N) : Unlinked s N H d name (-1) t
  | removed (t : Fs) (k c : ℕ) (v w : Node) (hv : N d = some v) (hw : N c = some w)
      (hname : ¬ (namecmp name [dot] = 0 ∨ namecmp name [dot, dot] = 0))
      (hfind : findEntry (entries v.bytes) name = some k) (hc : N.child d name = some c)
      (hk : k < (entries v.bytes).length) (hlink : ¬ w.nlink < 1)
      (hempty : w.type = T_DIR → NoEntries (entries w.bytes))
      (hrep : t.Rep (N.unlinked (s.InUse H) d k c (w.type = T_DIR)) H) (hkeeps : Keeps H s t) :
      Unlinked s N H d name 0 t

/-- The part of `sys_unlink` that cannot fail any more. -/
theorem unlinkCommit_spec (h : t.Both N H dp ip d c s) (hv : N d = some v) (hw : N c = some w)
    (hdvd : DIRENT ∣ v.bytes.length) (hk : k < (entries v.bytes).length) :
    Wp (unlinkCommit dp ip (DIRENT * k)) E (fun r u => r = 0 ∧ Keeps H t u ∧
      u.Rep (N.unlinked (t.InUse H) d k c (w.type = T_DIR)) H) s := by
  rw [unlinkCommit]
  refine (writeDirent_spec h.rep h.dir hv hdvd (Nat.le_of_lt hk) (List.length_replicate)).bind ?_
  rintro r s1 ⟨hk1, hr⟩
  obtain ⟨rfl, hrep1⟩ | ⟨-, -, hend⟩ := hr
  swap
  · omega
  rw [if_neg (not_not.mpr rfl)]
  have h1 : t.Both (N.modify d fun v => v.setEntry k .none) H dp ip d c s1 :=
    h.next (by rw [Nodes.modify_eq hv]; exact hrep1) hk1
  -- the type of the inode unlinked is as it was
  have htype : (s1.itable ip).type = w.type := by
    rw [(hk1.valid ip h.file.held h.file.valid).2]
    exact congrArg Node.type (Option.some.inj ((h.file.entry h.rep).symm.trans hw))
  simp only [inode, wp_bind, wp_get, wp_pure, htype]
  refine (h1.setLinks (w.type = T_DIR) (· - 1)).mono fun _ s2 h2 => ?_
  refine h2.putDir.bind fun _ s3 h3 => ?_
  simp only [modifyInode, wp_bind, wp_modify]
  refine (setLinks_rep h3.rep h3.opened (· - 1)).mono ?_
  rintro _ s4 ⟨hk4, hrep4⟩
  refine (h3.next hrep4 hk4).put.bind ?_
  rintro _ s5 ⟨hrep5, hk5⟩
  refine wp_endOp_return _ (fun u hu hku => ⟨rfl, hk5.trans hku, ?_⟩) hrep5
  simp only [Nodes.unlinked, decide_eq_true_eq]
  exact hu

/-- A call that fails with only the parent locked. -/
theorem wp_unlink_refuse (h : t.Has N H dp d s) : Wp (do
      iunlockput dp
      endOp
      return -1 : FsM ℤ) E (t.Unlinked N H d name) s := by
  refine h.put.bind fun _ u hu => ?_
  refine wp_endOp_return _ (fun w hw hkw => ?_) hu.1
  exact .refused w _ hw (hu.2.trans hkw) (Nodes.frees_reap _ _ _) fun hsafe =>
    Nodes.reap_of_kept (hsafe d (Or.inl rfl))

theorem unlinkEntry_spec (h : s.Rep N (addRef (addRef H dp) ip))
    (hd : s.Opened (addRef (addRef H dp) ip) dp d) (hc : s.Holds (addRef (addRef H dp) ip) ip c)
    (hk : Keeps H t s) (hdirs : N.DirsOk s.sb.ninodes) (hv : N d = some v)
    (hdvd : DIRENT ∣ v.bytes.length)
    (hname : ¬ (namecmp name [dot] = 0 ∨ namecmp name [dot, dot] = 0))
    (hfind : findEntry (entries v.bytes) name = some k) (hkl : k < (entries v.bytes).length)
    (hchild : N.child d name = some c) (hEn : N c = none → E .ilockNoType)
    (hEl : ∀ w, N c = some w → w.nlink < 1 → E .unlinkNlink) :
    Wp (unlinkEntry dp ip (DIRENT * k)) E (t.Unlinked N H d name) s := by
  rw [unlinkEntry]
  refine (ilock_rep h hc hEn).bind ?_
  rintro _ s1 ⟨hrep1, hk1, hc1⟩
  have h1 : t.Both N H dp ip d c s1 := ⟨hrep1, hd.keep hk1, hc1, hk.trans hk1.of_addRef.of_addRef⟩
  have hw := hc1.entry hrep1
  have hlink : (s1.itable ip).nlink = (s1.nodeOf (s1.itable ip).toDinode).nlink := rfl
  have htype : (s1.itable ip).type = (s1.nodeOf (s1.itable ip).toDinode).type := rfl
  simp only [inode, wp_bind, wp_get, wp_pure]
  rw [hlink, htype]
  generalize s1.nodeOf (s1.itable ip).toDinode = w at hw
  by_cases hl : w.nlink < 1
  · rw [if_pos hl, wp_throw]
    exact hEl w hw hl
  · rw [if_neg hl, wp_bind]
    have hbusy : Wp (if w.type = T_DIR then do return !(← isdirempty ip) else return false : FsM Bool)
        E (fun b u => u = s1 ∧ (b = false ↔ (w.type = T_DIR → NoEntries (entries w.bytes)))) s1 := by
      by_cases hdir : w.type = T_DIR
      · rw [if_pos hdir]
        refine (isdirempty_spec hrep1 hc1 hw (hdirs c w hw hdir).dvd).bind fun b u hu => ?_
        rw [wp_pure]
        refine ⟨hu.1, ?_⟩
        simp [hdir, ← hu.2]
      · rw [if_neg hdir, wp_pure]
        simp [hdir]
    refine hbusy.mono fun b u hu => ?_
    obtain ⟨rfl, hb⟩ := hu
    cases b with
    | true =>
      -- a directory that is not empty
      rw [if_pos rfl]
      refine h1.putFile.bind fun _ s2 h2 => ?_
      refine h2.put.bind fun _ s3 hs3 => ?_
      refine wp_endOp_return _ (fun s4 hs4 hk4 => ?_) hs3.1
      refine .refused s4 _ hs4 (hs3.2.trans hk4)
        ((Nodes.frees_reap _ _ _).trans (Nodes.frees_reap _ _ _)) fun hsafe => ?_
      rw [Nodes.reap_of_kept (i := c) fun v hv h0 => Or.inl (hsafe c (Or.inr hchild) v hv h0),
        Nodes.reap_of_kept (hsafe d (Or.inl rfl))]
    | false =>
      rw [if_neg Bool.false_ne_true]
      refine (unlinkCommit_spec h1 hv hw hdvd hkl).mono ?_
      rintro r s2 ⟨hr, hk2, hrep⟩
      subst hr
      exact .removed s2 k c v w hv hw hname hfind hchild hkl hl (hb.mp rfl) hrep hk2

/-- **`sys_unlink`** in the directory `dp`. -/
theorem unlinkAt_spec (h : s.Rep N (addRef H dp)) (hd : s.Opened (addRef H dp) dp d)
    (hdirs : N.DirsOk s.sb.ninodes) (hv : N d = some v) (ht : v.type = T_DIR) (name : List UInt8)
    (hE : E .igetNoInodes) (hEn : ∀ c, N.child d name = some c → N c = none → E .ilockNoType)
    (hEl : ∀ c w, N.child d name = some c → N c = some w → w.nlink < 1 → E .unlinkNlink) :
    Wp (unlinkAt dp name) E (s.Unlinked N H d name) s := by
  rw [unlinkAt]
  refine (ilock_rep h hd.toHolds (by simp [hv])).bind fun _ s1 ⟨h1, hk1, hd1⟩ => ?_
  have hk : Keeps H s s1 := hk1.of_addRef
  by_cases hname : namecmp name [dot] = 0 ∨ namecmp name [dot, dot] = 0
  · rw [if_pos hname]
    exact wp_unlink_refuse ⟨h1, hd1, hk⟩
  · rw [if_neg hname, wp_bind]
    have hdir : v.IsDir s1.sb.ninodes := hk.sb ▸ hdirs d v hv ht
    refine (dirlookup_spec h1 hd1 hv hdir name hE).mono fun r s2 hr => ?_
    cases hr with
    | missing hfind => exact wp_unlink_refuse ⟨h1, hd1, hk⟩
    | found ip k de _ hfind hde hgain =>
      have hchild := Nodes.child_of_find hv ht hfind hde
      have hpos : 0 < addRef (addRef H dp) ip dp := lt_of_lt_of_le hd1.held (le_addRef _ _ _)
      have hk2 : Keeps H s s2 := hk.trans hgain.keeps.of_addRef
      exact unlinkEntry_spec hgain.rep ((hd1.keep hgain.keeps).mono hpos) hgain.holds hk2
        (hk2.sb ▸ hdirs) hv hdir.dvd hname hfind (List.getElem?_eq_some_iff.mp hde).1 hchild
        (hEn _ hchild) (fun w => hEl _ w hchild)

/-! ## Creating a name -/

/-- What `create` does in directory `d`: nothing, it opens an existing file, or it makes a new inode
`c` and enters it. -/
inductive Created (s : Fs) (N : Nodes) (H : Fin NINODE → ℕ) (d : ℕ) (name : List UInt8)
    (type major minor : Int16) : Option (Fin NINODE) → Fs → Prop
  | failed (t : Fs) (N' : Nodes) (hrep : t.Rep N' H) (hkeeps : Keeps H s t)
      (hdirs : N'.DirsOk s.sb.ninodes)
      (hsame : (∀ i, i = d ∨ N.child d name = some i → ∀ v, N i = some v → v.nlink = 0 →
        s.InUse H i) → (∀ i, N i = none → ¬ s.InUse H i) → N' = N) :
      Created s N H d name type major minor none t
  | existing (t : Fs) (ip : Fin NINODE) (c : ℕ) (w : Node) (hc : N.child d name = some c)
      (hw : N.reap (fun x => s.InUse H x ∨ x = c) d c = some w) (htype : type = T_FILE)
      (hwt : w.type = T_FILE ∨ w.type = T_DEVICE)
      (hrep : t.Rep (N.reap (fun x => s.InUse H x ∨ x = c) d) (addRef H ip)) (hkeeps : Keeps H s t)
      (hopen : t.Opened (addRef H ip) ip c) : Created s N H d name type major minor (some ip) t
  | created (t : Fs) (ip : Fin NINODE) (c : ℕ) (v : Node) (hv : N d = some v) (hpos : 1 ≤ c)
      (hlt : c < s.sb.ninodes) (hfree : N c = none)
      (hfind : findEntry (entries v.bytes) name = none)
      (hrep : t.Rep (N.created (s.InUse H) d c name type major minor) (addRef H ip))
      (hkeeps : Keeps H s t) (hopen : t.Opened (addRef H ip) ip c) :
      Created s N H d name type major minor (some ip) t

section Create

variable {type major minor : Int16}

/-- The inode `c` is to be entered as `name` in directory `d`, which has no such name. -/
structure Entering (t : Fs) (N : Nodes) (d c : ℕ) (v : Node) (name : List UInt8) : Prop where
  dirs : N.DirsOk t.sb.ninodes
  pos : 1 ≤ c
  free : N c = none
  dir : N d = some v
  type : v.type = T_DIR
  missing : findEntry (entries v.bytes) name = none

/-- The error path of `create` gives the new inode back. -/
theorem createFail_spec (h : t.Both (update N c (some w)) H dp ip d c s)
    (he : t.Entering N d c v name) (hw : w.type = T_DIR → w.IsDir t.sb.ninodes) :
    Wp (createFail dp ip) E (t.Created N H d name type major minor) s := by
  simp only [createFail, modifyInode, wp_bind, wp_modify]
  refine (setLinks_rep h.rep h.file fun _ => 0).mono ?_
  rintro _ s1 ⟨hk1, hrep1⟩
  rw [Nodes.modify_eq (update_self _ _ _), update_idem] at hrep1
  refine (h.next hrep1 hk1).putFile.bind fun _ s2 h2 => ?_
  refine h2.put.bind fun _ s3 hs3 => ?_
  refine .failed s3 _ hs3.1 hs3.2 ?_ fun hsafe hstale => ?_
  · refine Nodes.DirsOk.frees ?_ ((Nodes.frees_reap _ _ _).trans (Nodes.frees_reap _ _ _))
    exact he.dirs.put fun ht => ⟨ht, (hw ht).dvd, (hw ht).lt⟩
  · have huse : ¬ (t.InUse H c ∨ c = d) := by
      rintro (hu | hu)
      · exact hstale c he.free hu
      · exact absurd hu (ne_of_values he.free he.dir (by simp))
    rw [Nodes.reap_of_free (update_self _ _ _) rfl huse, update_idem, ← he.free, update_eq_self]
    exact Nodes.reap_of_kept (hsafe d (Or.inl rfl))

/-- The end of `create`. -/
theorem createEnter_spec
    (h : t.Both (update N c (some (Node.made type major minor c d))) H dp ip d c s)
    (he : t.Entering N d c v name)
    (hmade : type = T_DIR → (Node.made type major minor c d).IsDir t.sb.ninodes)
    (hE : E .igetNoInodes) :
    Wp (createEnter dp ip name type) E (t.Created N H d name type major minor) s := by
  have hv1 : update N c (some (Node.made type major minor c d)) d = some v := by
    rw [update_of_ne (ne_of_values he.dir he.free nofun), he.dir]
  have hlt : c < t.sb.ninodes := by
    rw [← h.keeps.sb, ← h.file.inum]
    exact h.rep.inum_lt h.file.held
  simp only [createEnter, inode, wp_bind, wp_get, wp_pure, h.file.inum]
  have hdir : v.IsDir s.sb.ninodes := h.keeps.sb ▸ he.dirs d v he.dir he.type
  refine (dirlink_spec h.rep h.dir hv1 hdir name c hE).mono fun r s1 hr => ?_
  cases hr with
  | refused _ h1 hk1 =>
    rw [if_pos (by decide)]
    exact createFail_spec (h.next h1 hk1) he fun ht => hmade ht
  | entered _ _ h1 hk1 =>
    rw [if_neg (by decide), wp_bind]
    have hN2 : Nodes.enter (update N c (some (Node.made type major minor c d))) d c name = _ :=
      Nodes.modify_eq hv1 _
    refine ((h.next (hN2 ▸ h1) hk1).setLinks (type = T_DIR) (· + 1)).mono fun _ s2 h2 => ?_
    refine h2.putDir.bind fun _ s3 h3 => ?_
    exact .created s3 ip c v he.dir he.pos hlt he.free he.missing h3.rep h3.keeps h3.opened

/-- `create` once the new inode is written: its own entries, if it is a directory, and its name. -/
theorem createFill_spec (h : t.Both (update N c (some (Node.blank type major minor))) H dp ip d c s)
    (he : t.Entering N d c v name) (hE : E .igetNoInodes) :
    Wp (do
        if type = T_DIR then
          if (← dirlink ip [dot] (← inode ip).inum) < 0 then createFail dp ip
          else if (← dirlink ip [dot, dot] (← inode dp).inum) < 0 then createFail dp ip
          else createEnter dp ip name type
        else createEnter dp ip name type) E (t.Created N H d name type major minor) s := by
  have hn : t.sb.ninodes ≤ 2 ^ 16 := h.keeps.sb ▸ h.rep.coherent.wf.ninodes_le
  have hclt : c < t.sb.ninodes := by
    rw [← h.keeps.sb, ← h.file.inum]
    exact h.rep.inum_lt h.file.held
  have hdlt : d < t.sb.ninodes := by
    rw [← h.keeps.sb, ← h.dir.inum]
    exact h.rep.inum_lt h.dir.held
  have hmade : type = T_DIR → (Node.made type major minor c d).IsDir t.sb.ninodes := fun hty =>
    Node.made_isDir major minor hty he.pos hclt hdlt hn
  by_cases hty : type = T_DIR
  · rw [if_pos hty]
    have hblank := Node.blank_isDir major minor hty t.sb.ninodes
    simp only [inode, wp_bind, wp_get, wp_pure, h.file.inum]
    refine (dirlink_spec h.rep h.file (update_self _ _ _) (h.keeps.sb ▸ hblank) [dot] c hE).mono
      fun r s1 hr => ?_
    cases hr with
    | refused _ h1 hk1 =>
      rw [if_pos (by decide)]
      exact createFail_spec (h.next h1 hk1) he fun _ => hblank
    | entered _ _ h1 hk1 =>
      have hfirst : freeEntry (entries (Node.blank type major minor).bytes) = 0 := by
        rw [Node.blank, entries_nil]
        rfl
      rw [update_idem, hfirst] at h1
      have hb1 := h.next h1 hk1
      have hdot : ((Node.blank type major minor).setEntry 0 ⟨c, strncpy [dot] DIRSIZ⟩).IsDir
          t.sb.ninodes := hblank.setEntry hn hclt (length_strncpy _ _) (Nat.zero_le _)
      rw [if_neg (by decide)]
      simp only [wp_bind, wp_get, wp_pure, hb1.dir.inum]
      refine (dirlink_spec h1 hb1.file (update_self _ _ _) (hb1.keeps.sb ▸ hdot)
        [dot, dot] d hE).mono fun r s2 hr => ?_
      cases hr with
      | refused _ h2 hk2 =>
        rw [if_pos (by decide)]
        exact createFail_spec (hb1.next h2 hk2) he fun _ => hdot
      | entered _ _ h2 hk2 =>
        rw [if_neg (by decide)]
        rw [update_idem, Node.made_eq major minor hty he.pos (by omega)] at h2
        exact createEnter_spec (hb1.next h2 hk2) he hmade hE
  · rw [if_neg hty]
    rw [← Node.made_of_ne major minor hty] at h
    exact createEnter_spec h he hmade hE

/-- `create` of a name that exists: only files and devices are opened. -/
theorem createExisting_spec (h : s.Rep N (addRef (addRef H dp) ip))
    (hd : s.Opened (addRef (addRef H dp) ip) dp d) (hc : s.Holds (addRef (addRef H dp) ip) ip c)
    (hk : Keeps H t s) (hdirs : N.DirsOk t.sb.ninodes) (hchild : N.child d name = some c)
    (hEn : N.reap (fun x => t.InUse H x ∨ x = c) d c = none → E .ilockNoType) :
    Wp (do
        iunlockput dp
        ilock ip
        let e ← inode ip
        if type = T_FILE ∧ (e.type = T_FILE ∨ e.type = T_DEVICE) then return some ip
        else
          iunlockput ip
          return none) E (t.Created N H d name type major minor) s := by
  rw [addRef_comm] at h hd hc
  refine (iunlockput_reap h hd).bind fun _ s1 ⟨h1, hk1⟩ => ?_
  rw [inUse_addRef hc.inum, hk.inUse_eq] at h1
  refine (ilock_rep h1 ((hc.mono (addRef_pos H ip)).keep hk1) hEn).bind fun _ s2 ⟨hrep2, hk2, hc2⟩ => ?_
  have h2 : t.Has _ H ip c s2 := ⟨hrep2, hc2, hk.trans (hk1.trans hk2).of_addRef⟩
  have hw := hc2.entry hrep2
  have htype : (s2.itable ip).type = (s2.nodeOf (s2.itable ip).toDinode).type := rfl
  simp only [inode, wp_bind, wp_get, wp_pure]
  rw [htype]
  generalize s2.nodeOf (s2.itable ip).toDinode = w at hw
  by_cases hfile : type = T_FILE ∧ (w.type = T_FILE ∨ w.type = T_DEVICE)
  · rw [if_pos hfile, wp_pure]
    exact .existing s2 ip c w hchild hw hfile.1 hfile.2 h2.rep h2.keeps hc2
  · rw [if_neg hfile]
    refine h2.put.bind fun _ s3 hs3 => ?_
    refine .failed s3 _ hs3.1 hs3.2 (hdirs.frees ((Nodes.frees_reap _ _ _).trans
      (Nodes.frees_reap _ _ _))) fun hsafe _ => ?_
    rw [Nodes.reap_of_kept (i := d) fun v hv h0 => Or.inl (hsafe d (Or.inl rfl) v hv h0)]
    exact Nodes.reap_of_kept (hsafe c (Or.inr hchild))

/-- **`create`** in the directory `dp`. -/
theorem createAt_spec (h : s.Rep N (addRef H dp)) (hd : s.Opened (addRef H dp) dp d)
    (hdirs : N.DirsOk s.sb.ninodes) (hv : N d = some v) (ht : v.type = T_DIR) (name : List UInt8)
    (htype : type ≠ 0) (hE : E .igetNoInodes)
    (hEn : ∀ c, N.child d name = some c → N.reap (fun x => s.InUse H x ∨ x = c) d c = none →
      E .ilockNoType) :
    Wp (createAt dp name type major minor) E (s.Created N H d name type major minor) s := by
  rw [createAt]
  refine (ilock_rep h hd.toHolds (by simp [hv])).bind ?_
  rintro _ s1 ⟨h1, hk1, hd1⟩
  have hk : Keeps H s s1 := hk1.of_addRef
  have hdir : v.IsDir s1.sb.ninodes := hk.sb ▸ hdirs d v hv ht
  have hpos : ∀ ip, 0 < addRef (addRef H dp) ip dp := fun ip =>
    lt_of_lt_of_le hd1.held (le_addRef _ _ _)
  refine (dirlookup_spec h1 hd1 hv hdir name hE).bind fun r s2 hr => ?_
  cases hr with
  | found ip k de _ hfind hde hgain =>
    have hchild := Nodes.child_of_find hv ht hfind hde
    exact createExisting_spec hgain.rep ((hd1.keep hgain.keeps).mono (hpos ip)) hgain.holds
      (hk.trans hgain.keeps.of_addRef) hdirs hchild (hEn _ hchild)
  | missing hfind =>
    refine (ialloc_rep h1 htype hE).bind fun r s2 hr => ?_
    obtain ⟨rfl, h2, hk2⟩ | ⟨ip, c, rfl, ha⟩ := hr
    · -- no free inode
      have hs2 : s.Has N H dp d s2 := ⟨h2, hd1.keep hk2, hk.trans hk2.of_addRef⟩
      refine hs2.put.bind fun _ s3 hs3 => ?_
      exact .failed s3 _ hs3.1 hs3.2 (hdirs.frees (Nodes.frees_reap _ _ _)) fun hsafe _ =>
        Nodes.reap_of_kept (hsafe d (Or.inl rfl))
    · refine (ilock_rep ha.rep ⟨addRef_pos _ ip, ha.inum⟩ fun hnone => ?_).bind ?_
      · cases (update_self _ _ _).symm.trans hnone
      · rintro _ s3 ⟨h3, hk3, hc3⟩
        have hb3 : s.Both _ H dp ip d c s3 := ⟨h3, ((hd1.keep ha.keeps).mono (hpos ip)).keep hk3, hc3,
          (hk.trans ha.keeps.of_addRef).trans hk3.of_addRef.of_addRef⟩
        simp only [modifyInode, wp_bind, wp_modify]
        refine (iupdate_rep h3 hc3 (update_self _ _ _)
          (fun e => { e with major := major, minor := minor, nlink := 1 })
          fun _ => ⟨rfl, rfl, rfl, rfl, rfl, rfl⟩).mono ?_
        rintro _ s4 ⟨hk4, h4⟩
        rw [update_idem] at h4
        exact createFill_spec (hb3.next h4 hk4) ⟨hdirs, ha.pos, ha.free, hv, ht, hfind⟩ hE

end Create

/-! ## The system calls -/

/-- A call that fails before it has an effect; `K` says that no node was freed on the way. -/
structure Refused (s : Fs) (N : Nodes) (H : Fin NINODE → ℕ) (K : Prop) (t : Fs) : Prop where
  rep : ∃ N', t.Rep N' H ∧ N.Frees N' ∧ (K → N' = N)
  keeps : Keeps H s t

/-- The walk to the parent directory has led to `d`, and `N'` are the nodes it left. -/
structure Parent (s : Fs) (N : Nodes) (K : Prop) (c : ℕ) (path : List UInt8) (N' : Nodes) (d : ℕ)
    (name : List UInt8) : Prop where
  frees : N.Frees N'
  same : K → N' = N ∧ N.resolve c path true = some (d, name)
  isDir : ∃ v, N' d = some v ∧ v.type = T_DIR

section Calls

variable {K : Prop} {R : Set ℕ}

theorem Unlinked.of_later {r : ℤ} (h : t.Unlinked N H d name r u) (hk : Keeps H s t) :
    s.Unlinked N H d name r u := by
  cases h with
  | refused _ N' hrep hkeeps hfrees hsame =>
    exact .refused u N' hrep (hk.trans hkeeps) hfrees (by rwa [hk.inUse_eq] at hsame)
  | removed _ k c v w hv hw hname hfind hc hkl hlink hempty hrep hkeeps =>
    rw [hk.inUse_eq] at hrep
    exact .removed u k c v w hv hw hname hfind hc hkl hlink hempty hrep (hk.trans hkeeps)

theorem Created.of_later {type major minor : Int16} {r : Option (Fin NINODE)}
    (h : t.Created N H d name type major minor r u) (hk : Keeps H s t) :
    s.Created N H d name type major minor r u := by
  cases h with
  | failed _ N' hrep hkeeps hdirs hsame =>
    exact .failed u N' hrep (hk.trans hkeeps) (hk.sb ▸ hdirs) (by rwa [hk.inUse_eq] at hsame)
  | existing _ ip c w hc hw htype hwt hrep hkeeps hopen =>
    rw [hk.inUse_eq] at hrep hw
    exact .existing u ip c w hc hw htype hwt hrep (hk.trans hkeeps) hopen
  | created _ ip c v hv hpos hlt hfree hfind hrep hkeeps hopen =>
    rw [hk.inUse_eq] at hrep
    exact .created u ip c v hv hpos (hk.sb ▸ hlt) hfree hfind hrep (hk.trans hkeeps) hopen

/-- **`sys_unlink`.** -/
theorem sysUnlink_spec (h : s.Rep N H) (hc : s.Holds H cwd c) (hdirs : N.DirsOk s.sb.ninodes)
    (arg : Option (List UInt8)) (hE : E .igetNoInodes) (hEl : E .unlinkNlink)
    (hEn : ¬ K → E .ilockNoType)
    (hK : K → s.Safe N H R ∧ ∀ path, Nodes.start c path ∈ R)
    (hR : K → ∀ i ∈ R, N i = none → E .ilockNoType) :
    Wp (sysUnlink cwd arg) E (fun r t => (r = -1 ∧ s.Refused N H K t) ∨
      ∃ path N' d name, argstr arg = some path ∧ s.Parent N K c path N' d name ∧
        s.Unlinked N' H d name r t) s := by
  rw [sysUnlink]
  cases argstr arg with
  | none => exact Or.inl ⟨rfl, ⟨N, h, .refl N, fun _ => rfl⟩, Keeps.refl H s⟩
  | some path =>
    simp only [beginOp, wp_bind, wp_modify]
    have hk0 : Keeps H s { s with logged := [] } := Keeps.of_itable rfl rfl
    have h0 : Rep { s with logged := [] } N H := h.congr rfl rfl rfl
    refine (namex_spec h0 (hc.keep hk0) hdirs hE hEn (fun hk =>
      ⟨(hK hk).1.keep hk0, (hK hk).2 path⟩) hR).mono fun r t hr => ?_
    cases hr with
    | failed _ N' hrep hkeeps hfrees hw =>
      refine wp_endOp_return _ (fun u hu hku => ?_) hrep
      exact Or.inl ⟨rfl, ⟨N', hu, hfrees, fun hk => (hw hk).1⟩, (hk0.trans hkeeps).trans hku⟩
    | reached _ N' dp d name hrep hkeeps hfrees _ hdir hw =>
      obtain ⟨hopen, v, hv, ht⟩ := hdir rfl
      have hkt : Keeps H s t := hk0.trans hkeeps
      refine (unlinkAt_spec hrep hopen (hkt.sb ▸ hdirs.frees hfrees) hv ht name hE
        (fun j hj hnone => ?_) (fun _ _ _ _ _ => hEl)).mono fun r u hu => ?_
      · by_cases hk : K
        · rw [(hw hk).1] at hj hnone
          have hd := Nodes.walk_mem (hK hk).1.closed ((hK hk).2 path) (hw hk).2
          exact hR hk j ((hK hk).1.closed d hd name j hj) hnone
        · exact hEn hk
      · exact Or.inr ⟨path, N', d, name, rfl, ⟨hfrees, hw, v, hv, ht⟩, hu.of_later hkt⟩

/-- **`create`.** -/
theorem create_spec (h : s.Rep N H) (hc : s.Holds H cwd c) (hdirs : N.DirsOk s.sb.ninodes)
    (path : List UInt8) {type : Int16} (major minor : Int16) (htype : type ≠ 0)
    (hE : E .igetNoInodes) (hEn : ¬ K → E .ilockNoType)
    (hK : K → s.Safe N H R ∧ ∀ path, Nodes.start c path ∈ R)
    (hR : K → ∀ i ∈ R, N i = none → E .ilockNoType) :
    Wp (create cwd path type major minor) E (fun r t => (r = none ∧ s.Refused N H K t) ∨
      ∃ N' d name, s.Parent N K c path N' d name ∧
        s.Created N' H d name type major minor r t) s := by
  rw [create]
  refine (namex_spec h hc hdirs hE hEn (fun hk => ⟨(hK hk).1, (hK hk).2 path⟩) hR).bind
    fun r t hr => ?_
  cases hr with
  | failed _ N' hrep hkeeps hfrees hw =>
    exact Or.inl ⟨rfl, ⟨N', hrep, hfrees, fun hk => (hw hk).1⟩, hkeeps⟩
  | reached _ N' dp d name hrep hkeeps hfrees _ hdir hw =>
    obtain ⟨hopen, v, hv, ht⟩ := hdir rfl
    refine (createAt_spec hrep hopen (hkeeps.sb ▸ hdirs.frees hfrees) hv ht name htype hE
      (fun j hj hnone => ?_)).mono fun r u hu => ?_
    · by_cases hk : K
      · -- the name leads to a safe inode, which is still there
        obtain ⟨rfl, hwalk⟩ := hw hk
        have hd := Nodes.walk_mem (hK hk).1.closed ((hK hk).2 path) hwalk
        have hj' := (hK hk).1.closed d hd name j hj
        rw [hkeeps.inUse_eq, Nodes.reap_of_kept fun v hv h0 =>
          Or.inl ((hK hk).1.kept d hd v hv h0)] at hnone
        exact hR hk j hj' hnone
      · exact hEn hk
    · exact Or.inr ⟨N', d, name, ⟨hfrees, hw, v, hv, ht⟩, hu.of_later hkeeps⟩

end Calls

end Fs

end Xv6
