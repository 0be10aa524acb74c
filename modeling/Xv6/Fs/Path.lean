import Xv6.Fs.Entries

/-! # Path lookup

`namex` walks a path element by element, holding one reference at a time. On the nodes this is
`Nodes.walk`. The reference it drops on the way may be the last one to a node without links, which
is then freed under the walker's feet; where every node on the way has a link or is in use by
somebody else (`Fs.Safe`), the nodes stay as they are and the walk is the function `Nodes.walk`. -/

namespace Xv6

/-! ## Paths and nodes -/

theorem head_dropWhile {p : UInt8 → Bool} {a : UInt8} {l path : List UInt8} (h : path.dropWhile p = a :: l) :
    p a = false := by
  have := List.head_dropWhile_not p (l := path) (by rw [h]; simp)
  simpa [h] using this

/-- The element is a run of bytes other than `/`; what is left is after it and its slashes. -/
theorem skipelem_split {path name rest : List UInt8} (h : skipelem path = some (name, rest)) :
    ∃ run tail, path.dropWhile (· = slash) = run ++ tail ∧ run ≠ [] ∧ (∀ a ∈ run, a ≠ slash) ∧
      (tail = [] ∨ ∃ l, tail = slash :: l) ∧ name = run.take DIRSIZ ∧ rest = tail.dropWhile (· = slash) := by
  unfold skipelem at h
  cases hs : path.dropWhile (· = slash) with
  | nil =>
    rw [hs] at h
    cases h
  | cons a l =>
    rw [hs] at h
    obtain ⟨rfl, rfl⟩ := Prod.mk.inj (Option.some.inj h)
    refine ⟨_, _, List.takeWhile_append_dropWhile.symm, ?_, fun b hb => ?_, ?_, rfl, rfl⟩
    · rw [List.takeWhile_cons_of_pos (by simpa using head_dropWhile hs)]
      nofun
    · simpa using List.mem_takeWhile_imp hb
    · cases ht : (a :: l).dropWhile (· ≠ slash) with
      | nil => exact .inl rfl
      | cons b l' => exact .inr ⟨l', by rw [show b = slash by simpa using head_dropWhile ht]⟩

/-- Every round of `namex` consumes some of the path. -/
theorem skipelem_length {path name rest : List UInt8} (h : skipelem path = some (name, rest)) :
    rest.length < path.length := by
  obtain ⟨run, tail, hsplit, hne, -, -, -, rfl⟩ := skipelem_split h
  have hpath := (List.dropWhile_sublist (fun a : UInt8 => decide (a = slash)) (l := path)).length_le
  have htail := (List.dropWhile_sublist (fun a : UInt8 => decide (a = slash)) (l := tail)).length_le
  have hrun := List.length_pos_iff.mpr hne
  rw [hsplit, List.length_append] at hpath
  omega

namespace Nodes

/-- The inode a name in directory `i` leads to. -/
def child (N : Nodes) (i : ℕ) (name : List UInt8) : Option ℕ :=
  (N i).bind fun v => if v.type = T_DIR then
    (findEntry (entries v.bytes) name).map fun k => (entryAt v.bytes k).inum else none

/-- The loop of `namex` on the nodes. -/
def walk (N : Nodes) (parent : Bool) : ℕ → ℕ → List UInt8 → Option (ℕ × List UInt8)
  | 0, _, _ => none
  | rounds + 1, i, path =>
    match skipelem path with
    | none => if parent then none else some (i, [])
    | some (name, path) =>
      match N i with
      | none => none
      | some v =>
        if v.type ≠ T_DIR then none
        else if parent ∧ path = [] then some (i, name)
        else (N.child i name).bind fun j => walk N parent rounds j path

/-- The inode at which a path starts, with the current directory `cwd`. -/
def start (cwd : ℕ) (path : List UInt8) : ℕ := if path.head? = some slash then ROOTINO else cwd

/-- `namex` on the nodes. -/
def resolve (N : Nodes) (cwd : ℕ) (path : List UInt8) (parent : Bool) : Option (ℕ × List UInt8) :=
  N.walk parent (path.length + 1) (start cwd path) path

/-- Directories are well formed. -/
def DirsOk (N : Nodes) (n : ℕ) : Prop := ∀ i v, N i = some v → v.type = T_DIR → v.IsDir n

/-- Some nodes without links were freed. -/
def Frees (N N' : Nodes) : Prop :=
  ∀ i, N' i = N i ∨ N' i = none ∧ ∃ v, N i = some v ∧ v.nlink = 0

variable {N N' N'' : Nodes} {i n : ℕ}

theorem Frees.refl (N : Nodes) : N.Frees N := fun _ => Or.inl rfl

theorem Frees.trans (h : N.Frees N') (h' : N'.Frees N'') : N.Frees N'' := by
  intro i
  rcases h i with h1 | ⟨h1, hv⟩ <;> rcases h' i with h2 | ⟨h2, v, hv', h0⟩
  · exact Or.inl (h2.trans h1)
  · exact Or.inr ⟨h2, v, h1 ▸ hv', h0⟩
  · exact Or.inr ⟨h2.trans h1, hv⟩
  · rw [h1] at hv'
    cases hv'

theorem Frees.apply (h : N.Frees N') {v : Node} (hv : N' i = some v) : N i = some v := by
  rcases h i with h1 | ⟨h1, -⟩
  · rw [← h1, hv]
  · rw [h1] at hv
    cases hv

theorem Frees.remove {v : Node} (hv : N i = some v) (h0 : v.nlink = 0) :
    N.Frees (Function.update N i none) := by
  intro j
  rcases eq_or_ne j i with rfl | hj
  · exact Or.inr ⟨Function.update_self _ _ _, v, hv, h0⟩
  · exact Or.inl (Function.update_of_ne hj _ _)

theorem DirsOk.frees (h : N.DirsOk n) (hf : N.Frees N') : N'.DirsOk n :=
  fun i v hv => h i v (hf.apply hv)

theorem child_of_find {v : Node} {name : List UInt8} {k : ℕ} {de : Dirent} (hv : N i = some v)
    (ht : v.type = T_DIR) (hfind : findEntry (entries v.bytes) name = some k)
    (hde : (entries v.bytes)[k]? = some de) : N.child i name = some de.inum := by
  have hk : k < v.bytes.length / DIRENT := by
    rw [← length_entries]
    exact (List.getElem?_eq_some_iff.mp hde).1
  rw [entries_getElem? hk] at hde
  simp [child, hv, ht, hfind, Option.some.inj hde]

theorem child_of_missing {v : Node} {name : List UInt8} (hv : N i = some v) (ht : v.type = T_DIR)
    (hfind : findEntry (entries v.bytes) name = none) : N.child i name = none := by
  simp [child, hv, ht, hfind]

/-- A walk does not leave a set of inodes that is closed under lookup. -/
theorem walk_mem {R : Set ℕ} (hclosed : ∀ i ∈ R, ∀ name j, N.child i name = some j → j ∈ R)
    {parent : Bool} {rounds j : ℕ} {path name : List UInt8} (hi : i ∈ R)
    (hw : N.walk parent rounds i path = some (j, name)) : j ∈ R := by
  induction rounds generalizing i path with
  | zero => cases hw
  | succ rounds ih =>
    rw [walk] at hw
    cases hskip : skipelem path with
    | none =>
      cases parent with
      | false => simp_all
      | true => simp [hskip] at hw
    | some p =>
      rw [hskip] at hw
      cases hv : N i with
      | none => simp [hv] at hw
      | some v =>
        simp only [hv] at hw
        split at hw
        · cases hw
        · split at hw
          · simp_all
          · obtain ⟨k, hk, hw⟩ := Option.bind_eq_some_iff.mp hw
            exact ih (hclosed i hi _ k hk) hw

end Nodes

namespace Fs

variable {s t u : Fs} {H : Fin NINODE → ℕ} {E : Panic → Prop} {N N' : Nodes} {cwd ip jp : Fin NINODE}
  {i j k rounds : ℕ} {v : Node} {R : Set ℕ} {K : Prop} {path name : List UInt8} {parent : Bool}

/-- The inodes in use. -/
def InUse (s : Fs) (H : Fin NINODE → ℕ) (i : ℕ) : Prop := ∃ ip, 0 < H ip ∧ (s.itable ip).inum = i

theorem Keeps.inUse_iff (hk : Keeps H s t) : t.InUse H i ↔ s.InUse H i := by
  constructor <;> rintro ⟨ip, hip, rfl⟩
  · exact ⟨ip, hip, (hk.inum ip hip).symm⟩
  · exact ⟨ip, hip, hk.inum ip hip⟩

/-- A set of inodes that path lookup does not leave and in which it frees nothing. -/
structure Safe (s : Fs) (N : Nodes) (H : Fin NINODE → ℕ) (R : Set ℕ) : Prop where
  closed : ∀ i ∈ R, ∀ name j, N.child i name = some j → j ∈ R
  kept : ∀ i ∈ R, ∀ v, N i = some v → v.nlink = 0 → s.InUse H i

theorem Safe.keep (h : s.Safe N H R) (hk : Keeps H s t) : t.Safe N H R :=
  ⟨h.closed, fun i hi v hv h0 => hk.inUse_iff.mpr (h.kept i hi v hv h0)⟩

theorem putNodes_frees (h : s.Rep N H) (hip : 0 < H ip) : N.Frees (s.putNodes N H ip) := by
  by_cases hfree : H ip = 1 ∧ (s.itable ip).valid = true ∧ (s.itable ip).nlink = 0
  · rw [putNodes, if_pos hfree]
    exact Nodes.Frees.remove (h.entry hip hfree.2.1) hfree.2.2
  · rw [putNodes, if_neg hfree]
    exact .refl N

/-- Dropping a reference to an inode in a safe set frees nothing. -/
theorem Safe.putNodes_eq (hs : s.Safe N H R) {H' : Fin NINODE → ℕ} (h : s.Rep N H')
    (hle : ∀ jp, H jp ≤ H' jp) (hlt : H ip < H' ip) (hi : (s.itable ip).inum ∈ R) :
    s.putNodes N H' ip = N := by
  rw [putNodes, if_neg]
  rintro ⟨hone, hvalid, h0⟩
  obtain ⟨jp, hjp, hinum⟩ := hs.kept _ hi _ (h.entry (by omega) hvalid) h0
  have hjp' : 0 < H' jp := lt_of_lt_of_le hjp (hle jp)
  obtain rfl := h.inum_inj hjp' (by omega) hinum
  omega

theorem dropRef_addRef_addRef (H : Fin NINODE → ℕ) (ip jp : Fin NINODE) :
    dropRef (addRef (addRef H ip) jp) ip = addRef H jp := by
  funext kp
  simp only [dropRef_apply, addRef_apply]
  by_cases h1 : kp = ip <;> by_cases h2 : kp = jp
  · subst h1 h2
    simp
  · subst h1
    simp [h2]
  · subst h2
    simp [h1]
  · simp [h1, h2]

/-- What a walk ends in: failure without a reference, or a reference to inode `j`, which is a
directory that was read if the parent is asked for. If `K` holds nothing was freed and the result
is `w`. -/
inductive Walked (s : Fs) (N : Nodes) (H : Fin NINODE → ℕ) (K : Prop) (parent : Bool)
    (w : Option (ℕ × List UInt8)) : Option (Fin NINODE × List UInt8) → Fs → Prop
  | failed (t : Fs) (N' : Nodes) (hrep : t.Rep N' H) (hkeeps : Keeps H s t) (hfrees : N.Frees N')
      (hw : K → N' = N ∧ w = none) : Walked s N H K parent w none t
  | reached (t : Fs) (N' : Nodes) (jp : Fin NINODE) (j : ℕ) (name : List UInt8)
      (hrep : t.Rep N' (addRef H jp)) (hkeeps : Keeps H s t) (hfrees : N.Frees N')
      (holds : t.Holds (addRef H jp) jp j)
      (hdir : parent = true → t.Opened (addRef H jp) jp j ∧ ∃ v, N' j = some v ∧ v.type = T_DIR)
      (hw : K → N' = N ∧ w = some (j, name)) : Walked s N H K parent w (some (jp, name)) t

/-- A walk that goes on from a later state. -/
theorem Walked.of_later {w w' : Option (ℕ × List UInt8)} {r : Option (Fin NINODE × List UInt8)}
    (h : t.Walked N' H K parent w' r u) (hk : Keeps H s t) (hf : N.Frees N')
    (hK : K → N' = N ∧ w' = w) : s.Walked N H K parent w r u := by
  cases h with
  | failed _ N'' hrep hkeeps hfrees hw =>
    refine .failed u N'' hrep (hk.trans hkeeps) (hf.trans hfrees) fun hk' => ?_
    exact ⟨(hw hk').1.trans (hK hk').1, (hK hk').2 ▸ (hw hk').2⟩
  | reached _ N'' jp j name hrep hkeeps hfrees holds hdir hw =>
    refine .reached u N'' jp j name hrep (hk.trans hkeeps) (hf.trans hfrees) holds hdir
      fun hk' => ?_
    exact ⟨(hw hk').1.trans (hK hk').1, (hK hk').2 ▸ (hw hk').2⟩

/-- The end of a walk that fails after the directory was read: the reference is dropped. -/
theorem wp_walk_fail {w : Option (ℕ × List UInt8)} (h : s.Rep N (addRef H ip))
    (hk : Keeps H t s) (hi : (s.itable ip).inum = i) (hK : K → s.Safe N H R ∧ i ∈ R)
    (hw : K → w = none) (x : FsM Unit)
    (hx : Wp x E (fun _ u => u.Rep (s.putNodes N (addRef H ip) ip) (dropRef (addRef H ip) ip) ∧
      Keeps (dropRef (addRef H ip) ip) s u) s) :
    Wp (do
      x
      return none : FsM (Option (Fin NINODE × List UInt8))) E (t.Walked N H K parent w) s := by
  have hip : 0 < addRef H ip ip := by
    rw [addRef_self]
    omega
  rw [wp_bind]
  refine hx.mono fun _ u hu => ?_
  rw [dropRef_addRef] at hu
  refine .failed u _ hu.1 (hk.trans hu.2) (putNodes_frees h hip) fun hk' => ⟨?_, hw hk'⟩
  exact (hK hk').1.putNodes_eq h (le_addRef H ip) (by rw [addRef_self]; omega)
    (hi ▸ (hK hk').2)

/-- **The loop of `namex`.** -/
theorem namexLoop_spec (h : s.Rep N (addRef H ip)) (ho : s.Holds (addRef H ip) ip i)
    (hdirs : N.DirsOk s.sb.ninodes) (hE : E .igetNoInodes) (hEn : ¬ K → E .ilockNoType)
    (hK : K → s.Safe N H R ∧ i ∈ R) (hR : K → ∀ i ∈ R, N i = none → E .ilockNoType)
    (hlen : path.length < rounds) :
    Wp (namexLoop parent rounds ip path) E (s.Walked N H K parent (N.walk parent rounds i path))
      s := by
  induction rounds generalizing s N ip i path with
  | zero => omega
  | succ rounds ih =>
    have hip : 0 < addRef H ip ip := ho.held
    rw [namexLoop]
    cases hskip : skipelem path with
    | none =>
      cases parent with
      | false =>
        refine .reached s N ip i [] h (Keeps.refl H s) (.refl N) ho (fun hc => nomatch hc)
          fun _ => ⟨rfl, ?_⟩
        simp [Nodes.walk, hskip]
      | true =>
        exact wp_walk_fail h (Keeps.refl H s) ho.inum hK
          (fun _ => by simp [Nodes.walk, hskip]) _ (iput_rep h hip)
    | some p =>
      obtain ⟨name, rest⟩ := p
      have hrest := skipelem_length hskip
      show Wp _ _ _ _
      simp only [wp_bind]
      have hnoType : N i = none → E .ilockNoType := fun hnone => by
        by_cases hk : K
        · exact hR hk i (hK hk).2 hnone
        · exact hEn hk
      refine (ilock_rep h ho hnoType).mono fun _ t ⟨hrep, hkeeps, hopen⟩ => ?_
      have hkt : Keeps H s t := hkeeps.of_addRef
      have hKt : K → t.Safe N H R ∧ i ∈ R := fun hk => ⟨(hK hk).1.keep hkt, (hK hk).2⟩
      have hv := hopen.entry hrep
      have htype : (t.itable ip).type = (t.nodeOf (t.itable ip).toDinode).type := rfl
      simp only [inode, wp_bind, wp_get, wp_pure]
      rw [htype]
      generalize t.nodeOf (t.itable ip).toDinode = v at hv
      by_cases hdir : v.type = T_DIR
      · rw [if_neg (not_not.mpr hdir)]
        by_cases hlast : parent ∧ rest = []
        · -- stop one level early
          rw [if_pos hlast]
          refine (iunlock_rep hrep hip).bind fun _ u hu => ?_
          subst hu
          refine .reached u N ip i name hrep hkt (.refl N) hopen.toHolds
            (fun _ => ⟨hopen, v, hv, hdir⟩) fun _ => ⟨rfl, ?_⟩
          simp only [Nodes.walk, hskip, hv]
          rw [if_neg (not_not.mpr hdir), if_pos hlast]
        · rw [if_neg hlast, wp_bind]
          have hwalk : N.walk parent (rounds + 1) i path =
              (N.child i name).bind fun j => N.walk parent rounds j rest := by
            simp only [Nodes.walk, hskip, hv]
            rw [if_neg (not_not.mpr hdir), if_neg hlast]
          have hisdir : v.IsDir t.sb.ninodes := hkt.sb ▸ hdirs i v hv hdir
          refine (dirlookup_spec hrep hopen hv hisdir name hE).mono fun r u hr => ?_
          cases hr with
          | missing hfind =>
            refine wp_walk_fail hrep hkt hopen.inum hKt (fun _ => ?_) _
              (iunlockput_rep hrep hip)
            rw [hwalk, Nodes.child_of_missing hv hdir hfind]
            rfl
          | found next k de _ hfind hde hgain =>
            have hchild := Nodes.child_of_find hv hdir hfind hde
            have hpos : 0 < addRef (addRef H ip) next ip :=
              lt_of_lt_of_le hip (le_addRef _ _ _)
            refine (iunlockput_rep hgain.rep hpos).bind fun _ w hw => ?_
            rw [dropRef_addRef_addRef] at hw
            obtain ⟨hrepw, hkeepsw⟩ := hw
            have hku : Keeps H t u := hgain.keeps.of_addRef
            have hkw : Keeps H s w := (hkt.trans hku).trans hkeepsw.of_addRef
            have hinum : (u.itable ip).inum = i :=
              (hgain.keeps.inum ip hip).trans hopen.inum
            have hfrees := putNodes_frees hgain.rep hpos
            -- where the walk is safe nothing is freed, and it stays safe
            have hsame : K → u.putNodes N (addRef (addRef H ip) next) ip = N := fun hk => by
              refine ((hKt hk).1.keep hku).putNodes_eq hgain.rep (fun jp =>
                (le_addRef H ip jp).trans (le_addRef _ next jp)) ?_ (hinum ▸ (hKt hk).2)
              have := le_addRef (addRef H ip) next ip
              rw [addRef_self] at this
              omega
            have hnext : w.Holds (addRef H next) next de.inum :=
              ⟨by rw [addRef_self]; omega,
                (hkeepsw.inum next (by rw [addRef_self]; omega)).trans hgain.inum⟩
            refine (ih hrepw hnext (hkw.sb ▸ hdirs.frees hfrees) (fun hk => ?_)
              (fun hk => ?_) (by omega)).mono fun r x hx => ?_
            · rw [hsame hk]
              exact ⟨(hK hk).1.keep hkw, (hK hk).1.closed i (hK hk).2 name _ hchild⟩
            · rw [hsame hk]
              exact hR hk
            · refine hx.of_later hkw hfrees fun hk => ⟨hsame hk, ?_⟩
              rw [hsame hk, hwalk, hchild]
              rfl
      · rw [if_pos hdir]
        refine wp_walk_fail hrep hkt hopen.inum hKt (fun _ => ?_) _ (iunlockput_rep hrep hip)
        simp [Nodes.walk, hskip, hv, hdir]

/-- **`namex`** walks the path from the root or the current directory. -/
theorem namex_spec {c : ℕ} (h : s.Rep N H) (hc : s.Holds H cwd c) (hdirs : N.DirsOk s.sb.ninodes)
    (hE : E .igetNoInodes) (hEn : ¬ K → E .ilockNoType)
    (hK : K → s.Safe N H R ∧ Nodes.start c path ∈ R)
    (hR : K → ∀ i ∈ R, N i = none → E .ilockNoType) :
    Wp (namex cwd path parent) E (s.Walked N H K parent (N.resolve c path parent)) s := by
  -- the walk from an inode that was just got
  have hloop : ∀ ip t, s.Gains N H ip (Nodes.start c path) t →
      Wp (namexLoop parent (path.length + 1) ip path) E
        (s.Walked N H K parent (N.resolve c path parent)) t := by
    intro ip t hg
    refine (namexLoop_spec hg.rep hg.holds (hg.keeps.sb ▸ hdirs) hE hEn (fun hk =>
      ⟨(hK hk).1.keep hg.keeps, (hK hk).2⟩) hR (Nat.lt_succ_self _)).mono fun r u hu => ?_
    exact hu.of_later hg.keeps (.refl N) fun _ => ⟨rfl, rfl⟩
  rw [namex]
  by_cases habs : path.head? = some slash
  · rw [if_pos habs, wp_bind]
    rw [Nodes.start, if_pos habs] at hloop
    exact (iget_rep h h.coherent.wf.root_lt hE).mono hloop
  · rw [if_neg habs, wp_bind]
    rw [Nodes.start, if_neg habs] at hloop
    refine (idup_rep h hc).mono fun ip t ht => ?_
    obtain ⟨rfl, hg⟩ := ht
    exact hloop ip t hg

end Fs

end Xv6
