import Xv6.Fs.Namespace

/-! # System calls where path lookup is safe

The specifications of the name space calls where every inode a path can lead to has a link or is in
use (`Fs.Ready`): the walk frees nothing on the way, a call that fails leaves the nodes as they were,
and one that succeeds has exactly the effect it is for. -/

namespace Xv6

open Function

namespace Nodes

variable {N N' : Nodes} {d i j n : ℕ} {v : Node} {name path : List UInt8} {parent : Bool}

/-- Lookup reads only types and bytes. -/
theorem child_congr (h : ∀ j, (N' j).map (fun v => (v.type, v.bytes)) =
    (N j).map fun v => (v.type, v.bytes)) (i : ℕ) (name : List UInt8) :
    N'.child i name = N.child i name := by
  have hi := h i
  cases hv : N i with
  | none =>
    rw [hv, Option.map_none, Option.map_eq_none_iff] at hi
    rw [child, child, hi, hv]
  | some v =>
    rw [hv, Option.map_some, Option.map_eq_some_iff] at hi
    obtain ⟨w, hw, heq⟩ := hi
    obtain ⟨ht, hb⟩ := Prod.mk.inj heq
    rw [child, child, hw, hv, Option.bind_some, Option.bind_some, ht, hb]

theorem walk_congr (h : ∀ j, (N' j).map (fun v => (v.type, v.bytes)) =
    (N j).map fun v => (v.type, v.bytes)) (rounds i : ℕ) (path : List UInt8) :
    N'.walk parent rounds i path = N.walk parent rounds i path := by
  induction rounds generalizing i path with
  | zero => rfl
  | succ rounds ih =>
    rw [walk, walk]
    cases skipelem path with
    | none => rfl
    | some p =>
      simp only [child_congr h, ih]
      have hi := h i
      cases hv : N i with
      | none =>
        rw [hv, Option.map_none, Option.map_eq_none_iff] at hi
        rw [hi]
      | some v =>
        rw [hv, Option.map_some, Option.map_eq_some_iff] at hi
        obtain ⟨w, hw, heq⟩ := hi
        obtain ⟨ht, -⟩ := Prod.mk.inj heq
        simp only [hw, ht]

/-- A change of the link count is not seen by lookup. -/
theorem modify_nlink_congr (N : Nodes) (i : ℕ) (f : Node → Node)
    (hf : ∀ v, (f v).type = v.type ∧ (f v).bytes = v.bytes) (j : ℕ) :
    (N.modify i f j).map (fun v => (v.type, v.bytes)) = (N j).map fun v => (v.type, v.bytes) := by
  rcases eq_or_ne j i with rfl | hj
  · rw [modify_self, Option.map_map]
    congr 1
    funext v
    simp only [comp_apply, (hf v).1, (hf v).2]
  · rw [modify_of_ne _ _ hj]

end Nodes

namespace Fs

variable {s t u : Fs} {H : Fin NINODE → ℕ} {E : Panic → Prop} {N N' : Nodes} {R : Set ℕ}
  {cwd dp ip jp : Fin NINODE} {c d i j k : ℕ} {v w : Node} {path name : List UInt8} {parent : Bool}

/-- A process in directory `c` may look up paths: they stay in the set `R` of inodes that have a
link or are in use, and an inode of `R` that is not allocated is an error `E` allows. -/
structure Ready (s : Fs) (N : Nodes) (H : Fin NINODE → ℕ) (R : Set ℕ) (E : Panic → Prop)
    (cwd : Fin NINODE) (c : ℕ) : Prop where
  rep : s.Rep N H
  holds : s.Holds H cwd c
  dirs : N.DirsOk s.sb.ninodes
  safe : s.Safe N H R
  start : ∀ path, Nodes.start c path ∈ R
  alloc : ∀ i ∈ R, N i = none → E .ilockNoType
  used : ∀ i, s.InUse H i → ∃ v, N i = some v
  noInodes : E .igetNoInodes

/-- The walk fails and changes nothing, or gives a reference to the inode the path resolves to. -/
inductive Found (s : Fs) (N : Nodes) (H : Fin NINODE → ℕ) (R : Set ℕ) (c : ℕ) (path : List UInt8)
    (parent : Bool) : Option (Fin NINODE × List UInt8) → Fs → Prop
  | failed (t : Fs) (hrep : t.Rep N H) (hkeeps : Keeps H s t) : Found s N H R c path parent none t
  | reached (t : Fs) (jp : Fin NINODE) (j : ℕ) (name : List UInt8) (hrep : t.Rep N (addRef H jp))
      (hkeeps : Keeps H s t) (holds : t.Holds (addRef H jp) jp j) (hj : j ∈ R)
      (hres : N.resolve c path parent = some (j, name))
      (hdir : parent = true → t.Opened (addRef H jp) jp j ∧ ∃ v, N j = some v ∧ v.type = T_DIR) :
      Found s N H R c path parent (some (jp, name)) t

/-- **`namex`** where it is safe. -/
theorem Ready.namex (h : s.Ready N H R E cwd c) (path : List UInt8) (parent : Bool) :
    Wp (namex cwd path parent) E (s.Found N H R c path parent) s := by
  refine (namex_spec (K := True) h.rep h.holds h.dirs h.noInodes (fun hk => absurd trivial hk)
    (fun _ => ⟨h.safe, h.start path⟩) fun _ => h.alloc).mono fun r t hr => ?_
  cases hr with
  | failed _ N' hrep hkeeps _ hw =>
    obtain ⟨rfl, -⟩ := hw trivial
    exact .failed t hrep hkeeps
  | reached _ N' jp j name hrep hkeeps _ holds hdir hw =>
    obtain ⟨rfl, hres⟩ := hw trivial
    exact .reached t jp j name hrep hkeeps holds
      (Nodes.walk_mem h.safe.closed (h.start path) hres) hres hdir

theorem Ready.namei (h : s.Ready N H R E cwd c) (path : List UInt8) :
    Wp (namei cwd path) E
      (fun r t => ∃ r', r = r'.map Prod.fst ∧ s.Found N H R c path false r' t) s := by
  rw [Xv6.namei, wp_bind]
  exact (h.namex path false).mono fun r t hr => ⟨r, rfl, hr⟩

/-- Nothing seen from outside changes at the start of a transaction. -/
theorem Ready.keep (h : s.Ready N H R E cwd c) (hrep : t.Rep N H) (hk : Keeps H s t) :
    t.Ready N H R E cwd c :=
  ⟨hrep, h.holds.keep hk, hk.sb ▸ h.dirs, h.safe.keep hk, h.start, h.alloc,
    fun i hi => h.used i (hk.inUse_iff.mp hi), h.noInodes⟩

theorem Ready.logged (h : s.Ready N H R E cwd c) (l : List ℕ) :
    Ready { s with logged := l } N H R E cwd c :=
  h.keep (h.rep.congr rfl rfl rfl) (.of_itable rfl rfl)

/-! ## `sys_link` -/

/-- A reference to inode `i`, whose link count was raised, keeps lookup safe. -/
theorem Ready.addLink (h : s.Ready N H R E cwd c) (hrep : t.Rep (N.modify i Node.addLink) (addRef H ip))
    (hk : Keeps H s t) (hi : t.Holds (addRef H ip) ip i) (hw : N i = some w) (ht : w.type ≠ T_DIR) :
    t.Ready (N.modify i Node.addLink) (addRef H ip) R E cwd c := by
  have hcongr := N.modify_nlink_congr i Node.addLink fun _ => ⟨rfl, rfl⟩
  have huse := hk.inUse_eq ▸ inUse_addRef (H := H) hi.inum
  have hpos : 0 < addRef H ip cwd := lt_of_lt_of_le h.holds.held (le_addRef _ _ _)
  refine ⟨hrep, (h.holds.keep hk).mono hpos, ?_, ⟨?_, ?_⟩, h.start, ?_, ?_, h.noInodes⟩
  · rw [hk.sb]
    refine h.dirs.modify fun v hv hvt => ?_
    obtain rfl := Option.some.inj (hw.symm.trans hv)
    exact absurd hvt ht
  · intro j hj name k hchild
    rw [Nodes.child_congr hcongr] at hchild
    exact h.safe.closed j hj name k hchild
  · intro j hj v hv h0
    rw [huse]
    by_cases hji : j = i
    · exact Or.inr hji
    · rw [Nodes.modify_of_ne _ _ hji] at hv
      exact Or.inl (h.safe.kept j hj v hv h0)
  · intro j hj hnone
    rcases eq_or_ne j i with rfl | hji
    · rw [Nodes.modify_self, hw] at hnone
      cases hnone
    · exact h.alloc j hj (Nodes.modify_of_ne N _ hji ▸ hnone)
  · intro j hj
    rcases eq_or_ne j i with rfl | hji
    · exact ⟨w.addLink, by rw [Nodes.modify_self, hw, Option.map_some]⟩
    · rw [Nodes.modify_of_ne _ _ hji]
      rw [huse] at hj
      exact h.used j (hj.resolve_right hji)

/-- What `sys_link` does: nothing, or it enters the file `i` in directory `d`. -/
inductive HardLinked (s : Fs) (N : Nodes) (H : Fin NINODE → ℕ) (R : Set ℕ) (c : ℕ)
    (oldArg newArg : Option (List UInt8)) : ℤ → Fs → Prop
  | refused (t : Fs) (hrep : t.Rep N H) (hkeeps : Keeps H s t) :
      HardLinked s N H R c oldArg newArg (-1) t
  | linked (t : Fs) (old new empty name : List UInt8) (i d : ℕ) (w v : Node)
      (hold : argstr oldArg = some old) (hnew : argstr newArg = some new)
      (hi : N.resolve c old false = some (i, empty)) (hd : N.resolve c new true = some (d, name))
      (hiR : i ∈ R) (hdR : d ∈ R) (hw : N i = some w) (hwt : w.type ≠ T_DIR) (hv : N d = some v)
      (ht : v.type = T_DIR) (hfind : findEntry (entries v.bytes) name = none)
      (hrep : t.Rep ((N.linked d i name).reap (s.InUse H) i) H) (hkeeps : Keeps H s t) :
      HardLinked s N H R c oldArg newArg 0 t

/-- The error path of `sys_link` takes the link back. -/
theorem linkBad_spec (h : s.Rep (N.modify i Node.addLink) (addRef H ip))
    (hi : s.Opened (addRef H ip) ip i) (hkept : ∀ v, N i = some v → v.nlink = 0 → s.InUse H i) :
    Wp (linkBad ip) E (fun r t => r = -1 ∧ t.Rep N H ∧ Keeps H s t) s := by
  rw [linkBad, wp_bind]
  have hsome : N.modify i Node.addLink i = none → E .ilockNoType := fun hnone => by
    rw [hi.entry h] at hnone
    cases hnone
  refine (ilock_rep h hi.toHolds hsome).mono ?_
  rintro _ s1 ⟨h1, hk1, hi1⟩
  simp only [modifyInode, wp_bind, wp_modify]
  refine (setLinks_rep h1 hi1 (· - 1)).mono ?_
  rintro _ s2 ⟨hk2, h2⟩
  -- adding one and taking it away cancel, whatever the count is
  have hback : (N.modify i Node.addLink).modify i (fun v => { v with nlink := v.nlink - 1 }) = N := by
    rw [Nodes.modify_modify, Nodes.modify]
    have : (fun v : Node => { v.addLink with nlink := v.addLink.nlink - 1 }) = id := by
      funext v
      simp only [Node.addLink, Int16.add_sub_cancel, id]
    rw [this, Option.map_id, id, update_eq_self]
  rw [hback] at h2
  have hk : Keeps H s s2 := hk1.of_addRef.trans hk2.of_addRef
  refine (iunlockput_reap h2 (hi1.keep hk2)).bind fun _ s3 hs3 => ?_
  rw [hk.inUse_eq, Nodes.reap_of_kept hkept] at hs3
  exact wp_endOp_return _ (fun t ht hkt => ⟨rfl, ht, (hk.trans hs3.2).trans hkt⟩) hs3.1

/-- `sys_link` once the link count of the file is raised. -/
theorem linkEnter_spec (h : s.Ready N H R E cwd c)
    (hrep : t.Rep (N.modify i Node.addLink) (addRef H ip)) (hk : Keeps H s t)
    (hi : t.Opened (addRef H ip) ip i) (hiR : i ∈ R) (hw : N i = some w) (hwt : w.type ≠ T_DIR)
    {oldArg newArg : Option (List UInt8)} {old new empty : List UInt8} (hold : argstr oldArg = some old)
    (hnew : argstr newArg = some new) (hres : N.resolve c old false = some (i, empty)) :
    Wp (do
        match ← nameiparent cwd new with
        | none => linkBad ip
        | some (dp, name) =>
          ilock dp
          if (← dirlink dp name (← inode ip).inum) < 0 then
            iunlockput dp
            linkBad ip
          else
            iunlockput dp
            iput ip
            endOp
            return 0) E (s.HardLinked N H R c oldArg newArg) t := by
  have hready := h.addLink hrep hk hi.toHolds hw hwt
  have hcongr := N.modify_nlink_congr i Node.addLink fun _ => ⟨rfl, rfl⟩
  have hkept : ∀ {t : Fs}, Keeps H s t → ∀ v, N i = some v → v.nlink = 0 → t.InUse H i :=
    fun hk v hv h0 => hk.inUse_iff.mpr (h.safe.kept i hiR v hv h0)
  refine (hready.namex new true).bind fun r s1 hr => ?_
  cases hr with
  | failed _ h1 hk1 =>
    have hk1' : Keeps H s s1 := hk.trans hk1.of_addRef
    refine (linkBad_spec h1 (hi.keep hk1) (hkept hk1')).mono fun r u hu => ?_
    obtain ⟨rfl, hu, hku⟩ := hu
    exact .refused u hu (hk1'.trans hku)
  | reached _ dp d name h1 hk1 _ hdR hd hdir =>
    obtain ⟨hopen, v, hv, ht⟩ := hdir rfl
    rw [Nodes.resolve, Nodes.walk_congr hcongr] at hd
    have hdi : d ≠ i := by
      rintro rfl
      rw [Nodes.modify_self, hw, Option.map_some] at hv
      cases hv
      exact hwt ht
    have hv0 : N d = some v := Nodes.modify_of_ne N _ hdi ▸ hv
    refine (ilock_rep h1 hopen.toHolds (fun hnone => by rw [hv] at hnone; cases hnone)).bind
      fun _ s2 ⟨h2, hk2, hopen2⟩ => ?_
    have hpos : 0 < addRef (addRef H ip) dp ip := lt_of_lt_of_le hi.held (le_addRef _ _ _)
    have hk02 : Keeps (addRef H ip) t s2 := hk1.trans hk2.of_addRef
    have hi2 : s2.Opened (addRef (addRef H ip) dp) ip i := (hi.keep hk02).mono hpos
    simp only [inode, wp_bind, wp_get, wp_pure, hi2.inum]
    have hisDir : v.IsDir s2.sb.ninodes := hk02.sb ▸ hready.dirs d v hv ht
    refine (dirlink_spec h2 hopen2 hv hisDir name i h.noInodes).mono fun r s3 hr => ?_
    -- dropping the directory frees nothing
    have hput : ∀ {s3 : Fs} {N' : Nodes} {v' : Node}, s3.Rep N' (addRef (addRef H ip) dp) →
        Keeps (addRef (addRef H ip) dp) s2 s3 → N' d = some v' → v'.nlink = v.nlink →
        Wp (iunlockput dp) E
          (fun _ s4 => s4.Rep N' (addRef H ip) ∧ Keeps (addRef H ip) t s4) s3 := by
      intro s3 N' v' h3 hk3 hv' hn
      have hk03 : Keeps (addRef H ip) t s3 := hk02.trans hk3.of_addRef
      refine (iunlockput_reap h3 (hopen2.keep hk3)).mono fun _ s4 hs4 => ?_
      rw [hk03.inUse_eq, Nodes.reap_of_kept fun u hu h0 => ?_] at hs4
      · exact ⟨hs4.1, hk03.trans hs4.2⟩
      · obtain rfl := Option.some.inj (hv'.symm.trans hu)
        exact hready.safe.kept d hdR v hv (hn ▸ h0)
    cases hr with
    | refused _ h3 hk3 =>
      rw [if_pos (by decide)]
      refine (hput h3 hk3 hv rfl).bind fun _ s4 hs4 => ?_
      have hk4 : Keeps H s s4 := hk.trans hs4.2.of_addRef
      refine (linkBad_spec hs4.1 (hi.keep hs4.2) (hkept hk4)).mono fun r u hu => ?_
      obtain ⟨rfl, hu, hku⟩ := hu
      exact .refused u hu (hk4.trans hku)
    | entered _ hfind h3 hk3 =>
      have hN3 : update (N.modify i Node.addLink) d (some (v.setEntry
          (freeEntry (entries v.bytes)) ⟨i, strncpy name DIRSIZ⟩)) = N.linked d i name := by
        rw [Nodes.linked, Nodes.enter, Nodes.modify_eq hv]
      have hv3 : N.linked d i name d = some (v.setEntry (freeEntry (entries v.bytes))
          ⟨i, strncpy name DIRSIZ⟩) := by rw [← hN3, update_self]
      rw [hN3] at h3
      rw [if_neg (by decide)]
      refine (hput h3 hk3 hv3 rfl).bind fun _ s4 hs4 => ?_
      have hk4 : Keeps H s s4 := hk.trans hs4.2.of_addRef
      refine (iput_reap hs4.1 (hi.keep hs4.2)).bind fun _ s5 hs5 => ?_
      rw [hk4.inUse_eq] at hs5
      refine wp_endOp_return _ (fun u hu hku => ?_) hs5.1
      exact .linked u old new empty name i d w v hold hnew hres hd hiR hdR hw hwt hv0 ht hfind hu
        ((hk4.trans hs5.2).trans hku)

/-- **`sys_link`.** -/
theorem Ready.sysLink (h : s.Ready N H R E cwd c) (oldArg newArg : Option (List UInt8)) :
    Wp (sysLink cwd oldArg newArg) E (s.HardLinked N H R c oldArg newArg) s := by
  rw [Xv6.sysLink.eq_def]
  cases hold : argstr oldArg with
  | none => exact .refused s h.rep (Keeps.refl H s)
  | some old =>
    cases hnew : argstr newArg with
    | none => exact .refused s h.rep (Keeps.refl H s)
    | some new =>
      simp only [beginOp, wp_bind, wp_modify]
      have hk0 : Keeps H s { s with logged := [] } := Keeps.of_itable rfl rfl
      refine ((h.logged []).namei old).mono fun r s1 hr => ?_
      obtain ⟨r, rfl, hr⟩ := hr
      cases hr with
      | failed _ h1 hk1 =>
        exact wp_endOp_return _ (fun t ht hkt => .refused t ht ((hk0.trans hk1).trans hkt)) h1
      | reached _ ip i empty h1 hk1 holds hiR hres _ =>
        have hk01 : Keeps H s s1 := hk0.trans hk1
        simp only [Option.map_some]
        refine (ilock_rep h1 holds (h.alloc i hiR)).bind ?_
        rintro _ s2 ⟨h2, hk2, hi2⟩
        have hk02 : Keeps H s s2 := hk01.trans hk2.of_addRef
        have hw := hi2.entry h2
        have htype : (s2.itable ip).type = (s2.nodeOf (s2.itable ip).toDinode).type := rfl
        rw [wp_bind, wp_inode, htype]
        generalize s2.nodeOf (s2.itable ip).toDinode = w at hw
        by_cases hwt : w.type = T_DIR
        · rw [if_pos hwt]
          refine (iunlockput_reap h2 hi2).bind fun _ s3 hs3 => ?_
          rw [hk02.inUse_eq, Nodes.reap_of_kept (h.safe.kept i hiR)] at hs3
          exact wp_endOp_return _ (fun t ht hkt =>
            .refused t ht ((hk02.trans hs3.2).trans hkt)) hs3.1
        · rw [if_neg hwt]
          simp only [modifyInode, wp_bind, wp_modify]
          refine (setLinks_rep h2 hi2 (· + 1)).mono fun _ s3 hs3 => ?_
          have hi3 := hi2.keep hs3.1
          refine (iunlock_rep hs3.2 hi3.held).bind fun _ s4 hs4 => ?_
          subst hs4
          exact linkEnter_spec h hs3.2 (hk02.trans hs3.1.of_addRef) hi3 hiR hw hwt hold hnew hres

end Fs

end Xv6
