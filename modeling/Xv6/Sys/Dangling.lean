import Xv6.Sys.Policy
import Xv6.Fs.Image

/-! # When entries dangle

A directory that was removed while in use still has its `..`. The parent may then be removed and freed
as well, and lookup of `..` panics (`Sys.dotdot_dangles`). The policy here is what keeps this from
happening: a directory is removed only if it is not the parent of a directory without a name, and,
when it is in use itself, only from a directory that has a name. -/

namespace Xv6

open Function

namespace Nodes

variable {N N' : Nodes} {U : ℕ → Prop} {O : Set ℕ} {n c d i x y : ℕ} {u v w : Node}

/-- If inode `x` is a directory without a name, its parent is the root or a directory with one. -/
def Anchored (N : Nodes) (n x : ℕ) : Prop :=
  ∀ u, N x = some u → u.type = T_DIR → x ≠ ROOTINO → N.count n x = 0 →
    N.isDir u.up = true ∧ (u.up = ROOTINO ∨ 0 < N.count n u.up)

namespace Anchored

theorem add (h : N.Anchored n x) (hx : x ≠ c) (hnone : N c = none)
    (hw : w.type = T_DIR → w.slots = []) : Anchored (update N c (some w)) n x := by
  intro u hu hut hroot h0
  rw [update_of_ne hx] at hu
  rw [count_add hnone hw] at h0
  obtain ⟨hdir, hup⟩ := h u hu hut hroot h0
  obtain ⟨p, hp, -⟩ := isDir_iff.mp hdir
  rw [isDir, update_of_ne (ne_of_values hp hnone (by simp)), count_add hnone hw]
  exact ⟨hdir, hup⟩

/-- Freeing an inode without links. -/
theorem remove (h : N.Anchored n x) (ht : N.Tree n) (hv : N y = some v) (h0 : v.nlink = 0) :
    Anchored (update N y none) n x := by
  intro u hu hut hroot hx0
  obtain ⟨-, ⟨⟩⟩ | ⟨hx, hu⟩ := update_cases hu
  have hcount : ∀ i, N.isDir i = true → count (update N y none) n i = N.count n i := by
    intro i hi
    have := N.count_remove (ht.lt hv) i
    rwa [ht.linksFrom_dir_eq_zero hv h0 hi, Nat.add_zero] at this
  rw [hcount x (isDir_of hu hut)] at hx0
  obtain ⟨hdir, hup⟩ := h u hu hut hroot hx0
  -- the parent has links, so it is not the one freed
  have hne : u.up ≠ y := by
    intro hy
    rw [hy] at hdir hup
    obtain ⟨p, hp, hpt⟩ := isDir_iff.mp hdir
    obtain rfl := Option.some.inj (hv.symm.trans hp)
    have hzero := ht.of_nlink_zero hv h0
    rcases hup with hr | hpos
    · exact (hzero.2 hpt).2 hr
    · omega
  rw [hcount _ hdir, isDir, update_of_ne hne]
  exact ⟨hdir, hup⟩

theorem reap {U : ℕ → Prop} (h : N.Anchored n x) (ht : N.Tree n) : (N.reap U y).Anchored n x := by
  rw [Nodes.reap]
  split
  · rename_i hfree
    obtain ⟨-, v, hv, h0⟩ := hfree
    exact h.remove ht hv h0
  · exact h

/-- A change of one entry, when `c` does not lose the name that `x` needs. -/
theorem relink {a b : ℕ} (h : N.Anchored n x) (ht : N.Tree n) (hr : Relink N N' n d c a b)
    (hx : x ≠ c)
    (hc : a = 1 → ∀ u, N x = some u → u.type = T_DIR → x ≠ ROOTINO → N.count n x = 0 → u.up ≠ c) :
    N'.Anchored n x := by
  intro u hu hut hroot h0
  obtain ⟨u0, hu0, htype, hup⟩ := hr.back hu
  have hx0 : x ≠ 0 := by
    have := (ht.pos x u0 hu0).1
    omega
  rw [hr.count_other hx0 hx] at h0
  obtain ⟨hdir, hcount⟩ := h u0 hu0 (htype ▸ hut) hroot h0
  obtain ⟨v, -, hv, -⟩ := hr.dir
  have hne := (ht.shape x u0 hu0 (htype ▸ hut)).up_ne
  have heq := hr.count_eq (ht.lt hv) hne
  have hone := hr.one
  rw [hup, hr.isDir_eq]
  refine ⟨hdir, hcount.imp id fun hpos => ?_⟩
  by_cases ha : a = 1
  · rw [if_neg (hc ha u0 hu0 (htype ▸ hut) hroot h0), if_neg (hc ha u0 hu0 (htype ▸ hut) hroot h0)]
      at heq
    omega
  · split_ifs at heq <;> omega

/-- A directory that gets a name. -/
theorem of_enter (ht : N.Tree n) (hr : Relink N N' n d c 0 1) : N'.Anchored n c := by
  intro u hu hut hroot h0
  obtain ⟨v, -, hv, -⟩ := hr.dir
  have := hr.count_eq (ht.lt hv) hr.pos
  rw [if_pos rfl, if_pos rfl] at this
  omega

/-- A directory that loses its name while its parent has one. -/
theorem of_leave (ht : N.Tree n) (hr : Relink N N' n d c 1 0)
    (hd : d = ROOTINO ∨ 0 < N.count n d) : N'.Anchored n c := by
  intro u hu hut hroot h0
  obtain ⟨u0, hu0, htype, hup⟩ := hr.back hu
  obtain ⟨v, -, hv, -, hvt, -⟩ := hr.dir
  have hlinks := hr.linksFrom_dir hr.pos
  rw [if_pos rfl, if_pos rfl] at hlinks
  obtain ⟨hparent, -⟩ := ht.parent d c u0 (by omega) hu0 (htype ▸ hut)
  have hd0 : d ≠ 0 := by
    have := (ht.pos d v hv).1
    omega
  rw [hup, hparent, hr.isDir_eq, hr.count_other hd0 hr.ne.symm]
  exact ⟨isDir_of hv hvt, hd⟩

end Anchored

/-- Inode `x` has links or is in use. -/
def Live (N : Nodes) (U : ℕ → Prop) (x : ℕ) : Prop := ∃ u, N x = some u ∧ (u.nlink ≠ 0 ∨ U x)

/-- Directory `c` may be removed from directory `d`: no other directory without a name has `c` as its
parent, and if `c` is in use, `d` is the root or has a name. -/
def Spares (N : Nodes) (U : ℕ → Prop) (n d c : ℕ) : Prop :=
  (∀ x u, N x = some u → u.type = T_DIR → x ≠ c → x ≠ ROOTINO → N.count n x = 0 →
    (u.nlink ≠ 0 ∨ U x) → u.up ≠ c) ∧
  (N.isDir c = true → U c → d = ROOTINO ∨ 0 < N.count n d)

theorem Live.of_reap (h : (N.reap U y).Live U x) : N.Live (fun i => U i ∨ i = y) x := by
  obtain ⟨u, hu, hlive⟩ := h
  exact ⟨u, (frees_reap N U y).apply hu, hlive.imp id Or.inl⟩

/-- A live directory of a tree leads to allocated inodes only. -/
theorem Anchored.up_alloc (h : N.Anchored n x) (ht : N.Tree n) (hv : N x = some v)
    (hvt : v.type = T_DIR) : ∃ u, N v.up = some u := by
  rcases eq_or_ne x ROOTINO with rfl | hroot
  · obtain ⟨u, hu, -, hup⟩ := ht.root
    obtain rfl := Option.some.inj (hv.symm.trans hu)
    rw [hup]
    exact ⟨v, hv⟩
  · rcases Nat.eq_zero_or_pos (N.count n x) with h0 | hpos
    · obtain ⟨hdir, -⟩ := h v hv hvt hroot h0
      obtain ⟨u, hu, -⟩ := isDir_iff.mp hdir
      exact ⟨u, hu⟩
    · obtain ⟨d, -, hdx⟩ := count_pos hpos
      obtain ⟨u, hu, -⟩ := linksFrom_pos hdx
      rw [(ht.parent d x v hdx hv hvt).1]
      exact ⟨u, hu⟩

/-- A file is written. -/
theorem Anchored.bytes (h : N.Anchored n x) (ht : N.Tree n) (hv : N i = some v) (hvt : v.type ≠ T_DIR)
    (b : List UInt8) : Anchored (update N i (some { v with bytes := b })) n x := by
  intro u hu hut hroot h0
  have hcount : ∀ j, count (update N i (some { v with bytes := b })) n j = N.count n j :=
    fun j => Finset.sum_congr rfl fun d _ => (ht.bytes hv hvt b).2 d j
  obtain ⟨rfl, ⟨⟩⟩ | ⟨hx, hu⟩ := update_cases hu
  · exact absurd hut hvt
  rw [hcount] at h0 ⊢
  obtain ⟨hdir, hup⟩ := h u hu hut hroot h0
  refine ⟨?_, hup⟩
  obtain ⟨p, hp, hpt⟩ := isDir_iff.mp hdir
  have hne : u.up ≠ i := by
    rintro hi
    rw [hi, hv] at hp
    cases hp
    exact hvt hpt
  rw [isDir, update_of_ne hne]
  exact hdir

/-- An inode that an entry comes to or goes from, or that is left alone, was live before. -/
theorem Live.of_relink {a b : ℕ} (h : N'.Live U x) (hr : Relink N N' n d c a b) (hx : x ≠ c)
    (hd : ∀ v, N d = some v → v.nlink = 0 → U d) : N.Live U x := by
  obtain ⟨u, hu, hlive⟩ := h
  rcases eq_or_ne x d with rfl | hxd
  · obtain ⟨v, -, hv, -⟩ := hr.dir
    by_cases h0 : v.nlink = 0
    · exact ⟨v, hv, .inr (hd v hv h0)⟩
    · exact ⟨v, hv, .inl h0⟩
  · rw [hr.same x hxd hx] at hu
    exact ⟨u, hu, hlive⟩

/-- A directory without entries that loses its only name has no links left. -/
theorem Tree.nlink_of_leave (h : N.Tree n) (hr : Relink N N' n d c 1 0) (hw : N c = some w)
    (hwt : w.type = T_DIR) (hsub : N.subdirs w = 0) (hu : N' c = some u) : u.nlink = 0 := by
  obtain ⟨v, -, hv, -⟩ := hr.dir
  obtain ⟨w', u', hw', hu', -, -, hlink⟩ := hr.node
  obtain rfl := Option.some.inj (hw.symm.trans hw')
  obtain rfl := Option.some.inj (hu.symm.trans hu')
  have hlinks := hr.linksFrom_dir hr.pos
  rw [if_pos rfl, if_pos rfl] at hlinks
  have hroot := (h.parent d c w (by omega) hw hwt).2.2.1
  have hdirs := h.dirs c w hw hwt
  have hone := h.count_dir_le_one hw hwt
  have hle := N.linksFrom_le_count (h.lt hv) c
  rw [if_neg hroot, hsub] at hdirs
  apply Int16.toInt_inj.mp
  rw [Int16.toInt_zero]
  omega

end Nodes

/-! ## The policy -/

/-- Live directories without a name have a parent with one. -/
def Policy.anchored : Policy where
  Inv := fun N U _ n => ∀ x, N.Live U x → N.Anchored n x
  Enter := fun _ _ _ => True
  Leave := Nodes.Spares
  NoType := False

open Nodes in
theorem Policy.anchored_lawful : Policy.anchored.Lawful where
  grow := by
    rintro N U O n y v hheld hinv hy hv x ⟨u, hu, hlive⟩
    refine hinv x ⟨u, hu, ?_⟩
    by_cases h0 : u.nlink = 0
    · rcases hlive with h | h | rfl
      · exact absurd h0 h
      · exact .inr h
      · exact .inr (hheld.kept x u hu h0 hy)
    · exact .inl h0
  reap := fun hheld hinv x hx => (hinv x hx.of_reap).reap hheld.tree
  bytes := by
    intro N U O n i v hheld hinv hv ht b x hx
    refine (hinv x ?_).bytes hheld.tree hv ht b
    obtain ⟨u, hu, hlive⟩ := hx
    obtain ⟨rfl, ⟨⟩⟩ | ⟨hxi, hu⟩ := update_cases hu
    · exact ⟨v, hv, hlive⟩
    · exact ⟨u, hu, hlive⟩
  make := by
    intro N N' U O n d c w hheld hinv _ hd hnone h0 hw hbare hr htree' x hx
    rcases eq_or_ne x c with rfl | hxc
    · exact .of_enter hbare hr
    · have hlive : N.Live U x := by
        obtain ⟨u, hu, hlive⟩ := hx.of_relink hr hxc fun _ _ _ => .inl hd
        rw [update_of_ne hxc] at hu
        exact ⟨u, hu, hlive.imp id fun h => h.resolve_right hxc⟩
      exact ((hinv x hlive).add hxc hnone fun ht => (hw ht).1).relink hbare hr hxc nofun
  link := by
    intro N N' U O n d c hheld hinv _ hd hc hfile hr htree' x hx
    rcases eq_or_ne x c with rfl | hxc
    · exact .of_enter hheld.tree hr
    · exact (hinv x (hx.of_relink hr hxc fun _ _ _ => hd)).relink hheld.tree hr hxc nofun
  leave := by
    intro N N' U O n d c w hheld hinv hspare hdO hcO hw hempty hr htree' x hx
    have htree := hheld.tree
    -- what was freed on the way does not matter to those that stay
    suffices h : N'.Anchored n x from (h.reap htree').reap (htree'.reap d)
    obtain ⟨u, hu, hlive⟩ := hx
    have hu1 := (frees_reap _ _ _).apply hu
    have hu' := (frees_reap _ _ _).apply hu1
    rcases eq_or_ne x c with rfl | hxc
    · intro u0 hu0 hut
      obtain rfl := Option.some.inj (hu'.symm.trans hu0)
      obtain ⟨w0, hw0, htype, -⟩ := hr.back hu'
      obtain rfl := Option.some.inj (hw.symm.trans hw0)
      have hwt : w.type = T_DIR := htype ▸ hut
      -- it is still there, so somebody uses it
      have hU : U x := by
        by_contra hno
        have h0 := htree.nlink_of_leave hr hw hwt (htree.subdirs_of_empty (hempty hwt)) hu'
        rw [reap_of_free hu1 h0 hno, update_self] at hu
        cases hu
      exact Anchored.of_leave htree hr (hspare.2 (isDir_of hw hwt) hU) u hu' hut
    · have hx : N.Live U x := Live.of_relink ⟨u, hu', hlive⟩ hr hxc fun v hv h0 =>
        hheld.kept d v hv h0 hdO
      refine (hinv x hx).relink htree hr hxc fun _ u0 hu0 hut hroot h0 => ?_
      obtain ⟨u1, hu1, hlive1⟩ := hx
      obtain rfl := Option.some.inj (hu0.symm.trans hu1)
      exact hspare.1 x u0 hu0 hut hxc hroot h0 hlive1
  alloc := by
    intro _ N U O n i v hheld hinv hi hv ht
    refine (hinv i ⟨v, hv, ?_⟩).up_alloc hheld.tree hv ht
    by_cases h0 : v.nlink = 0
    · exact .inr (hheld.kept i v hv h0 hi)
    · exact .inl h0

namespace Sys

variable {m : ℕ} {initproc : Fin m} {s : Fs} {σ τ : Sys m} {as : List (Fin m × Call)}

/-- **Entries do not dangle** in runs that remove directories only where the parents of directories
without a name are spared, and lookup never finds an inode without type. -/
theorem entries_never_dangle (hs : s.Rep s.nodes fun _ => 0) (htree : s.nodes.Tree s.sb.ninodes)
    (hanchored : ∀ x v, s.nodes x = some v → v.nlink ≠ 0 → s.nodes.Anchored s.sb.ninodes x)
    (hinit : userinit initproc (Sys.boot s) = .ok ((), σ))
    (hrun : runFrom (step initproc) σ as = some τ)
    (hspares : AllSteps (step initproc) (fun ρ a _ => ∀ c r, ρ.Asks a c r → r.Fits ρ.fs.nodes c ∧
      r.Leaves ρ.fs.nodes c (ρ.fs.nodes.Spares (ρ.fs.InUse ρ.refs) ρ.fs.sb.ninodes)) σ as) :
    (∀ x v, τ.fs.nodes x = some v → v.type = T_DIR → (v.nlink ≠ 0 ∨ τ.fs.InUse τ.refs x) →
      ∀ de ∈ entries v.bytes, de.inum ≠ 0 → ∃ w, τ.fs.nodes de.inum = some w) ∧
    τ.panicked ≠ some .ilockNoType := by
  have hstart : Policy.anchored.Inv s.nodes (fun _ => False) s.nodes.lost s.sb.ninodes := by
    rintro x ⟨v, hv, h | h⟩
    · exact hanchored x v hv h
    · exact h.elim
  have hinv := Policy.run Policy.anchored_lawful hs htree hstart hinit hrun
    (hspares.mono fun _ _ _ h c r hask => ⟨(h c r hask).1,
      r.enters_of_forall _ _ fun _ => trivial, (h c r hask).2⟩)
  refine ⟨fun x v hv ht hlive => ?_, fun hp => hinv.panicked _ hp rfl⟩
  have htree' := hinv.fine.held.tree
  have hx : τ.fs.nodes.Anchored τ.fs.sb.ninodes x := hinv.fine.inv x ⟨v, hv, hlive⟩
  exact htree'.entries_alloc hv ht (hx.up_alloc htree' hv ht)

/-- An image with the directories `/a` and `/a/b`. -/
def nested : Image where
  files := [⟨T_DIR, 0, 0, 2, Dirent.encode ⟨1, strncpy [dot] DIRSIZ⟩ ++
      Dirent.encode ⟨1, strncpy [dot, dot] DIRSIZ⟩ ++ Dirent.encode ⟨2, strncpy [97] DIRSIZ⟩⟩,
    ⟨T_DIR, 0, 0, 2, Dirent.encode ⟨2, strncpy [dot] DIRSIZ⟩ ++
      Dirent.encode ⟨1, strncpy [dot, dot] DIRSIZ⟩ ++ Dirent.encode ⟨3, strncpy [98] DIRSIZ⟩⟩,
    ⟨T_DIR, 0, 0, 1, Dirent.encode ⟨3, strncpy [dot] DIRSIZ⟩ ++
      Dirent.encode ⟨2, strncpy [dot, dot] DIRSIZ⟩⟩]
  pos := by decide
  lt := by decide
  small := by decide

theorem nested_tree : (nested.fs 0).nodes.Tree (nested.fs 0).sb.ninodes :=
  nested.tree (by decide +kernel) (by decide +kernel) (by decide +kernel)

theorem nested_count {x : ℕ} {v : Node} (hv : nested.node x = some v) (hroot : x ≠ ROOTINO) :
    0 < Nodes.count nested.node IPB x := by
  have hx := Image.node_lt hv
  have hlen : nested.files.length = 3 := rfl
  have hne : x ≠ 1 := hroot
  obtain rfl | rfl : x = 2 ∨ x = 3 := by omega
  · decide +kernel
  · decide +kernel

/-- Every directory of the image has a name. -/
theorem nested_anchored (x : ℕ) : (nested.fs 0).nodes.Anchored (nested.fs 0).sb.ninodes x := by
  rw [Image.nodes_fs]
  intro u hu _ hroot h0
  exact absurd h0 (nested_count hu hroot).ne'

/-- **A `..` that dangles.** In the directory `/a/b`, a process removes `/a/b` and then `/a`. The inode
of `/a` is freed, although `..` of its current directory names it, and `chdir("..")` panics. -/
theorem dotdot_dangles : (nested.fs 0).nodes.Tree (nested.fs 0).sb.ninodes ∧
    (∀ x, (nested.fs 0).nodes.Anchored (nested.fs 0).sb.ninodes x) ∧
    ∃ σ τ : Sys 1, ∃ x v de,
    userinit 0 (Sys.boot (nested.fs 0)) = .ok ((), σ) ∧
    runFrom (step 0) σ [(0, .chdir (some [97, 47, 98])), (0, .unlink (some [47, 97, 47, 98])),
      (0, .unlink (some [47, 97])), (0, .chdir (some [46, 46]))] = some τ ∧
    τ.fs.InUse τ.refs x ∧ τ.fs.nodes x = some v ∧ v.type = T_DIR ∧ de ∈ entries v.bytes ∧
    de.inum ≠ 0 ∧ τ.fs.nodes de.inum = none ∧ τ.panicked = some .ilockNoType := by
  have hany : ((Sys.bootRun 0 (nested.fs 0) [(0, .chdir (some [97, 47, 98])),
      (0, .unlink (some [47, 97, 47, 98])), (0, .unlink (some [47, 97])),
      (0, .chdir (some [46, 46]))]).any fun τ : Sys 1 => decide (
        (τ.procs 0).cwd.any (fun ip => decide ((τ.fs.itable ip).inum = 3)) = true ∧
        (τ.fs.nodes 3).any (fun v : Node => decide (v.type = T_DIR ∧ ∃ de ∈ entries v.bytes, de.inum = 2))
          = true ∧
        (τ.fs.nodes 2).isNone = true ∧ τ.panicked = some .ilockNoType)) = true := by
    decide +kernel
  obtain ⟨τ, hτ, hdec⟩ := (Option.any_eq_true _ _).mp hany
  obtain ⟨hcwd, hthree, htwo, hpanic⟩ := of_decide_eq_true hdec
  obtain ⟨ip, hip, hinum⟩ := (Option.any_eq_true _ _).mp hcwd
  obtain ⟨v, hv, hdir⟩ := (Option.any_eq_true _ _).mp hthree
  obtain ⟨ht, de, hde, hde2⟩ := of_decide_eq_true hdir
  obtain ⟨σ, hinit, hrun⟩ := bootRun_eq_some hτ
  refine ⟨nested_tree, nested_anchored, σ, τ, 3, v, de, hinit, hrun, ⟨ip, refs_pos_of_cwd hip, of_decide_eq_true hinum⟩, hv, ht, hde,
    ?_, ?_, hpanic⟩
  · rw [hde2]
    decide
  · rw [hde2]
    exact Option.isNone_iff_eq_none.mp htwo

theorem entries_never_dangle_unlink : ∃ σ τ : Sys 1,
    userinit 0 (Sys.boot (nested.fs 0)) = .ok ((), σ) ∧
    runFrom (step 0) σ [(0, .unlink (some [97, 47, 98]))] = some τ ∧
    (∀ x v, τ.fs.nodes x = some v → v.type = T_DIR → (v.nlink ≠ 0 ∨ τ.fs.InUse τ.refs x) →
      ∀ de ∈ entries v.bytes, de.inum ≠ 0 → ∃ w, τ.fs.nodes de.inum = some w) ∧
    τ.panicked ≠ some .ilockNoType := by
  have hsome : (Sys.bootRun 0 (nested.fs 0) [(0, .unlink (some [97, 47, 98]))] : Option (Sys 1)).isSome
      = true := by
    decide +kernel
  obtain ⟨τ, hτ⟩ := Option.isSome_iff_exists.mp hsome
  obtain ⟨σ, hinit, hrun⟩ := bootRun_eq_some hτ
  obtain ⟨hnodes, hsb, hcwd⟩ := userinit_start nested.rep_nodes hinit
  refine ⟨σ, τ, hinit, hrun, entries_never_dangle nested.rep_nodes nested_tree
    (fun x _ _ _ => nested_anchored x) hinit hrun fun ρ _ => ⟨?_, trivial⟩⟩
  rintro c r ⟨hreq, ip, hip, rfl⟩
  have hr : r = .unlink [97, 47, 98] := (Option.some.inj hreq).symm
  subst hr
  refine ⟨trivial, fun d name i hres _ => ?_⟩
  rw [hcwd ip hip, hnodes, Image.nodes_fs] at hres
  rw [hnodes, hsb, Image.nodes_fs]
  have hparent : Nodes.resolve nested.node ROOTINO [97, 47, 98] true = some (2, [98]) := by
    decide +kernel
  obtain ⟨rfl, rfl⟩ := Prod.mk.inj (Option.some.inj (hparent.symm.trans hres))
  refine ⟨fun x u hu _ _ hroot h0 => ?_, fun _ _ => .inr ?_⟩
  · exact absurd h0 (nested_count hu hroot).ne'
  · exact nested_count (v := nested.files[1]) rfl (by decide)

end Sys

end Xv6
