import Xv6.Sys.Policy
import Xv6.Fs.Image

/-! # The name space stays a tree

The weakest policy: entries may come and go in any directory. A directory that can be reached from the
root is reached by exactly one path. -/

namespace Xv6

/-- Two places of a list that satisfy `p` are one if at most one element does. -/
theorem index_unique_of_countP_le_one {α : Type} {p : α → Bool} {l : List α} {i j : ℕ} {a b : α}
    (h : l.countP p ≤ 1) (hi : l[i]? = some a) (ha : p a = true) (hj : l[j]? = some b)
    (hb : p b = true) : i = j := by
  induction l generalizing i j with
  | nil => simp at hi
  | cons x l ih =>
    -- an element of the tail counts besides the head
    have htail : ∀ {k : ℕ} {c : α}, l[k]? = some c → p c = true → 0 < l.countP p :=
      fun hk hc => List.countP_pos_iff.mpr ⟨_, List.mem_of_getElem? hk, hc⟩
    rw [List.countP_cons] at h
    match i, j, hi, hj with
    | 0, 0, _, _ => rfl
    | 0, j + 1, hi, hj =>
      cases hi
      have := htail hj hb
      rw [if_pos ha] at h
      omega
    | i + 1, 0, hi, hj =>
      cases hj
      have := htail hi ha
      rw [if_pos hb] at h
      omega
    | i + 1, j + 1, hi, hj => rw [ih (by omega) hi hj]

namespace Nodes

variable {N : Nodes} {n d i k : ℕ} {v : Node} {path path' : List ℕ}

/-- The entry is neither `.` nor `..`. -/
def Proper (de : Dirent) : Prop :=
  de.inum ≠ 0 ∧ namecmp de.name [dot] ≠ 0 ∧ namecmp de.name [dot, dot] ≠ 0

instance (de : Dirent) : Decidable (Proper de) := inferInstanceAs (Decidable (_ ∧ _ ∧ _))

/-- The path through the entries with the given numbers leads from the root to `i`, never through `.`
or `..`. -/
inductive Path (N : Nodes) : List ℕ → ℕ → Prop
  | root : Path N [] ROOTINO
  | step {path : List ℕ} {d k : ℕ} {v : Node} {de : Dirent} (hd : Path N path d) (hv : N d = some v)
      (ht : v.type = T_DIR) (hde : (entries v.bytes)[k]? = some de) (hproper : Proper de) :
      Path N (path ++ [k]) de.inum

/-- A proper entry comes after the first two. -/
theorem Tree.slot_of_proper (h : N.Tree n) (hv : N d = some v) (ht : v.type = T_DIR) {de : Dirent}
    (hde : (entries v.bytes)[k]? = some de) (hproper : Proper de) :
    2 ≤ k ∧ v.slots[k - 2]? = some de := by
  have hshape := h.shape d v hv ht
  have hk : k < v.bytes.length / DIRENT := by
    rw [← length_entries]
    exact (List.getElem?_eq_some_iff.mp hde).1
  have hat := entries_getElem? hk
  rw [hde, Option.some.injEq] at hat
  have h2 : 2 ≤ k := by
    by_contra hlt
    obtain rfl | rfl : k = 0 ∨ k = 1 := by omega
    · exact hproper.2.1 (hat ▸ hshape.dot)
    · exact hproper.2.2 (hat ▸ hshape.dotdot)
  refine ⟨h2, ?_⟩
  rw [Node.slots, List.getElem?_drop, Nat.add_sub_cancel' h2, hde]

theorem Tree.linksFrom_of_proper (h : N.Tree n) (hv : N d = some v) (ht : v.type = T_DIR)
    {de : Dirent} (hde : (entries v.bytes)[k]? = some de) (hproper : Proper de) :
    0 < N.linksFrom d de.inum := by
  rw [linksFrom_eq hv ht]
  exact links_pos (List.mem_of_getElem? (h.slot_of_proper hv ht hde hproper).2)

/-- **One path to every directory.** -/
theorem Tree.path_unique (h : N.Tree n) (hp : N.Path path i) (hp' : N.Path path' i)
    (hv : N i = some v) (ht : v.type = T_DIR) : path = path' := by
  -- the last step determines the parent, and the rest is a path to the parent
  induction hp generalizing path' v with
  | root =>
    generalize hi : ROOTINO = i at hp'
    cases hp' with
    | root => rfl
    | step hd' hv' ht' hde' hproper' =>
      have hlinks := h.linksFrom_of_proper hv' ht' hde' hproper'
      exact absurd hi.symm (h.parent _ _ v hlinks (hi ▸ hv) ht).2.2.1
  | @step path d k u de hd hu hut hde hproper ih =>
    have hlinks := h.linksFrom_of_proper hu hut hde hproper
    obtain ⟨hup, -, hroot, hone⟩ := h.parent d de.inum v hlinks hv ht
    generalize hi : de.inum = i at hp'
    cases hp' with
    | root => exact absurd hi hroot
    | @step path' d' k' u' de' hd' hu' hut' hde' hproper' =>
      have hlinks' := h.linksFrom_of_proper hu' hut' hde' hproper'
      rw [← hi] at hlinks'
      obtain rfl : d = d' := hup.symm.trans (h.parent d' de.inum v hlinks' hv ht).1
      obtain rfl := Option.some.inj (hu.symm.trans hu')
      obtain ⟨hk, hslot⟩ := h.slot_of_proper hu hut hde hproper
      obtain ⟨hk', hslot'⟩ := h.slot_of_proper hu hut hde' hproper'
      rw [linksFrom_eq hu hut, Node.links] at hone
      have := index_unique_of_countP_le_one hone.le hslot (decide_eq_true rfl) hslot'
        (decide_eq_true hi.symm)
      rw [ih hd' hu hut, show k = k' by omega]

/-- The place of directory `i`: one path leads to it, its first two entries are `.` and `..`, and its
entries name allocated inodes. -/
structure Placed (N : Nodes) (i : ℕ) (v : Node) : Prop where
  unique : ∃! path, N.Path path i
  self : (entryAt v.bytes 0).inum = i ∧ namecmp (entryAt v.bytes 0).name [dot] = 0
  dotdot : namecmp (entryAt v.bytes 1).name [dot, dot] = 0
  root : i = ROOTINO → (entryAt v.bytes 1).inum = ROOTINO
  parent : ∀ d u, N d = some u → u.type = T_DIR → ∀ de ∈ entries u.bytes, Proper de → de.inum = i →
    (entryAt v.bytes 1).inum = d
  alloc : ∀ de ∈ entries v.bytes, de.inum ≠ 0 → ∃ w, N de.inum = some w

theorem Tree.placed (h : N.Tree n) (hp : N.Path path i) (hv : N i = some v) (ht : v.type = T_DIR) :
    N.Placed i v := by
  have hshape := h.shape i v hv ht
  have hroot : i = ROOTINO → v.up = ROOTINO := by
    rintro rfl
    obtain ⟨u, hu, -, hup⟩ := h.root
    obtain rfl := Option.some.inj (hv.symm.trans hu)
    exact hup
  -- the parent is the directory of the last step
  have hup : ∃ u, N v.up = some u := by
    cases hp with
    | root =>
      rw [hroot rfl]
      exact ⟨v, hv⟩
    | step hd hu hut hde hproper =>
      rw [(h.parent _ _ v (h.linksFrom_of_proper hu hut hde hproper) hv ht).1]
      exact ⟨_, hu⟩
  constructor
  case unique => exact ⟨path, hp, fun path' hp' => h.path_unique hp' hp hv ht⟩
  case self => exact ⟨hshape.self, hshape.dot⟩
  case dotdot => exact hshape.dotdot
  case root => exact hroot
  case parent =>
    intro d u hu hut de hde hproper hi
    obtain ⟨k, hk⟩ := List.mem_iff_getElem?.mp hde
    have hlinks := h.linksFrom_of_proper hu hut hk hproper
    rw [hi] at hlinks
    exact (h.parent d i v hlinks hv ht).1
  case alloc => exact h.entries_alloc hv ht hup

end Nodes

/-- Entries may come and go everywhere. -/
def Policy.free : Policy where
  Inv := fun _ _ _ _ => True
  Enter := fun _ _ _ => True
  Leave := fun _ _ _ _ _ => True
  NoType := True

theorem Policy.free_lawful : Policy.free.Lawful where
  grow := fun _ _ _ _ => trivial
  reap := fun _ _ => trivial
  bytes := fun _ _ _ _ _ => trivial
  make := fun _ _ _ _ _ _ _ _ _ _ => trivial
  link := fun _ _ _ _ _ _ _ _ => trivial
  leave := fun _ _ _ _ _ _ _ _ _ => trivial
  alloc := fun h => absurd trivial h

namespace Sys

variable {m : ℕ} {initproc : Fin m} {s : Fs} {σ τ : Sys m} {as : List (Fin m × Call)}

/-- **The name space stays a tree** in every run in which no link count overflows. -/
theorem names_form_tree (hs : s.Rep s.nodes fun _ => 0) (htree : s.nodes.Tree s.sb.ninodes)
    (hinit : userinit initproc (Sys.boot s) = .ok ((), σ))
    (hrun : runFrom (step initproc) σ as = some τ)
    (hfits : AllSteps (step initproc) (fun ρ a _ => ∀ c r, ρ.Asks a c r → r.Fits ρ.fs.nodes c) σ as) :
    ∀ path i v, τ.fs.nodes.Path path i → τ.fs.nodes i = some v → v.type = T_DIR →
      τ.fs.nodes.Placed i v := by
  intro path i v hp hv ht
  have hinv := Policy.run Policy.free_lawful hs htree trivial hinit hrun
    (hfits.mono fun _ _ _ h c r hask => ⟨h c r hask, r.enters_of_forall _ _ fun _ => trivial,
      r.leaves_of_forall _ _ fun _ _ => trivial⟩)
  exact hinv.fine.held.tree.placed hp hv ht

/-- A directory is made in the root. -/
theorem names_form_tree_mkdir : ∃ σ τ : Sys 1, ∃ v,
    userinit 0 (Sys.boot (Image.root.fs 0)) = .ok ((), σ) ∧
    runFrom (step 0) σ [(0, .mkdir (some [97])), (0, .chdir (some [97]))] = some τ ∧
    τ.fs.nodes.Path [2] 2 ∧ τ.fs.nodes 2 = some v ∧ v.type = T_DIR ∧ τ.fs.nodes.Placed 2 v := by
  have hany : ((Sys.bootRun 0 (Image.root.fs 0) [(0, .mkdir (some [97])), (0, .chdir (some [97]))]).any
      fun τ : Sys 1 => decide (((τ.fs.nodes ROOTINO).any fun u => decide (u.type = T_DIR ∧
        (entries u.bytes)[2]? = some ⟨2, strncpy [97] DIRSIZ⟩)) = true ∧
        (τ.fs.nodes 2).any (fun v => decide (v.type = T_DIR)) = true)) = true := by
    decide +kernel
  obtain ⟨τ, hτ, hdec⟩ := (Option.any_eq_true _ _).mp hany
  obtain ⟨hroot, htwo⟩ := of_decide_eq_true hdec
  obtain ⟨u, hu, hentry⟩ := (Option.any_eq_true _ _).mp hroot
  obtain ⟨v, hv, ht⟩ := (Option.any_eq_true _ _).mp htwo
  obtain ⟨hut, hde⟩ := of_decide_eq_true hentry
  obtain ⟨σ, hinit, hrun⟩ := bootRun_eq_some hτ
  have hpath : τ.fs.nodes.Path ([] ++ [2]) 2 := .step .root hu hut hde (by decide)
  exact ⟨σ, τ, v, hinit, hrun, hpath, hv, of_decide_eq_true ht,
    names_form_tree Image.root.rep_nodes Image.root_tree hinit hrun
      (Policy.allSteps_fits (by simp)) _ 2 v hpath hv (of_decide_eq_true ht)⟩

end Sys

end Xv6
