import Xv6.Fs.Image

/-! # Callers of the inode layer

The rest of the kernel holds references to inodes and calls the inode layer on them, in any order
and with any arguments. A `Client` is the state together with the references held, and a step is
one call. The invariant of the inode layer holds after every run: files have no holes, so reading
changes nothing, and reading and writing are those of a list of bytes. -/

namespace Xv6

open Function

/-- The file system and the references its callers hold. -/
structure Client where
  fs : Fs
  held : List (Fin NINODE)
  panicked : Option Panic

/-- A call of the inode layer; `k` is the index of a reference held. -/
inductive InodeOp
  | iget (inum : ℕ)
  | idup (k : ℕ)
  | ialloc (type : Int16)
  | ilock (k : ℕ)
  | readi (k : ℕ) (dst : Dst) (off n : UInt32)
  | writei (k : ℕ) (src : Src) (off n : UInt32)
  | itrunc (k : ℕ)
  | iput (k : ℕ)

namespace Client

/-- The number of references held to each entry. -/
def refs (c : Client) : Fin NINODE → ℕ := fun ip => c.held.count ip

/-- Run a call, which returns the references held afterwards. -/
def exec (c : Client) (x : FsM (List (Fin NINODE))) : Client :=
  match x c.fs with
  | .ok (held, fs) => ⟨fs, held, none⟩
  | .error p => { c with panicked := some p }

/-- The code of a call: callers name inodes that exist and references they hold, lock the inode
around the call, and ask for a type when they allocate. -/
def code (c : Client) : InodeOp → Option (FsM (List (Fin NINODE)))
  | .iget inum =>
    if inum < c.fs.sb.ninodes then some do return (← iget inum) :: c.held else none
  | .idup k => c.held[k]?.map fun ip => do return (← idup ip) :: c.held
  | .ialloc type =>
    if type ≠ 0 then some do return (← ialloc type).toList ++ c.held else none
  | .ilock k => c.held[k]?.map fun ip => do
    ilock ip
    iunlock ip
    return c.held
  | .readi k dst off n => c.held[k]?.map fun ip => do
    ilock ip
    let _ ← readi ip dst off.toNat n.toNat
    iunlock ip
    return c.held
  | .writei k src off n => c.held[k]?.map fun ip => do
    ilock ip
    let _ ← writei ip src off.toNat n.toNat
    iunlock ip
    return c.held
  | .itrunc k => c.held[k]?.map fun ip => do
    ilock ip
    itrunc ip
    iunlock ip
    return c.held
  | .iput k => c.held[k]?.map fun ip => do
    iput ip
    return c.held.erase ip

/-- One call; nothing follows a panic. -/
def step (c : Client) (op : InodeOp) : Option Client :=
  if c.panicked.isSome then none else (c.code op).map c.exec

/-- The references held are those counted in the inode table, and the file system is coherent. -/
def Consistent (c : Client) : Prop := c.fs.Coherent c.fs.dinode c.refs ∅ ∅

variable {c c' : Client} {ops : List InodeOp} {ip : Fin NINODE} {k : ℕ}

theorem refs_pos (h : ip ∈ c.held) : 0 < c.refs ip := List.count_pos_iff.mpr h

theorem refs_cons (held : List (Fin NINODE)) (ip : Fin NINODE) :
    (fun jp => (ip :: held).count jp) = addRef (fun jp => held.count jp) ip := by
  funext jp
  rw [addRef_apply, List.count_cons]
  rcases eq_or_ne jp ip with rfl | h
  · simp
  · simp [h, Ne.symm h]

theorem refs_erase (held : List (Fin NINODE)) (ip : Fin NINODE) :
    (fun jp => (held.erase ip).count jp) = dropRef (fun jp => held.count jp) ip := by
  funext jp
  rw [dropRef_apply, List.count_erase]
  rcases eq_or_ne jp ip with rfl | h
  · simp
  · simp [h, Ne.symm h]

theorem Consistent.rep (h : c.Consistent) : c.fs.Rep c.fs.nodes c.refs := Fs.Coherent.rep h

/-- What a call leaves: a coherent state for `held`, whose nodes are `P`. -/
def Leaves (c : Client) (P : Nodes → Prop) (held : List (Fin NINODE)) (t : Fs) : Prop :=
  ∃ N, t.Rep N (fun ip => held.count ip) ∧ t.sb = c.fs.sb ∧ P N

/-- Locking an inode around a piece of code. -/
theorem wp_locked {α : Type} (x : FsM α) {P : Nodes → Prop} (h : c.Consistent) (hip : ip ∈ c.held)
    {E : Panic → Prop} (hE : E .ilockNoType)
    (hx : ∀ t i, t.Rep c.fs.nodes c.refs → t.Opened c.refs ip i → Fs.Keeps c.refs c.fs t →
      Wp x E (fun _ u => ∃ N, u.Rep N c.refs ∧ u.sb = t.sb ∧ P N) t) :
    Wp (do
      ilock ip
      let _ ← x
      iunlock ip
      return c.held : FsM (List (Fin NINODE))) E (c.Leaves P) c.fs := by
  have hpos := refs_pos hip
  refine (Fs.ilock_rep h.rep ⟨hpos, rfl⟩ fun _ => hE).bind fun _ t ht => ?_
  refine (hx t _ ht.1 ht.2.2 ht.2.1).bind fun _ u ⟨N, hu, hsb, hP⟩ => ?_
  refine (Fs.iunlock_rep hu hpos).bind fun _ w hw => ?_
  subst hw
  exact ⟨N, hu, hsb.trans ht.2.1.sb, hP⟩

/-- What a call does to the nodes. -/
inductive Effect (c : Client) : InodeOp → Nodes → Prop
  | same (op : InodeOp) : Effect c op c.fs.nodes
  | alloc (type : Int16) (i : ℕ) :
      Effect c (.ialloc type) (update c.fs.nodes i (some (Node.fresh type)))
  | write (k : ℕ) (src : Src) (off n : UInt32) (ip : Fin NINODE) (v : Node) (b : List UInt8)
      (hip : c.held[k]? = some ip) (hv : c.fs.nodes (c.fs.itable ip).inum = some v) :
      Effect c (.writei k src off n)
        (update c.fs.nodes (c.fs.itable ip).inum (some { v with bytes := b }))
  | trunc (k : ℕ) (ip : Fin NINODE) (v : Node) (hv : c.fs.nodes (c.fs.itable ip).inum = some v) :
      Effect c (.itrunc k)
        (update c.fs.nodes (c.fs.itable ip).inum (some { v with bytes := [] }))
  | put (k : ℕ) (ip : Fin NINODE) (hip : ip ∈ c.held) :
      Effect c (.iput k) (c.fs.putNodes c.fs.nodes c.refs ip)

/-- **One call** keeps the invariant and does not free a free block. -/
theorem code_spec (h : c.Consistent) (op : InodeOp) {x : FsM (List (Fin NINODE))}
    (hx : c.code op = some x) :
    Wp x (· ≠ .freeingFreeBlock) (c.Leaves (c.Effect op)) c.fs := by
  cases op with
  | iget inum =>
    by_cases hi : inum < c.fs.sb.ninodes
    · rw [code, if_pos hi] at hx
      cases hx
      refine (Fs.iget_rep h.rep hi (by decide)).bind fun ip t ht => ?_
      rw [wp_pure, Leaves, refs_cons]
      exact ⟨_, ht.rep, ht.keeps.sb, .same _⟩
    · rw [code, if_neg hi] at hx
      cases hx
  | idup k =>
    obtain ⟨ip, hip, rfl⟩ := Option.map_eq_some_iff.mp hx
    refine (Fs.idup_rep h.rep ⟨refs_pos (List.mem_of_getElem? hip), rfl⟩).bind fun jp t ht => ?_
    rw [wp_pure, Leaves, refs_cons, ht.1]
    exact ⟨_, ht.2.rep, ht.2.keeps.sb, .same _⟩
  | ialloc type =>
    by_cases htype : type ≠ 0
    · rw [code, if_pos htype] at hx
      cases hx
      refine (Fs.ialloc_rep h.rep htype (by decide)).bind fun r t ht => ?_
      rw [wp_pure]
      obtain ⟨rfl, hrep, hk⟩ | ⟨ip, i, rfl, ha⟩ := ht
      · exact ⟨_, hrep, hk.sb, .same _⟩
      · rw [Option.toList_some, List.singleton_append, Leaves, refs_cons]
        exact ⟨_, ha.rep, ha.keeps.sb, .alloc type i⟩
    · rw [code, if_neg htype] at hx
      cases hx
  | ilock k =>
    obtain ⟨ip, hip, rfl⟩ := Option.map_eq_some_iff.mp hx
    exact wp_locked (pure ()) h (List.mem_of_getElem? hip) (by decide)
      fun t i ht _ _ => ⟨_, ht, rfl, .same _⟩
  | readi k dst off n =>
    obtain ⟨ip, hip, rfl⟩ := Option.map_eq_some_iff.mp hx
    refine wp_locked _ h (List.mem_of_getElem? hip) (by decide) fun t i ht ho _ => ?_
    obtain ⟨hl, htype⟩ := ho.locked ht
    refine (Fs.readi_same ht.coherent hl htype dst _ n.toNat_lt).mono fun _ u hu => ?_
    subst hu
    exact ⟨_, ht, rfl, .same _⟩
  | writei k src off n =>
    obtain ⟨ip, hip, rfl⟩ := Option.map_eq_some_iff.mp hx
    refine wp_locked _ h (List.mem_of_getElem? hip) (by decide) fun t i ht ho hk => ?_
    have hi : (c.fs.itable ip).inum = i := (hk.inum ip ho.held).symm.trans ho.inum
    subst hi
    refine (Fs.writei_rep ht ho (ho.entry ht) src _ n.toNat_lt).mono fun _ u ⟨b, hu⟩ => ?_
    exact ⟨_, hu.rep, hu.keeps.sb, .write k src off n ip _ b hip (ho.entry ht)⟩
  | itrunc k =>
    obtain ⟨ip, hip, rfl⟩ := Option.map_eq_some_iff.mp hx
    refine wp_locked _ h (List.mem_of_getElem? hip) (by decide) fun t i ht ho hk => ?_
    have hi : (c.fs.itable ip).inum = i := (hk.inum ip ho.held).symm.trans ho.inum
    subst hi
    exact (Fs.itrunc_rep ht ho (ho.entry ht)).mono fun _ u hu =>
      ⟨_, hu.2, hu.1.sb, .trunc k ip _ (ho.entry ht)⟩
  | iput k =>
    obtain ⟨ip, hip, rfl⟩ := Option.map_eq_some_iff.mp hx
    have hmem := List.mem_of_getElem? hip
    refine (Fs.iput_rep h.rep (refs_pos hmem)).bind fun _ t ht => ?_
    rw [wp_pure, Leaves, refs_erase]
    exact ⟨_, ht.1, ht.2.sb, .put k ip hmem⟩

theorem Consistent.exec (h : c.Consistent) {x : FsM (List (Fin NINODE))} {E : Panic → Prop}
    {P : Nodes → Prop} (hx : Wp x E (c.Leaves P) c.fs) : (c.exec x).Consistent := by
  unfold Client.exec
  cases hr : x c.fs with
  | error p => exact h
  | ok r =>
    obtain ⟨N, hrep, -⟩ := hx.ok hr
    exact hrep.coherent

/-- A step keeps the invariant. -/
theorem Consistent.step {op : InodeOp} (h : c.Consistent) (hs : c.step op = some c') :
    c'.Consistent := by
  rw [Client.step] at hs
  split at hs
  · cases hs
  · obtain ⟨x, hx, rfl⟩ := Option.map_eq_some_iff.mp hs
    exact h.exec (code_spec h op hx)

/-- The invariant holds after every run. -/
theorem Consistent.run (h : c.Consistent) (hrun : runFrom Client.step c ops = some c') :
    c'.Consistent :=
  runFrom_invariant (fun _ _ _ h hs => h.step hs) h hrun

/-! ## Reading and writing after any run -/

/-- An entry that is held and was read from disk. -/
theorem opened (hip : ip ∈ c.held)
    (hv : (c.fs.itable ip).valid = true) : c.fs.Opened c.refs ip (c.fs.itable ip).inum :=
  ⟨⟨refs_pos hip, rfl⟩, hv⟩

/-- **No holes, so reads never allocate.** After any run every block below the size of an allocated
inode is a data block in use. For every inode in memory `bmap` finds it and changes nothing, and so
`readi` leaves the whole state as it is: no block is allocated, nothing is logged or printed, and no
inode changes. -/
theorem reads_never_allocate (h : c.Consistent) (hrun : runFrom step c ops = some c') :
    (∀ i < c'.fs.sb.ninodes, (c'.fs.dinode i).type ≠ 0 →
      ∀ bn < ((c'.fs.dinode i).size + BSIZE - 1) / BSIZE,
        c'.fs.sb.IsData (c'.fs.blockOf (c'.fs.dinode i) bn) ∧
        c'.fs.bit (c'.fs.blockOf (c'.fs.dinode i) bn) = true) ∧
    ∀ ip ∈ c'.held, (c'.fs.itable ip).valid = true →
      (∀ bn < ((c'.fs.itable ip).size + BSIZE - 1) / BSIZE,
        bmap ip bn c'.fs = .ok (c'.fs.blockOf (c'.fs.itable ip).toDinode bn, c'.fs) ∧
        c'.fs.blockOf (c'.fs.itable ip).toDinode bn ≠ 0) ∧
      ∀ (dst : Dst) (off n : UInt32), ∃ r, readi ip dst off.toNat n.toNat c'.fs = .ok (r, c'.fs) := by
  have hc := h.run hrun
  have hsized : ∀ i < c'.fs.sb.ninodes, (c'.fs.dinode i).type ≠ 0 → c'.fs.Sized (c'.fs.dinode i) :=
    fun i hi ht => Fs.Coherent.sized hc i hi (Set.notMem_empty i) ht
  -- a block below the size is within the range of `bmap` and present
  have hblock : ∀ d : Dinode, c'.fs.Sized d → ∀ bn < (d.size + BSIZE - 1) / BSIZE,
      bn < MAXFILE ∧ c'.fs.blockOf d bn ≠ 0 := by
    intro d hs bn hbn
    have hlt : bn * BSIZE < d.size := by
      simp only [BSIZE] at *
      omega
    have := hs.block hlt
    rwa [Nat.mul_div_cancel _ (by decide)] at this
  refine ⟨fun i hi ht bn hbn => ?_, fun ip hip hv => ⟨fun bn hbn => ?_, fun dst off n => ?_⟩⟩
  · obtain ⟨hlt, hne⟩ := hblock _ (hsized i hi ht) bn hbn
    exact Fs.Coherent.inUse_of_place hc (Fs.place_blockOf hi ht hlt hne)
  · obtain ⟨hl, ht⟩ := (opened hip hv).locked hc.rep
    rw [show (c'.fs.itable ip).size = (c'.fs.itable ip).toDinode.size from rfl, hl.copy] at hbn
    obtain ⟨hlt, hne⟩ := hblock _ (hsized _ (Fs.Coherent.inum_lt hc (refs_pos hip)) ht) bn hbn
    obtain ⟨a, t, hrun, rfl, rfl⟩ := Wp.total (Fs.bmap_same hc hl ht hlt hne)
    rw [hl.copy]
    exact ⟨hrun, hne⟩
  · obtain ⟨hl, ht⟩ := (opened hip hv).locked hc.rep
    obtain ⟨r, t, hrun, rfl⟩ := Wp.total (Fs.readi_same hc hl ht dst off.toNat n.toNat_lt)
    exact ⟨r, hrun⟩

/-- Nobody holds a reference on a disk that was just mounted. -/
def mounted (im : Image) : Client := ⟨im.fs 0, [], none⟩

theorem mounted_consistent (im : Image) : (mounted im).Consistent := by
  have hrefs : (mounted im).refs = Image.refs 0 := by
    funext ip
    simp [refs, mounted, Image.refs]
  rw [Consistent, hrefs]
  exact (im.rep 0).coherent

/-- The calls that get the root and read it from disk. -/
def openRoot : List InodeOp := [.iget ROOTINO, .ilock 0]

theorem openRoot_run : ∃ c, runFrom step (mounted .root) openRoot = some c ∧ c.held = [0] ∧
    (c.fs.itable 0).valid = true := by
  have h : (runFrom step (mounted .root) openRoot).any fun c =>
      c.held = [0] ∧ (c.fs.itable 0).valid = true := by decide +kernel
  obtain ⟨c, hc, hp⟩ := (Option.any_eq_true _ _).mp h
  exact ⟨c, hc, by simpa using hp⟩

theorem reads_never_allocate_root : ∃ c, runFrom step (mounted .root) openRoot = some c ∧
    ∀ (dst : Dst) (off n : UInt32), ∃ r, readi 0 dst off.toNat n.toNat c.fs = .ok (r, c.fs) := by
  obtain ⟨c, hrun, hheld, hv⟩ := openRoot_run
  have h := (reads_never_allocate (mounted_consistent .root) hrun).2 0 (by rw [hheld]; simp) hv
  exact ⟨c, hrun, h.2⟩

end Client

end Xv6
