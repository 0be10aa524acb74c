import Xv6.Fs.Client

/-! # Block ownership

The calls of the whole file-system layer: those on inodes, `dirlink`, `sys_unlink` and `create`. In
every state they lead to, the blocks marked in use are the metadata and the blocks of the files, and
each of these is in one place only. -/

namespace Xv6

/-- A call of the file-system layer; `k`, `dp`, `ip` and `cwd` are indices of references held. -/
inductive FileOp
  | inode (op : InodeOp)
  | dirlink (dp : ℕ) (name : List UInt8) (ip : ℕ)
  | unlink (cwd : ℕ) (path : Option (List UInt8))
  | create (cwd : ℕ) (path : List UInt8) (type major minor : Int16)

namespace Client

/-- Bytes of the caller's choice are never written to a directory: `sys_open` does not open one for
writing. -/
def allowed (c : Client) : InodeOp → Bool
  | .writei k _ _ _ => c.held[k]?.all fun ip =>
    decide ((c.fs.dinode (c.fs.itable ip).inum).type ≠ T_DIR)
  | _ => true

/-- The code of a call. Callers of `dirlink` lock the directory and pass the number of an inode they
hold; `create` is asked for a type. -/
def fileCode (c : Client) : FileOp → Option (FsM (List (Fin NINODE)))
  | .inode op => if c.allowed op then c.code op else none
  | .dirlink dp name ip => do
    let dp ← c.held[dp]?
    let ip ← c.held[ip]?
    return do
      ilock dp
      let _ ← dirlink dp name (c.fs.itable ip).inum
      iunlock dp
      return c.held
  | .unlink cwd path => c.held[cwd]?.map fun cwd => do
    let _ ← sysUnlink cwd path
    return c.held
  | .create cwd path type major minor =>
    if type ≠ 0 then c.held[cwd]?.map fun cwd => do
      match ← create cwd path type major minor with
      | some ip =>
        iunlock ip
        return ip :: c.held
      | none => return c.held
    else none

/-- One call; nothing follows a panic. -/
def fileStep (c : Client) (op : FileOp) : Option Client :=
  if c.panicked.isSome then none else (c.fileCode op).map c.exec

/-- The invariant of the inode layer holds and directories consist of entries for inodes that
exist. -/
structure WellFormed (c : Client) : Prop where
  consistent : c.Consistent
  dirs : c.fs.nodes.DirsOk c.fs.sb.ninodes
  no_panic : c.panicked ≠ some .freeingFreeBlock

variable {c c' : Client} {ops : List FileOp} {ip : Fin NINODE} {k : ℕ}

/-- The directories are well formed. -/
def DirsKept (c : Client) (N : Nodes) : Prop := N.DirsOk c.fs.sb.ninodes

theorem WellFormed.exec (h : c.WellFormed) {x : FsM (List (Fin NINODE))}
    (hx : Wp x (· ≠ .freeingFreeBlock) (c.Leaves c.DirsKept) c.fs) : (c.exec x).WellFormed := by
  refine ⟨h.consistent.exec hx, ?_, ?_⟩ <;> unfold Client.exec <;> cases hr : x c.fs with
    | error p => ?_
    | ok r => ?_
  · exact h.dirs
  · obtain ⟨N, hrep, hsb, hN⟩ := hx.ok hr
    rw [← hrep.nodes_eq, DirsKept, ← hsb] at hN
    exact hN
  · exact fun hp => hx.error hr (Option.some.inj hp)
  · exact nofun

/-- Calls on inodes keep directories well formed. -/
theorem Effect.dirsOk {op : InodeOp} {N : Nodes} (he : c.Effect op N) (h : c.WellFormed)
    (hallow : c.allowed op = true) : c.DirsKept N := by
  cases he with
  | same => exact h.dirs
  | alloc type i => exact h.dirs.put fun ht => ⟨ht, Nat.dvd_zero _, fun _ he => by
      rw [Node.fresh, entries_nil] at he
      cases he⟩
  | write k src off n ip v b hip hv =>
    refine h.dirs.put fun ht => absurd ht ?_
    rw [allowed, hip, Option.all_some, decide_eq_true_eq] at hallow
    obtain ⟨-, -, rfl⟩ := h.consistent.rep.of_apply hv
    exact hallow
  | trunc k ip v hv => exact h.dirs.put fun ht => ⟨ht, Nat.dvd_zero _, fun _ he => by
      rw [entries_nil] at he
      cases he⟩
  | put k ip hip =>
    exact h.dirs.frees (Fs.putNodes_frees h.consistent.rep (refs_pos hip))

/-- `dirlink` from outside. -/
theorem dirlink_leaves (h : c.WellFormed) {dp : Fin NINODE} (hdp : dp ∈ c.held) (hip : ip ∈ c.held)
    (name : List UInt8) :
    Wp (do
      ilock dp
      let _ ← dirlink dp name (c.fs.itable ip).inum
      iunlock dp
      return c.held : FsM (List (Fin NINODE))) (· ≠ .freeingFreeBlock) (c.Leaves c.DirsKept) c.fs := by
  refine wp_locked _ h.consistent hdp (by decide) fun t d ht ho hk => ?_
  have hv := ho.entry ht
  have htype : (t.itable dp).type = (t.nodeOf (t.itable dp).toDinode).type := rfl
  generalize t.nodeOf (t.itable dp).toDinode = v at hv htype
  by_cases hdir : v.type = T_DIR
  · have hisdir := h.dirs d v hv hdir
    refine (Fs.dirlink_spec ht ho hv (hk.sb ▸ hisdir) name _ (by decide)).mono fun r u hr => ?_
    cases hr with
    | refused _ hrep hkeeps => exact ⟨_, hrep, hkeeps.sb, h.dirs⟩
    | entered _ _ hrep hkeeps =>
      refine ⟨_, hrep, hkeeps.sb, h.dirs.put fun _ => ?_⟩
      exact hisdir.setEntry (Fs.Coherent.wf h.consistent).ninodes_le
        (Fs.Coherent.inum_lt h.consistent (refs_pos hip)) (length_strncpy _ _)
        List.findIdx_le_length
  · simp only [dirlink, dirlookup, inode, wp_bind, wp_get, wp_pure, htype]
    rw [if_pos hdir]
    exact Panic.noConfusion

/-- Link counts do not matter to the form of directories. -/
theorem DirsKept.links {N : Nodes} (hN : c.DirsKept N) (f : Int16 → Int16) (i : ℕ) :
    c.DirsKept (N.modify i fun w => { w with nlink := f w.nlink }) :=
  hN.modify fun w hw ht => ⟨ht, (hN i w hw ht).dvd, (hN i w hw ht).lt⟩

theorem DirsKept.reap {N : Nodes} (hN : c.DirsKept N) (U : ℕ → Prop) (i : ℕ) :
    c.DirsKept (N.reap U i) := hN.frees (Nodes.frees_reap N U i)

/-- Removing a name keeps directories well formed. -/
theorem DirsKept.unlinked {N : Nodes} (hN : c.DirsKept N) (hc : c.Consistent) (U : ℕ → Prop)
    {d k i : ℕ} {v : Node} (hv : N d = some v) (hk : k < (entries v.bytes).length) (isDir : Bool) :
    c.DirsKept (N.unlinked U d k i isDir) := by
  have hwf := Fs.Coherent.wf hc
  have hpos : 0 < c.fs.sb.ninodes := lt_trans Nat.zero_lt_one hwf.root_lt
  have h1 : c.DirsKept (N.modify d fun v => v.setEntry k .none) := hN.modify fun w hw ht => by
    rw [hv] at hw
    cases hw
    exact (hN d v hv ht).setEntry hwf.ninodes_le hpos List.length_replicate (Nat.le_of_lt hk)
  have h2 : c.DirsKept (if isDir then (N.modify d fun v => v.setEntry k .none).modify d Node.dropLink
      else N.modify d fun v => v.setEntry k .none) := by
    split
    · exact h1.links (· - 1) d
    · exact h1
  exact ((h2.reap _ d).links (· - 1) i).reap U i

theorem DirsKept.enter {N : Nodes} (hN : c.DirsKept N) (hc : c.Consistent) {d i : ℕ}
    (hi : i < c.fs.sb.ninodes) (name : List UInt8) : c.DirsKept (N.enter d i name) :=
  hN.modify fun v hv ht => (hN d v hv ht).setEntry (Fs.Coherent.wf hc).ninodes_le hi
    (length_strncpy _ _) List.findIdx_le_length

/-- Entering a new inode keeps directories well formed. -/
theorem DirsKept.created {N : Nodes} (hN : c.DirsKept N) (hc : c.Consistent) (U : ℕ → Prop)
    {d i : ℕ} (hd : d < c.fs.sb.ninodes) (hpos : 1 ≤ i) (hi : i < c.fs.sb.ninodes)
    (name : List UInt8) (type major minor : Int16) :
    c.DirsKept (N.created U d i name type major minor) := by
  have h1 : c.DirsKept (Function.update N i (some (Node.made type major minor i d))) :=
    hN.put fun hty =>
      Node.made_isDir major minor hty hpos hi hd (Fs.Coherent.wf hc).ninodes_le
  have h2 := h1.enter hc hi name (d := d)
  unfold Nodes.created
  refine DirsKept.reap (c := c) ?_ _ d
  split
  · exact h2.links (· + 1) d
  · exact h2

/-- `sys_unlink` from outside. -/
theorem unlink_leaves (h : c.WellFormed) {cwd : Fin NINODE} (hcwd : cwd ∈ c.held)
    (arg : Option (List UInt8)) :
    Wp (do
      let _ ← sysUnlink cwd arg
      return c.held : FsM (List (Fin NINODE))) (· ≠ .freeingFreeBlock) (c.Leaves c.DirsKept)
      c.fs := by
  refine (Fs.sysUnlink_spec (K := False) (R := ∅) h.consistent.rep ⟨refs_pos hcwd, rfl⟩ h.dirs arg
    (by decide) (by decide) (fun _ => by decide) False.elim False.elim).bind fun r t hr => ?_
  rw [wp_pure]
  obtain ⟨-, hr⟩ | ⟨path, N', d, name, -, hp, hu⟩ := hr
  · obtain ⟨N', hrep, hfrees, -⟩ := hr.rep
    exact ⟨N', hrep, hr.keeps.sb, h.dirs.frees hfrees⟩
  · have hN' : c.DirsKept N' := h.dirs.frees hp.frees
    cases hu with
    | refused _ N'' hrep hkeeps hfrees => exact ⟨N'', hrep, hkeeps.sb, hN'.frees hfrees⟩
    | removed _ k i v w hv _ _ _ _ hk _ _ hrep hkeeps =>
      exact ⟨_, hrep, hkeeps.sb, hN'.unlinked h.consistent _ hv hk _⟩

/-- `create` from outside. -/
theorem create_leaves (h : c.WellFormed) {cwd : Fin NINODE} (hcwd : cwd ∈ c.held)
    (path : List UInt8) {type : Int16} (major minor : Int16) (htype : type ≠ 0) :
    Wp (do
      match ← create cwd path type major minor with
      | some ip =>
        iunlock ip
        return ip :: c.held
      | none => return c.held : FsM (List (Fin NINODE))) (· ≠ .freeingFreeBlock)
      (c.Leaves c.DirsKept) c.fs := by
  refine (Fs.create_spec (K := False) (R := ∅) h.consistent.rep ⟨refs_pos hcwd, rfl⟩ h.dirs path
    major minor htype (by decide) (fun _ => by decide) False.elim False.elim).bind fun r t hr => ?_
  have hlast : ∀ {ip : Fin NINODE} {N : Nodes}, t.Rep N (addRef c.refs ip) → t.sb = c.fs.sb →
      c.DirsKept N → Wp (do
        iunlock ip
        return ip :: c.held : FsM (List (Fin NINODE))) (· ≠ .freeingFreeBlock)
        (c.Leaves c.DirsKept) t := by
    intro ip N hrep hsb hN
    refine (Fs.iunlock_rep hrep (by rw [addRef_self]; omega)).bind fun _ u hu => ?_
    subst hu
    rw [wp_pure, Leaves, refs_cons]
    exact ⟨N, hrep, hsb, hN⟩
  obtain ⟨rfl, hr⟩ | ⟨N', d, name, hp, hu⟩ := hr
  · obtain ⟨N', hrep, hfrees, -⟩ := hr.rep
    exact ⟨N', hrep, hr.keeps.sb, h.dirs.frees hfrees⟩
  · have hN' : c.DirsKept N' := h.dirs.frees hp.frees
    cases hu with
    | failed _ N'' hrep hkeeps hdirs => exact ⟨N'', hrep, hkeeps.sb, hdirs⟩
    | existing _ ip i w _ _ _ _ hrep hkeeps => exact hlast hrep hkeeps.sb (hN'.reap _ d)
    | created _ ip i v hv hpos hlt hfree _ hrep hkeeps =>
      have hd : d < c.fs.sb.ninodes := (h.consistent.rep.of_apply (hp.frees.apply hv)).1
      exact hlast hrep hkeeps.sb
        (hN'.created h.consistent _ hd hpos hlt name type major minor)

/-- A step keeps the invariant. -/
theorem WellFormed.step {op : FileOp} (h : c.WellFormed) (hs : c.fileStep op = some c') :
    c'.WellFormed := by
  rw [fileStep] at hs
  split at hs
  · cases hs
  · obtain ⟨x, hx, rfl⟩ := Option.map_eq_some_iff.mp hs
    cases op with
    | inode op =>
      rw [fileCode] at hx
      split at hx
      · rename_i hallow
        refine h.exec ((code_spec h.consistent op hx).mono fun held t ht => ?_)
        obtain ⟨N, hrep, hsb, he⟩ := ht
        exact ⟨N, hrep, hsb, he.dirsOk h hallow⟩
      · cases hx
    | dirlink dp name ip =>
      obtain ⟨dp', hdp, hx⟩ := Option.bind_eq_some_iff.mp hx
      obtain ⟨ip', hip, hx⟩ := Option.bind_eq_some_iff.mp hx
      cases hx
      exact h.exec (dirlink_leaves h (List.mem_of_getElem? hdp) (List.mem_of_getElem? hip) name)
    | unlink cwd path =>
      obtain ⟨cwd', hcwd, rfl⟩ := Option.map_eq_some_iff.mp hx
      exact h.exec (unlink_leaves h (List.mem_of_getElem? hcwd) path)
    | create cwd path type major minor =>
      rw [fileCode] at hx
      split at hx
      · rename_i htype
        obtain ⟨cwd', hcwd, rfl⟩ := Option.map_eq_some_iff.mp hx
        exact h.exec (create_leaves h (List.mem_of_getElem? hcwd) path major minor htype)
      · cases hx

/-- **Block ownership is exact.** After any run of calls, also of calls that fail half way: a block
number stored in a direct slot, the indirect slot or the indirect block of an allocated inode is a
data block marked in use; no block is in two places; a block marked in use is metadata or in exactly
one place; and no call has freed a free block. -/
theorem block_ownership_exact (h : c.WellFormed) (hrun : runFrom fileStep c ops = some c') :
    (∀ p b, c'.fs.place c'.fs.dinode p = some b → c'.fs.sb.IsData b ∧ c'.fs.bit b = true) ∧
    (∀ p q b, c'.fs.place c'.fs.dinode p = some b → c'.fs.place c'.fs.dinode q = some b → p = q) ∧
    (∀ b < c'.fs.sb.size, c'.fs.bit b = true →
      b < c'.fs.sb.dataStart ∨ ∃ p, c'.fs.place c'.fs.dinode p = some b) ∧
    c'.panicked ≠ some .freeingFreeBlock := by
  have hc : c'.WellFormed := runFrom_invariant (fun _ _ _ h hs => h.step hs) h hrun
  have hcoh : c'.fs.Coherent c'.fs.dinode c'.refs ∅ ∅ := hc.consistent
  refine ⟨fun p b hp => hcoh.exact.mem_of_eq hp, fun p q b hp hq => hcoh.exact.inj hp hq,
    fun b hb hbit => ?_, hc.no_panic⟩
  rcases Nat.lt_or_ge b c'.fs.sb.dataStart with hlt | hge
  · exact Or.inl hlt
  · rcases hcoh.exact.mem_iff.mp ⟨⟨hge, hb⟩, hbit⟩ with hX | hp
    · exact absurd hX (Set.notMem_empty b)
    · exact Or.inr hp

theorem mounted_root_wellFormed : (mounted .root).WellFormed := by
  have hrep := Image.root.rep 0
  refine ⟨mounted_consistent .root, fun i v hv _ => ?_, nofun⟩
  rw [show (mounted .root).fs.nodes = Image.root.node from hrep.nodes_eq] at hv
  obtain rfl : i = 1 := by
    have h := Image.node_lt hv
    have hlen : Image.root.files.length = 1 := rfl
    omega
  cases hv
  exact ⟨rfl, by decide, by decide⟩

/-- Create a file in the root, write ten bytes to it and remove it. -/
def createWriteUnlink : List FileOp :=
  [.inode (.iget ROOTINO), .create 0 [97] T_FILE 0 0,
    .inode (.writei 0 (.kernel (List.replicate 10 7)) 0 10), .unlink 1 (some [97])]

theorem block_ownership_exact_root : ∃ c, runFrom fileStep (mounted .root) createWriteUnlink = some c ∧
    ∀ p q b, c.fs.place c.fs.dinode p = some b → c.fs.place c.fs.dinode q = some b → p = q := by
  have h : (runFrom fileStep (mounted .root) createWriteUnlink).isSome := by decide +kernel
  obtain ⟨c, hc⟩ := Option.isSome_iff_exists.mp h
  exact ⟨c, hc, (block_ownership_exact mounted_root_wellFormed hc).2.1⟩

end Client

end Xv6
