import Xv6.Sys.Boot
import Xv6.Fs.Calls
import Xv6.Fs.Held

/-! # Regimes for the name space

A `Policy` is a property of the name space together with conditions under which an entry may be added
to a directory or removed from it. If the property survives these changes, and those every system
call makes anyway, it is kept by all system calls that meet the conditions (`Policy.regime_lawful`). -/

namespace Xv6

open Function

open Fs (Keeps)

namespace Request

variable (N : Nodes) (c : ℕ)

/-- The change does not raise a link count beyond what it can hold. -/
def Fits : Request → Prop
  | .link old _ => ∀ i e w, N.resolve c old false = some (i, e) → N i = some w → w.type ≠ T_DIR →
      w.nlink ≠ 32767
  | _ => True

/-- If the change enters a new name in a directory `d`, then `Q d`. -/
def Enters (Q : ℕ → Prop) : Request → Prop
  | .create path _ => ∀ d name, N.resolve c path true = some (d, name) → N.child d name = none → Q d
  | .link _ new => ∀ d name, N.resolve c new true = some (d, name) → N.child d name = none → Q d
  | .unlink _ => True

/-- If the change removes a name of `i` from a directory `d`, then `Q d i`. -/
def Leaves (Q : ℕ → ℕ → Prop) : Request → Prop
  | .unlink path => ∀ d name i, N.resolve c path true = some (d, name) → N.child d name = some i →
      Q d i
  | _ => True

theorem enters_of_forall {Q : ℕ → Prop} (h : ∀ d, Q d) (r : Request) : r.Enters N c Q := by
  cases r with
  | create path type => exact fun d _ _ _ => h d
  | link old new => exact fun d _ _ _ => h d
  | unlink path => exact trivial

theorem leaves_of_forall {Q : ℕ → ℕ → Prop} (h : ∀ d i, Q d i) (r : Request) : r.Leaves N c Q := by
  cases r with
  | create path type => exact trivial
  | link old new => exact trivial
  | unlink path => exact fun d _ i _ _ => h d i

/-- Only `sys_link` raises link counts that could overflow. -/
theorem fits_of_ne {call : Call} {r : Request} (hr : call.request = some r)
    (h : ∀ old new, call ≠ .link old new) : r.Fits N c := by
  cases r with
  | create path type => exact trivial
  | unlink path => exact trivial
  | link old new =>
    cases call with
    | link oldArg newArg => exact absurd rfl (h oldArg newArg)
    | sysOpen arg omode =>
      rw [Call.request] at hr
      split at hr
      · simp at hr
      · cases hr
    | mkdir arg => simp [Call.request] at hr
    | mknod arg major minor => simp [Call.request] at hr
    | unlink arg => simp [Call.request] at hr
    | _ => cases hr

end Request

/-- A property of the nodes with users, and when entries may come (in directory `d`) and go (of `c`
in directory `d`). `NoType` says that path lookup may run into an inode without type. -/
structure Policy where
  Inv : Nodes → (ℕ → Prop) → Set ℕ → ℕ → Prop
  Enter : Nodes → ℕ → ℕ → Prop
  Leave : Nodes → (ℕ → Prop) → ℕ → ℕ → ℕ → Prop
  NoType : Prop

namespace Policy

/-- What a policy owes. -/
structure Lawful (P : Policy) : Prop where
  grow : ∀ {N U O n y v}, Nodes.Held N U O n → P.Inv N U O n → y ∉ O → N y = some v →
    P.Inv N (fun x => U x ∨ x = y) O n
  reap : ∀ {N : Nodes} {U O n y}, N.Held (fun x => U x ∨ x = y) O n →
    P.Inv N (fun x => U x ∨ x = y) O n → P.Inv (N.reap U y) U O n
  bytes : ∀ {N U O n i v}, Nodes.Held N U O n → P.Inv N U O n → N i = some v → v.type ≠ T_DIR →
    ∀ b, P.Inv (update N i (some { v with bytes := b })) U O n
  make : ∀ {N N' : Nodes} {U O n d c w}, N.Held U O n → P.Inv N U O n → P.Enter N n d → U d →
    N c = none → w.nlink = 0 → (w.type = T_DIR → w.slots = [] ∧ w.up = d) →
    Nodes.Tree (update N c (some w)) n →
    Nodes.Relink (update N c (some w)) N' n d c 0 1 → N'.Tree n →
    P.Inv N' (fun x => U x ∨ x = c) O n
  link : ∀ {N N' : Nodes} {U O n d c}, N.Held U O n → P.Inv N U O n → P.Enter N n d → U d → U c →
    N.isDir c = false → Nodes.Relink N N' n d c 0 1 → N'.Tree n → P.Inv N' U O n
  leave : ∀ {N N' : Nodes} {U O n d c w}, N.Held U O n → P.Inv N U O n → P.Leave N U n d c →
    d ∉ O → c ∉ O → N c = some w → (w.type = T_DIR → ∀ de ∈ w.slots, de.inum = 0) →
    Nodes.Relink N N' n d c 1 0 → N'.Tree n →
    P.Inv ((N'.reap (fun x => U x ∨ x = c) d).reap U c) U O n
  alloc : ¬ P.NoType → ∀ {N U O n i v}, Nodes.Held N U O n → P.Inv N U O n → i ∉ O → N i = some v →
    v.type = T_DIR → ∃ u, N v.up = some u

/-- The state satisfies the policy; table entries in use were read, except perhaps that of the
root. -/
structure Sound (P : Policy) (O : Set ℕ) (s : Fs) (H : Fin NINODE → ℕ) : Prop where
  rep : s.Rep s.nodes H
  known : ∀ ip, 0 < H ip → (s.itable ip).valid = true ∨ (s.itable ip).inum = ROOTINO
  held : s.nodes.Held (s.InUse H) O s.sb.ninodes
  inv : P.Inv s.nodes (s.InUse H) O s.sb.ninodes

/-- The changes the policy permits a process in directory `c`. -/
def Allowed (P : Policy) (s : Fs) (H : Fin NINODE → ℕ) (c : ℕ) (r : Request) : Prop :=
  r.Fits s.nodes c ∧ r.Enters s.nodes c (P.Enter s.nodes s.sb.ninodes) ∧
    r.Leaves s.nodes c (P.Leave s.nodes (s.InUse H) s.sb.ninodes)

/-- The regime of a policy. -/
def regime (P : Policy) (O : Set ℕ) : Regime := ⟨P.Sound O, P.Allowed, P.NoType⟩

variable {P : Policy} {O : Set ℕ} {s t u : Fs} {H H' : Fin NINODE → ℕ} {N' : Nodes}
  {cwd ip jp : Fin NINODE} {c d i j : ℕ} {v w : Node} {name path : List UInt8}

namespace Sound

theorem of_rep (hrep : t.Rep N' H)
    (hknown : ∀ ip, 0 < H ip → (t.itable ip).valid = true ∨ (t.itable ip).inum = ROOTINO)
    (hheld : N'.Held (t.InUse H) O t.sb.ninodes) (hinv : P.Inv N' (t.InUse H) O t.sb.ninodes) :
    P.Sound O t H := by
  obtain rfl := hrep.nodes_eq
  exact ⟨hrep, hknown, hheld, hinv⟩

theorem known_keep (h : P.Sound O s H) (hk : Keeps H s t) (hip : 0 < H ip) :
    (t.itable ip).valid = true ∨ (t.itable ip).inum = ROOTINO := by
  rcases h.known ip hip with hv | hroot
  · exact .inl (hk.valid ip hip hv).1
  · exact .inr ((hk.inum ip hip).trans hroot)

/-- One more entry is in use, and it was read. -/
theorem known_addRef (h : P.Sound O s H) (hk : Keeps H s t) (hv : (t.itable jp).valid = true)
    (hip : 0 < addRef H jp ip) : (t.itable ip).valid = true ∨ (t.itable ip).inum = ROOTINO := by
  by_cases hij : ip = jp
  · exact .inl (hij ▸ hv)
  · rw [addRef_apply, if_neg hij] at hip
    exact h.known_keep hk hip

/-- Nothing changes that the policy sees. -/
theorem keep (h : P.Sound O s H) (hrep : t.Rep s.nodes H) (hk : Keeps H s t) : P.Sound O t H := by
  refine .of_rep hrep (fun ip => h.known_keep hk) ?_ ?_
  · rw [hk.inUse_eq, hk.sb]
    exact h.held
  · rw [hk.inUse_eq, hk.sb]
    exact h.inv

theorem used (h : P.Sound O s H) (hi : s.InUse H i) : ∃ v, s.nodes i = some v := h.held.used i hi

/-- An inode that was read comes into use. -/
theorem gain (L : P.Lawful) (h : P.Sound O s H) (hrep : t.Rep s.nodes (addRef H jp)) (hk : Keeps H s t)
    (ho : t.Opened (addRef H jp) jp j) (hj : j ∉ O) : P.Sound O t (addRef H jp) := by
  have huse : t.InUse (addRef H jp) = fun x => s.InUse H x ∨ x = j := by
    rw [Fs.inUse_addRef ho.inum, hk.inUse_eq]
  refine .of_rep hrep (fun ip => h.known_addRef hk ho.valid) ?_ ?_
  · rw [huse, hk.sb]
    exact h.held.grow hj (ho.entry hrep)
  · rw [huse, hk.sb]
    exact L.grow h.held h.inv hj (ho.entry hrep)

/-! ## Lookup -/

/-- The inodes that lookup may come to. -/
def Open (P : Policy) (O : Set ℕ) (N : Nodes) : Set ℕ :=
  { i | i ∉ O ∧ (¬ P.NoType → ∃ v, N i = some v) }

theorem child_open (L : P.Lawful) (h : P.Sound O s H) (hi : i ∈ Open P O s.nodes)
    (hc : s.nodes.child i name = some j) : j ∈ Open P O s.nodes := by
  refine ⟨h.held.child hi.1 hc, fun hno => ?_⟩
  obtain ⟨v, hv, ht, rfl | rfl | ⟨hj, hij⟩⟩ := h.held.tree.child_leads hc
  · exact ⟨v, hv⟩
  · exact L.alloc hno h.held h.inv hi.1 hv ht
  · exact h.held.tree.alloc i j hj hij

/-- Lookup is safe. -/
theorem ready (L : P.Lawful) (h : P.Sound O s H) (hcwd : 0 < H cwd) :
    s.Ready s.nodes H (Open P O s.nodes) (P.regime O).Error cwd (s.itable cwd).inum := by
  have huse : s.InUse H (s.itable cwd).inum := ⟨cwd, hcwd, rfl⟩
  refine ⟨h.rep, ⟨hcwd, rfl⟩, ?_, ⟨fun i hi name j hc => h.child_open L hi hc, ?_⟩, ?_, ?_,
    fun i hi => h.used hi, nofun⟩
  · exact fun i v hv ht => (h.held.tree.shape i v hv ht).isDir
  · exact fun i hi v hv h0 => h.held.kept i v hv h0 hi.1
  · intro path
    rw [Nodes.start]
    split
    · obtain ⟨v, hv, -⟩ := h.held.tree.root
      exact ⟨h.held.root, fun _ => ⟨v, hv⟩⟩
    · exact ⟨h.held.notMem huse, fun _ => h.used huse⟩
  · intro i hi hnone _
    by_contra hno
    obtain ⟨v, hv⟩ := hi.2 hno
    rw [hnone] at hv
    cases hv

theorem namei (L : P.Lawful) (h : P.Sound O s H) (hcwd : 0 < H cwd) (path : List UInt8) :
    Wp (namei cwd path) (P.regime O).Error ((P.regime O).Finds H s) s := by
  have hready := h.ready L hcwd
  refine (hready.namei path).mono fun r t hr => ?_
  obtain ⟨r, rfl, hr⟩ := hr
  cases hr with
  | failed _ hrep hk => exact ⟨h.keep hrep hk, hk⟩
  | reached _ jp j name hrep hk holds hj _ _ =>
    refine (Fs.ilock_rep hrep holds (hready.alloc j hj)).mono fun _ u ⟨hrepu, hku, hopen⟩ => ?_
    have hk' : Keeps H s u := hk.trans hku.of_addRef
    exact ⟨h.gain L hrepu hk' hopen hj.1, hk', hopen.valid⟩

/-! ## References -/

theorem congr (h : P.Sound O s H) (hsb : t.sb = s.sb) (hcache : t.cache = s.cache)
    (htable : t.itable = s.itable) : P.Sound O t H :=
  h.keep (h.rep.congr hsb hcache htable) (.of_itable hsb htable)

theorem dup (h : P.Sound O s H) (hip : 0 < H ip) :
    P.Sound O (s.setInode ip fun e => { e with ref := e.ref + 1 }) (addRef H ip) := by
  have hdup := Fs.idup_rep (E := fun _ => True) h.rep ⟨hip, rfl⟩
  simp only [idup, modifyInode, wp_bind, wp_modify, wp_pure, true_and] at hdup
  have huse : (s.setInode ip fun e => { e with ref := e.ref + 1 }).InUse (addRef H ip) =
      s.InUse H := by
    rw [Fs.inUse_addRef hdup.inum, hdup.keeps.inUse_eq]
    funext x
    exact propext ⟨fun hx => hx.elim id fun he => he ▸ ⟨ip, hip, rfl⟩, Or.inl⟩
  refine .of_rep hdup.rep (fun jp hjp => ?_) (huse ▸ hdup.keeps.sb ▸ h.held)
    (huse ▸ hdup.keeps.sb ▸ h.inv)
  refine h.known_keep hdup.keeps ?_
  by_cases hj : jp = ip
  · exact hj ▸ hip
  · rwa [addRef_apply, if_neg hj] at hjp

theorem put (L : P.Lawful) (h : P.Sound O s (addRef H ip)) :
    Wp (iput ip) (P.regime O).Error (fun _ t => (P.regime O).Leaves H s t) s := by
  have hip : 0 < addRef H ip ip := by
    rw [addRef_self]
    omega
  have huse : s.InUse (addRef H ip) = fun x => s.InUse H x ∨ x = (s.itable ip).inum :=
    Fs.inUse_addRef rfl
  have hheld := h.held
  have hinv := h.inv
  rw [huse] at hheld hinv
  have hdrop := L.reap hheld hinv
  have hnodes : s.putNodes s.nodes (addRef H ip) ip = s.nodes.reap (s.InUse H) (s.itable ip).inum := by
    rcases h.known ip hip with hv | hroot
    · exact Fs.putNodes_addRef h.rep ⟨⟨hip, rfl⟩, hv⟩
    · -- the root has links
      obtain ⟨v, hv, ht, -⟩ := h.held.tree.root
      have h0 : v.nlink ≠ 0 := fun h0 => ((h.held.tree.of_nlink_zero hv h0).2 ht).2 rfl
      rw [hroot, Nodes.reap_of_linked hv h0, Fs.putNodes, if_neg]
      rintro ⟨-, hvalid, hz⟩
      have hentry := h.rep.entry hip hvalid
      rw [hroot, hv] at hentry
      exact h0 ((congrArg Node.nlink (Option.some.inj hentry)).trans hz)
  refine (Fs.iput_rep h.rep hip).mono fun _ t ht => ?_
  rw [hnodes, dropRef_addRef] at ht
  obtain ⟨hrep, hk⟩ := ht
  refine ⟨.of_rep hrep (fun jp hjp => ?_) ?_ ?_, hk⟩
  · rcases h.known jp (lt_of_lt_of_le hjp (le_addRef H ip jp)) with hv | hroot
    · exact .inl (hk.valid jp hjp hv).1
    · exact .inr ((hk.inum jp hjp).trans hroot)
  · rw [hk.inUse_eq, hk.sb]
    exact hheld.reap
  · rw [hk.inUse_eq, hk.sb]
    exact hdrop

/-! ## Contents of files -/

theorem bytes (L : P.Lawful) (h : P.Sound O s H) (hv : s.nodes i = some v) (ht : v.type ≠ T_DIR)
    {b : List UInt8} (hrep : t.Rep (update s.nodes i (some { v with bytes := b })) H)
    (hk : Keeps H s t) : P.Sound O t H := by
  refine .of_rep hrep (fun ip => h.known_keep hk) ?_ ?_
  · rw [hk.inUse_eq, hk.sb]
    exact h.held.bytes hv ht b
  · rw [hk.inUse_eq, hk.sb]
    exact L.bytes h.held h.inv hv ht b

/-! ## Changes of the name space -/

theorem or_comm_eq (U : ℕ → Prop) (a b : ℕ) :
    (fun x => (U x ∨ x = a) ∨ x = b) = fun x => (U x ∨ x = b) ∨ x = a :=
  funext fun _ => propext or_right_comm

/-- The parent directory that a walk ends in. -/
theorem resolve_open (L : P.Lawful) (h : P.Sound O s H) (hcwd : 0 < H cwd) {parent : Bool}
    (hres : s.nodes.resolve (s.itable cwd).inum path parent = some (d, name)) :
    d ∈ Open P O s.nodes :=
  Nodes.walk_mem (fun _ hi _ _ hc => h.child_open L hi hc) ((h.ready L hcwd).start path) hres

/-- An inode that lookup may come to is freed only when it is not in use. -/
theorem kept_of_open (L : P.Lawful) (h : P.Sound O s H) (hd : d ∈ Open P O s.nodes)
    (hi : i = d ∨ s.nodes.child d name = some i) (hv : s.nodes i = some v) (h0 : v.nlink = 0) :
    s.InUse H i := by
  refine h.held.kept i v hv h0 ?_
  rcases hi with rfl | hc
  · exact hd.1
  · exact (h.child_open L hd hc).1

theorem unlink (L : P.Lawful) (h : P.Sound O s H) (hcwd : 0 < H cwd) {arg : Option (List UInt8)}
    (hallow : ∀ r, (Call.unlink arg).request = some r → P.Allowed s H (s.itable cwd).inum r) :
    Wp (sysUnlink cwd arg) (P.regime O).Error (fun _ t => (P.regime O).Leaves H s t) s := by
  have hready := h.ready L hcwd
  refine (Fs.sysUnlink_spec (K := True) h.rep hready.holds hready.dirs arg nofun nofun
    (fun hk => absurd trivial hk) (fun _ => ⟨hready.safe, hready.start⟩)
    fun _ => hready.alloc).mono fun r t hr => ?_
  obtain ⟨-, ⟨N', hrep, -, hsame⟩, hk⟩ | ⟨path, N', d, name, harg, hparent, hr⟩ := hr
  · exact ⟨h.keep (hsame trivial ▸ hrep) hk, hk⟩
  obtain ⟨rfl, hres⟩ := hparent.same trivial
  have hd := h.resolve_open L hcwd hres
  cases hr with
  | refused _ N' hrep hk _ hsame =>
    rw [hsame fun i hi v hv h0 => h.kept_of_open L hd hi hv h0] at hrep
    exact ⟨h.keep hrep hk, hk⟩
  | removed _ k c v w hv hw hname hfind hc _ hlink hempty hrep hk =>
    have htree := h.held.tree
    have hn := h.rep.coherent.wf.ninodes_le
    have hr := Nodes.Relink.cleared htree hn hv hw hname hfind hc hlink
    have hcO := (h.child_open L hd hc).1
    have hleave := (hallow (.unlink path) (by rw [Call.request, harg]; rfl)).2.2 d name c hres hc
    have hheld := ((h.held.grow hcO hw).grow hd.1 hv).relink hr (htree.leave hr) (.inr rfl)
      (.inl (.inr rfl))
    rw [Nodes.unlinked_eq _ _ _ _ hr.ne] at hrep
    refine ⟨.of_rep hrep (fun ip => h.known_keep hk) ?_ ?_, hk⟩
    · rw [hk.inUse_eq, hk.sb]
      exact hheld.reap.reap
    · rw [hk.inUse_eq, hk.sb]
      exact L.leave h.held h.inv hleave hd.1 hcO hw hempty hr (htree.leave hr)

theorem create (L : P.Lawful) (h : P.Sound O s H) (hcwd : 0 < H cwd) {type : Int16} (htype : type ≠ 0)
    (hallow : P.Allowed s H (s.itable cwd).inum (.create path type)) (major minor : Int16) :
    Wp (create cwd path type major minor) (P.regime O).Error
      ((P.regime O).Locks H (fun found => type = T_FILE → found ≠ T_DIR) s) s := by
  have hready := h.ready L hcwd
  refine (Fs.create_spec (K := True) h.rep hready.holds hready.dirs path major minor htype nofun
    (fun hk => absurd trivial hk) (fun _ => ⟨hready.safe, hready.start⟩)
    fun _ => hready.alloc).mono fun r t hr => ?_
  obtain ⟨rfl, ⟨N', hrep, -, hsame⟩, hk⟩ | ⟨N', d, name, hparent, hr⟩ := hr
  · exact ⟨h.keep (hsame trivial ▸ hrep) hk, hk⟩
  obtain ⟨rfl, hres⟩ := hparent.same trivial
  obtain ⟨v, hv, ht⟩ := hparent.isDir
  have hd := h.resolve_open L hcwd hres
  cases hr with
  | failed _ N' hrep hk _ hsame =>
    rw [hsame (fun i hi v hv h0 => h.kept_of_open L hd hi hv h0) fun i hnone hi => ?_] at hrep
    · exact ⟨h.keep hrep hk, hk⟩
    · obtain ⟨u, hu⟩ := h.used hi
      rw [hnone] at hu
      cases hu
  | existing _ ip c w hc hw hfile hwt hrep hk hopen =>
    rw [Nodes.reap_of_kept fun v hv h0 => Or.inl (h.held.kept d v hv h0 hd.1)] at hrep hw
    refine ⟨h.gain L hrep hk hopen (h.child_open L hd hc).1, hk, hopen.valid, fun _ hdir => ?_⟩
    rw [hopen.node hrep hw] at hwt
    rcases hwt with hwt | hwt <;> exact absurd (hwt.symm.trans hdir) (by decide)
  | created _ ip c u hu hpos hlt hfree hfind hrep hk hopen =>
    obtain rfl := Option.some.inj (hv.symm.trans hu)
    have htree := h.held.tree
    have hn := h.rep.coherent.wf.ninodes_le
    have hdpos := (htree.pos d v hv).1
    have hlink : type = T_DIR → v.nlink ≠ 32767 := fun _ =>
      htree.nlink_ne hv ht (h.rep.length_le hv)
    have hnew : (Node.unnamed type major minor c d).type = T_DIR →
        (Node.unnamed type major minor c d).slots = [] ∧
          (Node.unnamed type major minor c d).up = d := by
      intro hty
      obtain ⟨-, hslots, hup⟩ :=
        Node.unnamed_shape major minor hty hpos hlt (htree.lt hv) (by omega) hn
      exact ⟨hslots, hup⟩
    have hr : Nodes.Relink (update s.nodes c (some (Node.unnamed type major minor c d)))
        (s.nodes.filled d c name type major minor) s.sb.ninodes d c 0 1 :=
      .filled htree hn hv ht hpos hlt hfree hfind hlink
    have htree' : (s.nodes.filled d c name type major minor).Tree s.sb.ninodes :=
      htree.filled hn hv ht hpos hlt hfree hfind hlink
    have hin := h.held.grow hd.1 hv
    have hbare : Nodes.Tree (update s.nodes c (some (Node.unnamed type major minor c d)))
        s.sb.ninodes := htree.unnamed hn hv hpos hlt hfree
    have hheld := (hin.add hfree (fun hty => ⟨(hnew hty).1, (hnew hty).2.symm ▸ hd.1⟩)
      hbare).relink hr htree' (.inl (.inr rfl)) (.inr rfl)
    have hinv := L.make hin (L.grow h.held h.inv hd.1 hv)
      (hallow.2.1 d name hres (Nodes.child_of_missing hv ht hfind)) (.inr rfl) hfree rfl hnew hbare hr
      htree'
    rw [or_comm_eq] at hheld hinv
    have huse : t.InUse (addRef H ip) = fun x => s.InUse H x ∨ x = c := by
      rw [Fs.inUse_addRef hopen.inum, hk.inUse_eq]
    rw [Nodes.created_eq] at hrep
    refine ⟨.of_rep hrep (fun jp => h.known_addRef hk hopen.valid) ?_ ?_, hk, hopen.valid, ?_⟩
    · rw [huse, hk.sb]
      exact hheld.reap
    · rw [huse, hk.sb]
      exact L.reap hheld hinv
    · intro hfile hdir
      have hself := hopen.node hrep (Nodes.created_self hfree hv)
      have : type = (t.itable ip).type := congrArg Node.type hself
      rw [← this, hfile] at hdir
      exact absurd hdir (by decide)

theorem link (L : P.Lawful) (h : P.Sound O s H) (hcwd : 0 < H cwd) {oldArg newArg : Option (List UInt8)}
    (hallow : ∀ r, (Call.link oldArg newArg).request = some r →
      P.Allowed s H (s.itable cwd).inum r) :
    Wp (sysLink cwd oldArg newArg) (P.regime O).Error (fun _ t => (P.regime O).Leaves H s t) s := by
  refine ((h.ready L hcwd).sysLink oldArg newArg).mono fun r t hr => ?_
  cases hr with
  | refused _ hrep hk => exact ⟨h.keep hrep hk, hk⟩
  | linked _ old new empty name i d w v hold hnew hi hd hiR hdR hw hwt hv ht hfind hrep hk =>
    have hall := hallow (.link old new) (by rw [Call.request, hold, hnew]; rfl)
    have htree := h.held.tree
    have hn := h.rep.coherent.wf.ninodes_le
    have hnlink := hall.1 i empty w hi hw hwt
    have hr := Nodes.Relink.linked htree hn hv ht hw hwt hfind hnlink
    have htree' := htree.linked hn hv ht hw hwt hfind hnlink
    have hin := (h.held.grow hiR.1 hw).grow hdR.1 hv
    have hheld := hin.relink hr htree' (.inr rfl) (.inl (.inr rfl))
    have hfile : s.nodes.isDir i = false := by rw [Nodes.isDir_eq_decide hw, decide_eq_false hwt]
    have hinv := L.link hin (L.grow (h.held.grow hiR.1 hw) (L.grow h.held h.inv hiR.1 hw) hdR.1 hv)
      (hall.2.1 d name hd (Nodes.child_of_missing hv ht hfind)) (.inr rfl) (.inl (.inr rfl)) hfile hr
      htree'
    -- giving the directory back frees nothing
    have hsame : (s.nodes.linked d i name).reap (fun x => s.InUse H x ∨ x = i) d =
        s.nodes.linked d i name := by
      refine Nodes.reap_of_kept fun u hu h0 => .inl (h.held.kept d v hv ?_ hdR.1)
      rw [Nodes.linked, Nodes.enter, Nodes.modify_self, Nodes.modify_of_ne _ _ hr.ne.symm, hv] at hu
      cases hu
      exact h0
    have hheld' := hheld.reap
    have hinv' := L.reap hheld hinv
    rw [hsame] at hheld' hinv'
    refine ⟨.of_rep hrep (fun ip => h.known_keep hk) ?_ ?_, hk⟩
    · rw [hk.inUse_eq, hk.sb]
      exact hheld'.reap
    · rw [hk.inUse_eq, hk.sb]
      exact L.reap hheld' hinv'

end Sound

/-- **The system calls keep a lawful policy.** -/
theorem regime_lawful (L : P.Lawful) (O : Set ℕ) : (P.regime O).Lawful where
  rep := fun h => ⟨_, h.rep⟩
  congr := Sound.congr
  allowed := fun {s t H c r} h hsb hcache htable => by
    have hnodes := Fs.nodes_congr hsb hcache
    have huse : t.InUse H = s.InUse H := by
      funext i
      rw [Fs.InUse, Fs.InUse, htable]
    show P.Allowed t H c r
    rw [Allowed, hnodes, hsb, huse]
    exact h
  dup := Sound.dup
  put := Sound.put L
  trunc := fun {s H ip} h hip hv ht => by
    have hopen : s.Opened H ip (s.itable ip).inum := ⟨⟨hip, rfl⟩, hv⟩
    refine (Fs.itrunc_rep h.rep hopen (hopen.entry h.rep)).mono fun _ t hr => ?_
    exact ⟨h.bytes L (hopen.entry h.rep) ht hr.2 hr.1, hr.1⟩
  write := fun {s H ip n} h hip hv ht src off hn => by
    have hopen : s.Opened H ip (s.itable ip).inum := ⟨⟨hip, rfl⟩, hv⟩
    refine (Fs.writei_rep h.rep hopen (hopen.entry h.rep) src off hn).mono fun _ t ⟨b, hw⟩ => ?_
    exact ⟨h.bytes L (hopen.entry h.rep) ht hw.rep hw.keeps, hw.keeps⟩
  namei := Sound.namei L
  create := fun h hcwd htype hallow => h.create L hcwd htype hallow
  link := fun h hcwd hallow => h.link L hcwd hallow
  unlink := fun h hcwd hallow => h.unlink L hcwd hallow

/-! ## Runs -/

section Runs

variable {m : ℕ} {initproc : Fin m} {σ τ : Sys m} {as : List (Fin m × Call)}

/-- A run without `sys_link` has no overflow. -/
theorem allSteps_fits (h : ∀ a ∈ as, ∀ old new, a.2 ≠ .link old new) :
    AllSteps (Sys.step initproc) (fun ρ a _ => ∀ c r, ρ.Asks a c r → r.Fits ρ.fs.nodes c) σ as :=
  (allSteps_of_forall h).mono fun ρ _ _ ha c _ hask =>
    Request.fits_of_ne ρ.fs.nodes c hask.1 ha

/-- **A lawful policy is kept in every run** from a disk that satisfies it, as long as the calls meet
its conditions. -/
theorem run (L : P.Lawful) (hs : s.Rep s.nodes fun _ => 0) (htree : s.nodes.Tree s.sb.ninodes)
    (hinv : P.Inv s.nodes (fun _ => False) s.nodes.lost s.sb.ninodes)
    (hinit : userinit initproc (Sys.boot s) = .ok ((), σ))
    (hrun : runFrom (Sys.step initproc) σ as = some τ)
    (hallow : AllSteps (Sys.step initproc)
      (fun ρ a _ => ∀ c r, ρ.Asks a c r → P.Allowed ρ.fs ρ.refs c r) σ as) :
    τ.Inv (P.regime s.nodes.lost) 0 0 := by
  refine Sys.Inv.run (regime_lawful L _) (Sys.Inv.userinit hs (fun ip t hg => ?_) hinit) hrun hallow
  -- only the root is in use
  obtain ⟨v, hv, -⟩ := htree.root
  have hnone : s.InUse (0 : Fin NINODE → ℕ) = fun _ => False := by
    funext i
    simp [Fs.InUse]
  have huse : t.InUse (addRef 0 ip) = fun x => False ∨ x = ROOTINO := by
    rw [Fs.inUse_addRef hg.inum, hg.keeps.inUse_eq, hnone]
  refine .of_rep hg.rep (fun jp hjp => .inr ?_) ?_ ?_
  · by_cases hj : jp = ip
    · exact hj ▸ hg.inum
    · rw [addRef_apply, if_neg hj] at hjp
      exact absurd hjp (Nat.lt_irrefl 0)
  · rw [huse, hg.keeps.sb]
    exact htree.held.grow htree.held.root hv
  · rw [huse, hg.keeps.sb]
    exact L.grow htree.held hinv htree.held.root hv

end Runs

end Policy

end Xv6
