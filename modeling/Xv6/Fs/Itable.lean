import Xv6.Fs.Write

/-! # The inode table

References to table entries come from `iget` and `idup` and are dropped by `iput`. While a
reference is held the entry stays with its inode, and once `ilock` has read it it stays valid. The
last reference to an inode without links frees the inode. -/

namespace Xv6

open Function

/-- One more reference to entry `ip` of a table. -/
def addRef {size : ℕ} (H : Fin size → ℕ) (ip : Fin size) : Fin size → ℕ :=
  update H ip (H ip + 1)

/-- One reference to entry `ip` less. -/
def dropRef {size : ℕ} (H : Fin size → ℕ) (ip : Fin size) : Fin size → ℕ :=
  update H ip (H ip - 1)

section Refs

variable {size : ℕ} (H : Fin size → ℕ) (ip jp : Fin size)

theorem addRef_apply : addRef H ip jp = if jp = ip then H ip + 1 else H jp := by
  simp [addRef, update_apply]

theorem dropRef_apply : dropRef H ip jp = if jp = ip then H ip - 1 else H jp := by
  simp [dropRef, update_apply]

@[simp] theorem addRef_self : addRef H ip ip = H ip + 1 := by simp [addRef]

theorem addRef_pos : 0 < addRef H ip ip := by
  rw [addRef_self]
  exact Nat.succ_pos _

@[simp] theorem dropRef_addRef : dropRef (addRef H ip) ip = H := by
  funext jp
  rw [dropRef_apply, addRef_self, addRef_apply]
  by_cases h : jp = ip <;> simp [h]

theorem le_addRef : H jp ≤ addRef H ip jp := by
  rw [addRef_apply]
  split <;> simp_all

theorem addRef_comm : addRef (addRef H ip) jp = addRef (addRef H jp) ip := by
  funext kp
  simp only [addRef_apply]
  by_cases h1 : kp = ip <;> by_cases h2 : kp = jp
  · subst h1 h2
    simp
  · subst h1
    simp [h2]
  · subst h2
    simp [h1]
  · simp [h1, h2]

end Refs

/-- An inode that is not allocated any more. -/
def Dinode.released (d : Dinode) : Dinode := { d.emptied with type := 0 }

namespace Fs

/-- The entries to which references are held stay with their inodes, and valid ones stay valid and
of their type. -/
structure Keeps (H : Fin NINODE → ℕ) (s t : Fs) : Prop where
  sb : t.sb = s.sb
  inum : ∀ ip, 0 < H ip → (t.itable ip).inum = (s.itable ip).inum
  valid : ∀ ip, 0 < H ip → (s.itable ip).valid = true →
    (t.itable ip).valid = true ∧ (t.itable ip).type = (s.itable ip).type

variable {s t u : Fs} {D : ℕ → Dinode} {H H' : Fin NINODE → ℕ} {W X X' : Set ℕ} {E : Panic → Prop}
  {ip jp : Fin NINODE} {i j k n inum : ℕ} {d : Dinode}

namespace Keeps

/-- Nothing happens to the table. -/
theorem of_itable (hsb : t.sb = s.sb) (htable : t.itable = s.itable) : Keeps H s t :=
  ⟨hsb, fun ip _ => by rw [htable], fun ip _ hv => by rw [htable]; exact ⟨hv, rfl⟩⟩

theorem refl (H : Fin NINODE → ℕ) (s : Fs) : Keeps H s s := of_itable rfl rfl

theorem trans (h : Keeps H s t) (h' : Keeps H t u) : Keeps H s u :=
  ⟨h'.sb.trans h.sb, fun ip hip => (h'.inum ip hip).trans (h.inum ip hip),
    fun ip hip hv =>
      have hm := h.valid ip hip hv
      have hu := h'.valid ip hip hm.1
      ⟨hu.1, hu.2.trans hm.2⟩⟩

/-- Fewer references ask for less. -/
theorem mono (h : Keeps H s t) (hH : ∀ ip, 0 < H' ip → 0 < H ip) : Keeps H' s t :=
  ⟨h.sb, fun ip hip => h.inum ip (hH ip hip), fun ip hip => h.valid ip (hH ip hip)⟩

theorem of_addRef (h : Keeps (addRef H ip) s t) : Keeps H s t :=
  h.mono fun jp hjp => lt_of_lt_of_le hjp (le_addRef H ip jp)

/-- A change of one entry, which keeps what the references to it ask for. -/
theorem setInode (f : Inode → Inode) (hinum : 0 < H ip → (f (s.itable ip)).inum = (s.itable ip).inum)
    (hvalid : 0 < H ip → (s.itable ip).valid = true →
      (f (s.itable ip)).valid = true ∧ (f (s.itable ip)).type = (s.itable ip).type) :
    Keeps H s (s.setInode ip f) := by
  refine ⟨rfl, fun jp hjp => ?_, fun jp hjp hv => ?_⟩
  · rcases eq_or_ne jp ip with rfl | hne
    · rw [setInode_same]
      exact hinum hjp
    · rw [setInode_ne _ _ hne]
  · rcases eq_or_ne jp ip with rfl | hne
    · rw [setInode_same]
      exact hvalid hjp hv
    · rw [setInode_ne _ _ hne]
      exact ⟨hv, rfl⟩

end Keeps

theorem Touches.keeps {D' : ℕ → Dinode} (h : Touches ip i s D t D') (H : Fin NINODE → ℕ) :
    Keeps H s t := by
  refine ⟨h.sb, fun jp _ => ?_, fun jp _ hv => ?_⟩
  · rcases eq_or_ne jp ip with rfl | hjp
    · exact h.entry.1
    · rw [h.table jp hjp]
  · rcases eq_or_ne jp ip with rfl | hjp
    · exact ⟨h.entry.2.2.1.trans hv, h.entry.2.2.2⟩
    · rw [h.table jp hjp]
      exact ⟨hv, rfl⟩

/-! ## Getting references -/

namespace Coherent

/-- A change of one table entry that is not under change. -/
theorem setEntry (h : s.Coherent D H W X) (f : Inode → Inode)
    (href : (f (s.itable ip)).ref = H' ip) (hH : ∀ jp, jp ≠ ip → H' jp = H jp)
    (hinum : 0 < H' ip → (f (s.itable ip)).inum < s.sb.ninodes)
    (hinj : 0 < H' ip → ∀ jp, jp ≠ ip → 0 < H jp →
      (s.itable jp).inum ≠ (f (s.itable ip)).inum)
    (hvalid : 0 < H' ip → (f (s.itable ip)).valid = true → (f (s.itable ip)).inum ∉ W →
      (f (s.itable ip)).toDinode = D (f (s.itable ip)).inum ∧ (D (f (s.itable ip)).inum).type ≠ 0) :
    (s.setInode ip f).Coherent D H' W X := by
  refine ⟨h.wf, h.exact, h.meta_bits, h.end_bits,
    fun i hi hiW ht => ⟨(h.sized i hi hiW ht).1, (h.sized i hi hiW ht).2⟩, h.synced, ?_⟩
  refine ⟨fun jp => ?_, fun jp hjp => ?_, fun jp kp hjp hkp heq => ?_, fun jp hjp hv hjW => ?_⟩
  · rcases eq_or_ne jp ip with rfl | hne
    · rw [setInode_same, href]
    · rw [setInode_ne _ _ hne, hH jp hne]
      exact h.table.ref_eq jp
  · rcases eq_or_ne jp ip with rfl | hne
    · rw [setInode_same]
      exact hinum hjp
    · rw [setInode_ne _ _ hne]
      exact h.table.inum_lt jp (by rwa [hH jp hne] at hjp)
  · by_cases hj : jp = ip <;> by_cases hk : kp = ip
    · rw [hj, hk]
    · subst hj
      rw [setInode_same, setInode_ne _ _ hk] at heq
      exact absurd heq.symm (hinj hjp kp hk (by rwa [hH kp hk] at hkp))
    · subst hk
      rw [setInode_same, setInode_ne _ _ hj] at heq
      exact absurd heq (hinj hkp jp hj (by rwa [hH jp hj] at hjp))
    · rw [setInode_ne _ _ hj, setInode_ne _ _ hk] at heq
      rw [hH jp hj] at hjp
      rw [hH kp hk] at hkp
      exact h.table.inum_inj jp kp hjp hkp heq
  · rcases eq_or_ne jp ip with rfl | hne
    · rw [setInode_same] at hv hjW ⊢
      exact hvalid hjp hv hjW
    · rw [setInode_ne _ _ hne] at hv hjW ⊢
      exact h.table.valid_eq jp (by rwa [hH jp hne] at hjp) hv hjW

/-- One more reference to an entry in use. -/
theorem addRef (h : s.Coherent D H W X) (hip : 0 < H ip) :
    (s.setInode ip fun e => { e with ref := e.ref + 1 }).Coherent D (addRef H ip) W X := by
  refine h.setEntry _ ?_ (fun jp hne => ?_) (fun _ => h.table.inum_lt ip hip) (fun _ jp hne hjp heq => ?_)
    (fun _ hv hW => h.table.valid_eq ip hip hv hW)
  · rw [addRef_self, h.table.ref_eq ip]
    rfl
  · rw [addRef_apply, if_neg hne]
  · exact hne (h.table.inum_inj jp ip hjp hip heq)

end Coherent

/-- What getting a reference does: nothing but the table changes. -/
structure Got (s : Fs) (D : ℕ → Dinode) (H : Fin NINODE → ℕ) (ip : Fin NINODE) (t : Fs) : Prop where
  coherent : t.Coherent D (addRef H ip) ∅ ∅
  keeps : Keeps H s t
  table_only : ∃ T, t = { s with itable := T }
  fresh : H ip = 0 → (t.itable ip).valid = false

theorem idup_spec (h : s.Coherent D H ∅ ∅) (hip : 0 < H ip) :
    Wp (idup ip) E (fun jp t => jp = ip ∧ s.Got D H ip t ∧
      (t.itable ip).inum = (s.itable ip).inum) s := by
  simp only [idup, modifyInode, wp_bind, wp_modify, wp_pure]
  exact ⟨trivial, ⟨h.addRef hip, .setInode _ (fun _ => rfl) fun _ hv => ⟨hv, rfl⟩, ⟨_, rfl⟩,
    fun h0 => by omega⟩, by simp⟩

/-- **`iget`** returns a reference to an entry for the inode asked for. -/
theorem iget_spec (h : s.Coherent D H ∅ ∅) (hi : inum < s.sb.ninodes) (hE : E .igetNoInodes) :
    Wp (iget inum) E (fun ip t => s.Got D H ip t ∧ (t.itable ip).inum = inum) s := by
  simp only [iget, wp_bind, wp_get]
  cases hfind : (List.finRange NINODE).find? fun ip =>
      0 < (s.itable ip).ref ∧ (s.itable ip).inum = inum with
  | some ip =>
    have hp := List.find?_some hfind
    simp only [decide_eq_true_eq] at hp
    have hip : 0 < H ip := by
      have := h.table.ref_eq ip
      omega
    have hdup := idup_spec (E := E) h hip
    simp only [idup, wp_bind] at hdup
    simp only [wp_bind]
    refine hdup.mono fun _ t ht => ?_
    exact ⟨ht.2.1, by rw [ht.2.2, hp.2]⟩
  | none =>
    -- no entry in use is for `inum`
    have hnot : ∀ jp, 0 < H jp → (s.itable jp).inum ≠ inum := by
      intro jp hjp heq
      have := List.find?_eq_none.mp hfind jp (List.mem_finRange jp)
      have href := h.table.ref_eq jp
      simp only [decide_eq_true_eq] at this
      exact this ⟨by omega, heq⟩
    cases hempty : (List.finRange NINODE).find? fun ip => (s.itable ip).ref = 0 with
    | none => exact hE
    | some ip =>
      have hp := List.find?_some hempty
      simp only [decide_eq_true_eq] at hp
      have hH : H ip = 0 := by
        have := h.table.ref_eq ip
        omega
      simp only [modifyInode, wp_bind, wp_modify, wp_pure]
      refine ⟨⟨h.setEntry _ ?_ (fun jp hne => ?_) (fun _ => hi)
        (fun _ jp hne hjp => hnot jp hjp) (fun _ hv => ?_), .setInode _ (fun hjp => by omega)
        fun hjp => by omega, ⟨_, rfl⟩, fun _ => by simp⟩, by simp⟩
      · rw [addRef_self, hH]
        rfl
      · rw [addRef_apply, if_neg hne]
      · cases hv

/-! ## Locking -/

/-- What locking does: the entry is valid afterwards, and nothing but the table has changed. -/
structure Locks (s : Fs) (D : ℕ → Dinode) (H : Fin NINODE → ℕ) (ip : Fin NINODE) (t : Fs) :
    Prop where
  coherent : t.Coherent D H ∅ ∅
  locked : t.Locked H ip (s.itable ip).inum (D (s.itable ip).inum)
  type_ne : (D (s.itable ip).inum).type ≠ 0
  keeps : Keeps H s t
  table_only : ∃ T, t = { s with itable := T }

/-- **`ilock`** makes the entry valid; it panics on an inode that is not allocated. -/
theorem ilock_spec (h : s.Coherent D H ∅ ∅) (hip : 0 < H ip)
    (hE : (D (s.itable ip).inum).type = 0 → E .ilockNoType) :
    Wp (ilock ip) E (fun _ t => s.Locks D H ip t) s := by
  have href := h.table.ref_eq ip
  simp only [ilock, inode, bread, modifyInode, wp_bind, wp_get, wp_pure]
  rw [if_neg (by omega)]
  by_cases hv : (s.itable ip).valid = true
  · rw [if_pos hv]
    obtain ⟨hl, ht⟩ := h.locked hip hv
    exact ⟨h, hl, ht, Keeps.refl H s, _, rfl⟩
  · rw [if_neg hv]
    simp only [wp_bind, wp_get, wp_pure, wp_modify]
    have hread : Dinode.read (s.cache (s.sb.IBLOCK (s.itable ip).inum)) ((s.itable ip).inum % IPB) =
        D (s.itable ip).inum := h.synced _ (h.inum_lt hip) (Set.notMem_empty _)
    rw [hread]
    by_cases h0 : (D (s.itable ip).inum).type = 0
    · rw [if_pos h0]
      exact hE h0
    · rw [if_neg h0, wp_pure]
      refine ⟨h.setEntry _ href (fun _ _ => rfl) (fun _ => h.inum_lt hip)
        (fun _ jp hne hjp heq => hne (h.table.inum_inj jp ip hjp hip heq)) (fun _ _ _ => ⟨rfl, h0⟩),
        ⟨hip, by simp, by simp, by simp⟩, h0, .setInode _ (fun _ => rfl) fun _ hjv => ?_, _, rfl⟩
      exact absurd hjv hv

theorem iunlock_spec (h : s.Coherent D H W X) (hip : 0 < H ip) :
    Wp (iunlock ip) E (fun _ t => t = s) s := by
  have href := h.table.ref_eq ip
  simp only [iunlock, inode, wp_bind, wp_get, wp_pure]
  rw [if_neg (by omega)]
  rfl

/-! ## Dropping references -/

/-- One reference less to an entry. -/
theorem Coherent.dropRef (h : s.Coherent D H W X) (hip : 0 < H ip) :
    (s.setInode ip fun e => { e with ref := e.ref - 1 }).Coherent D (dropRef H ip) W X := by
  have hself : Xv6.dropRef H ip ip = H ip - 1 := by rw [dropRef_apply, if_pos rfl]
  refine h.setEntry _ ?_ (fun jp hne => ?_) (fun _ => h.table.inum_lt ip hip)
    (fun _ jp hne hjp heq => ?_) (fun _ hv hW => h.table.valid_eq ip hip hv hW)
  · show (s.itable ip).ref - 1 = _
    rw [hself, h.table.ref_eq ip]
    omega
  · rw [dropRef_apply, if_neg hne]
  · exact hne (h.table.inum_inj jp ip hjp hip heq)

/-- What `iput` does: it frees the inode if this was the last reference and it has no links, and
changes nothing but the table otherwise. -/
inductive Put (s : Fs) (D : ℕ → Dinode) (H : Fin NINODE → ℕ) (ip : Fin NINODE) : Fs → (ℕ → Dinode) → Prop
  | kept (t : Fs) (hkeep : ¬ (H ip = 1 ∧ (s.itable ip).valid = true ∧ (s.itable ip).nlink = 0))
      (htable : ∃ T, t = { s with itable := T }) : Put s D H ip t D
  | freed (t : Fs) (hfree : H ip = 1 ∧ (s.itable ip).valid = true ∧ (s.itable ip).nlink = 0)
      (htouch : ∀ j k b, j ≠ (s.itable ip).inum → s.place D (j, k) = some b → t.cache b = s.cache b)
      (hdisk : t.disk = s.disk) (hconsole : t.console = s.console) :
      Put s D H ip t (update D (s.itable ip).inum (D (s.itable ip).inum).released)

/-- The end of the freeing path of `iput`: the truncated inode loses its type and its entry. -/
theorem Truncated.release (h : s.Truncated D H ip i t) (hone : H ip = 1)
    (hinum : (s.itable ip).inum = i) :
    Wp (do
        modifyInode ip fun e => { e with type := 0 }
        iupdate ip
        modifyInode ip fun e => { e with valid := false }
        modifyInode ip fun e => { e with ref := e.ref - 1 } : FsM Unit) E
      (fun _ u => u.Coherent (update D i (D i).released) (dropRef H ip) ∅ ∅ ∧
        Keeps (dropRef H ip) s u ∧ u.disk = s.disk ∧ u.console = s.console ∧
        ∀ j k b, j ≠ i → s.place D (j, k) = some b → u.cache b = s.cache b) t := by
  have hl := h.locked
  have hip : 0 < H ip := hl.held
  simp only [modifyInode, wp_bind, wp_modify]
  -- without blocks the inode owns nothing, whether it has a type or not
  have hcoh : (t.setInode ip fun e => { e with type := 0 }).Coherent
      (update D i (D i).released) H {i} ∅ := by
    have h1 := h.coherent.setInode ip (fun e => { e with type := 0 }) (by simp [hl.inum])
      rfl rfl
    have h2 := h1.replace (Set.mem_singleton i) (D i).released fun l => by
      rw [place_of_addrs_zero (by rw [update_self]; rfl),
        place_of_addrs_zero (by rw [update_self]; rfl)]
    rwa [update_idem] at h2
  have hlock : (t.setInode ip fun e => { e with type := 0 }).Locked H ip i (D i).released := by
    refine ⟨hip, by simp [hl.inum], by simp [hl.valid], ?_⟩
    rw [setInode_same]
    show { (t.itable ip).toDinode with type := 0 } = _
    rw [hl.copy]
    rfl
  refine (iupdate_spec hcoh hlock ⟨(D i).emptied_fits.1, (D i).emptied_fits.2⟩).mono fun _ u hu => ?_
  have hcoh2 := (hu.coherent.setInode ip (fun e => { e with valid := false })
    (by simp [hu.locked.inum]) rfl rfl).dropRef hip
  have hD : update D i (D i).released i = (D i).released := update_self _ _ _
  have hdrop : dropRef H ip ip = 0 := by rw [dropRef_apply, if_pos rfl, hone]
  refine ⟨hcoh2.clean ?_ ?_ ?_, ⟨?_, fun jp hjp => ?_, fun jp hjp hv => ?_⟩, ?_, ?_, ?_⟩
  · rw [hD]
    exact hu.dinode_eq
  · rw [hD]
    exact fun ht => absurd rfl ht
  · intro jp hjp _ hjinum
    have hne : jp ≠ ip := by
      rintro rfl
      omega
    have hjH : 0 < H jp := by rwa [dropRef_apply, if_neg hne] at hjp
    rw [setInode_ne _ _ hne, setInode_ne _ _ hne] at hjinum
    exact absurd (hu.coherent.table.inum_inj jp ip hjH hip (hjinum.trans hu.locked.inum.symm)) hne
  · exact hu.touches.sb.trans h.touches.sb
  · have hne : jp ≠ ip := by
      rintro rfl
      omega
    rw [setInode_ne _ _ hne, setInode_ne _ _ hne, hu.itable_eq, setInode_ne _ _ hne,
      h.touches.table jp hne]
  · have hne : jp ≠ ip := by
      rintro rfl
      omega
    rw [setInode_ne _ _ hne, setInode_ne _ _ hne, hu.itable_eq, setInode_ne _ _ hne,
      h.touches.table jp hne]
    exact ⟨hv, rfl⟩
  · exact hu.touches.disk.trans h.touches.disk
  · exact hu.console_eq.trans h.console_eq
  · intro j k b hj hb
    have h1 : t.place (update D i (D i).emptied) (j, k) = some b := by
      rw [h.touches.place_eq hj, hb]
    have hdata := (h.coherent.inUse_of_place h1).1.1
    show u.cache b = s.cache b
    rw [hu.cache_eq b hdata]
    exact h.touches.blocks j k b hj hb

/-- **`iput`** drops a reference; the last one to an inode without links frees the inode. -/
theorem iput_spec (h : s.Coherent D H ∅ ∅) (hip : 0 < H ip) :
    Wp (iput ip) E (fun _ t => ∃ D', s.Put D H ip t D' ∧ t.Coherent D' (dropRef H ip) ∅ ∅ ∧
      Keeps (dropRef H ip) s t) s := by
  have href := h.table.ref_eq ip
  simp only [iput, inode, wp_bind, wp_get, wp_pure]
  by_cases hfree : H ip = 1 ∧ (s.itable ip).valid = true ∧ (s.itable ip).nlink = 0
  · rw [if_pos ⟨by omega, hfree.2⟩]
    obtain ⟨hl, ht⟩ := h.locked hip hfree.2.1
    refine (itrunc_spec (h.dirty (Set.empty_subset _)) hl ht).bind fun _ t htr => ?_
    have := htr.release (E := E) hfree.1 rfl
    simp only [modifyInode, wp_bind, wp_modify] at this ⊢
    refine this.mono fun _ u hu => ?_
    exact ⟨_, .freed _ hfree hu.2.2.2.2 hu.2.2.1 hu.2.2.2.1, hu.1, hu.2.1⟩
  · rw [if_neg (fun hc => hfree ⟨by omega, hc.2⟩)]
    simp only [wp_pure, modifyInode, wp_modify]
    exact ⟨D, .kept _ hfree ⟨_, rfl⟩, h.dropRef hip, .setInode _ (fun _ => rfl) fun _ hv => ⟨hv, rfl⟩⟩

/-! ## Allocating inodes -/

/-- What `ialloc` does: it takes a free inode, or says that there is none. -/
inductive Allocd (s : Fs) (D : ℕ → Dinode) (H : Fin NINODE → ℕ) (type : Int16) :
    Option (Fin NINODE) → Fs → Prop
  | none (h : ∀ i, 1 ≤ i → i < s.sb.ninodes → (D i).type ≠ 0) :
      Allocd s D H type none (s.printed "ialloc: no inodes\n")
  | some (i : ℕ) (ip : Fin NINODE) (t : Fs) (hpos : 1 ≤ i) (hi : i < s.sb.ninodes)
      (hfree : (D i).type = 0) (hinum : (t.itable ip).inum = i)
      (hcoherent : t.Coherent (update D i { Dinode.zero with type := type })
        (addRef H ip) ∅ ∅)
      (hkeeps : Keeps H s t) (hcache : ∀ b, s.sb.dataStart ≤ b → t.cache b = s.cache b)
      (hdisk : t.disk = s.disk) (hconsole : t.console = s.console) :
      Allocd s D H type (some ip) t

theorem Dinode.zero_fits (type : Int16) : { Dinode.zero with type := type }.Fits :=
  ⟨Nat.two_pow_pos 32, fun _ => Nat.two_pow_pos 32⟩

/-- A free inode may be marked allocated. -/
theorem Coherent.putFree (h : s.Coherent D H ∅ ∅) (hi : i < s.sb.ninodes) (hfree : (D i).type = 0)
    (type : Int16) : (s.putDinode i { Dinode.zero with type := type }).Coherent
      (update D i { Dinode.zero with type := type }) H ∅ ∅ := by
  have hfits := Dinode.zero_fits type
  have h1 := (h.dirty (Set.empty_subset {i})).putDinode (Set.mem_singleton i) hi hfits
  have h2 := h1.replace (Set.mem_singleton i) { Dinode.zero with type := type } fun l => by
    rw [place_of_addrs_zero (by rw [update_self]; rfl)]
    simp [place, hfree]
  refine h2.clean ?_ (fun _ => ?_) (fun ip hip hv hinum => ?_)
  · rw [dinode_putDinode s hfits, if_pos rfl, update_self]
  · rw [update_self]
    exact ⟨Nat.zero_le _, fun bn hbn => absurd hbn (Nat.not_lt_zero _)⟩
  · have hne := (h.table.valid_eq ip hip hv (Set.notMem_empty _)).2
    rw [show (s.itable ip).inum = i from hinum] at hne
    exact absurd hfree hne

theorem iallocLoop_spec (h : s.Coherent D H ∅ ∅) (type : Int16) (hE : E .igetNoInodes) {left : ℕ}
    (hleft : left < s.sb.ninodes)
    (hbefore : ∀ i, 1 ≤ i → i < s.sb.ninodes - left → (D i).type ≠ 0) :
    Wp (iallocLoop type left) E (s.Allocd D H type) s := by
  induction left with
  | zero => exact .none fun i h1 h2 => hbefore i h1 h2
  | succ left ih =>
    simp only [iallocLoop, bread, wp_bind, wp_get, wp_pure]
    obtain ⟨i, hidef⟩ : ∃ i, i = s.sb.ninodes - (left + 1) := ⟨_, rfl⟩
    have hi : i < s.sb.ninodes := by omega
    have hread : Dinode.read (s.cache (s.sb.IBLOCK i)) (i % IPB) = D i :=
      h.synced i hi (Set.notMem_empty i)
    rw [← hidef, hread]
    by_cases hfree : (D i).type = 0
    · rw [if_pos hfree]
      simp only [modifyBuf, logWrite, wp_bind, wp_modify]
      have hcoh := (h.putFree hi hfree type).congr (t :=
        { s.putDinode i { Dinode.zero with type := type } with
          logged := s.sb.IBLOCK i :: s.logged }) rfl rfl rfl
      refine (iget_spec hcoh hi hE).mono ?_
      rintro ip t ⟨hgot, hinum⟩
      obtain ⟨T, hT⟩ := hgot.table_only
      refine .some i ip t (by omega) hi hfree hinum hgot.coherent ⟨hgot.keeps.sb, hgot.keeps.inum,
        hgot.keeps.valid⟩ (fun b hb => ?_) ?_ ?_
      · rw [hT]
        exact cache_putDinode h.wf _ hi hb
      · rw [hT]
        rfl
      · rw [hT]
        rfl
    · rw [if_neg hfree]
      refine ih (by omega) fun j h1 h2 => ?_
      by_cases hj : j = i
      · rw [hj]
        exact hfree
      · exact hbefore j h1 (by omega)

/-- **`ialloc`** takes a free inode. -/
theorem ialloc_spec (h : s.Coherent D H ∅ ∅) (type : Int16) (hE : E .igetNoInodes) :
    Wp (ialloc type) E (s.Allocd D H type) s := by
  have hroot : 1 < s.sb.ninodes := h.wf.root_lt
  simp only [ialloc, wp_bind, wp_get]
  exact iallocLoop_spec h type hE (by omega) (fun i h1 h2 => by omega)

end Fs

end Xv6
