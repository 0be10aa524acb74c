import Xv6.Fs.View
import Xv6.Lib.Ownership

/-! # The invariant of the inode layer

`Coherent s D H W X` relates a state of the file system to the inodes `D` that it stands for and to
the numbers `H` of references held to the entries of the inode table. Every data block marked in
use belongs to exactly one place of one allocated inode; every block below an inode's size is there;
the valid entries of the table agree with `D`, and so does the disk. Two sets say what the running
code is in the middle of: the inodes in `W` are being changed in memory, and the blocks in `X` are
allocated but not attached yet. Between calls both are empty. -/

namespace Xv6.Fs

/-- A file has no holes and is not too large. -/
structure Sized (s : Fs) (d : Dinode) : Prop where
  size_le : d.size ≤ MAXFILE * BSIZE
  no_hole : ∀ bn, bn * BSIZE < d.size → s.blockOf d bn ≠ 0

/-- The inode table: `H ip` references are held to entry `ip`, entries in use are for different
inodes, and valid ones hold a copy of an allocated inode. -/
structure Table (s : Fs) (D : ℕ → Dinode) (H : Fin NINODE → ℕ) (W : Set ℕ) : Prop where
  ref_eq : ∀ ip, (s.itable ip).ref = H ip
  inum_lt : ∀ ip, 0 < H ip → (s.itable ip).inum < s.sb.ninodes
  inum_inj : ∀ ip jp, 0 < H ip → 0 < H jp → (s.itable ip).inum = (s.itable jp).inum → ip = jp
  valid_eq : ∀ ip, 0 < H ip → (s.itable ip).valid = true → (s.itable ip).inum ∉ W →
    (s.itable ip).toDinode = D (s.itable ip).inum ∧ (D (s.itable ip).inum).type ≠ 0

/-- The invariant of the inode layer. -/
structure Coherent (s : Fs) (D : ℕ → Dinode) (H : Fin NINODE → ℕ) (W X : Set ℕ) : Prop where
  wf : s.sb.WellFormed
  exact : Exact (s.place D) s.inUse X
  meta_bits : ∀ b < s.sb.dataStart, s.bit b = true
  end_bits : ∀ b, s.sb.size ≤ b → b < s.sb.nbits → s.bit b = false
  sized : ∀ i < s.sb.ninodes, i ∉ W → (D i).type ≠ 0 → s.Sized (D i)
  synced : ∀ i < s.sb.ninodes, i ∉ W → s.dinode i = D i
  table : s.Table D H W

/-- Entry `ip` is held and valid, is for inode `i` and holds the copy `d`. -/
structure Locked (s : Fs) (H : Fin NINODE → ℕ) (ip : Fin NINODE) (i : ℕ) (d : Dinode) : Prop where
  held : 0 < H ip
  inum : (s.itable ip).inum = i
  valid : (s.itable ip).valid = true
  copy : (s.itable ip).toDinode = d

/-- Between two states only inode `i`, held in entry `ip`, was changed: the other inodes, the
blocks they own and the other table entries are as before. -/
structure Touches (ip : Fin NINODE) (i : ℕ) (s : Fs) (D : ℕ → Dinode) (t : Fs) (D' : ℕ → Dinode) :
    Prop where
  sb : t.sb = s.sb
  disk : t.disk = s.disk
  table : ∀ jp, jp ≠ ip → t.itable jp = s.itable jp
  entry : (t.itable ip).inum = (s.itable ip).inum ∧ (t.itable ip).ref = (s.itable ip).ref ∧
    (t.itable ip).valid = (s.itable ip).valid ∧ (t.itable ip).type = (s.itable ip).type
  others : ∀ j, j ≠ i → D' j = D j
  blocks : ∀ j k b, j ≠ i → s.place D (j, k) = some b → t.cache b = s.cache b

variable {s t u : Fs} {D D' D'' : ℕ → Dinode} {H : Fin NINODE → ℕ} {W W' X : Set ℕ}
  {ip : Fin NINODE} {i j k b c : ℕ} {d : Dinode}

/-! ## Places -/

/-- Places are the same when the addresses are and the indirect blocks have the same contents. -/
theorem place_congr (hsb : t.sb = s.sb) (htype : (D' j).type = (D j).type)
    (haddr : ∀ k < NDIRECT + 1, (D' j).addr k = (D j).addr k)
    (hcache : j < s.sb.ninodes → (D j).type ≠ 0 → (D j).addr NDIRECT ≠ 0 →
      t.cache ((D j).addr NDIRECT) = s.cache ((D j).addr NDIRECT)) (k : ℕ) :
    t.place D' (j, k) = s.place D (j, k) := by
  unfold place
  by_cases hj : j < s.sb.ninodes ∧ (D j).type ≠ 0
  · have hslot : t.slot (D' j) k = s.slot (D j) k := slot_congr haddr (hcache hj.1 hj.2) k
    simp only [hsb, htype, hslot]
  · rw [if_neg, if_neg]
    · exact fun h => hj ⟨h.1, h.2.1⟩
    · rintro ⟨h1, h2, -⟩
      exact hj ⟨hsb ▸ h1, htype ▸ h2⟩

/-- An indirect block is held by its inode. -/
theorem place_indirect (hj : j < s.sb.ninodes) (ht : (D j).type ≠ 0) (ha : (D j).addr NDIRECT ≠ 0) :
    s.place D (j, NDIRECT) = some ((D j).addr NDIRECT) :=
  place_eq_some.mpr ⟨hj, ht, by decide, slot_of_le (by decide), ha⟩

theorem inUse_congr (hsb : t.sb = s.sb) (hbit : ∀ b < s.sb.size, t.bit b = s.bit b) :
    t.inUse = s.inUse := by
  ext b
  show t.sb.IsData b ∧ t.bit b = true ↔ s.sb.IsData b ∧ s.bit b = true
  rw [hsb]
  exact and_congr_right fun hb => by rw [hbit b hb.2]

namespace Touches

theorem refl (ip : Fin NINODE) (i : ℕ) (s : Fs) (D : ℕ → Dinode) : Touches ip i s D s D :=
  ⟨rfl, rfl, fun _ _ => rfl, ⟨rfl, rfl, rfl, rfl⟩, fun _ _ => rfl, fun _ _ _ _ _ => rfl⟩

/-- The places of the other inodes hold what they held. -/
theorem place_eq (h : Touches ip i s D t D') (hj : j ≠ i) (k : ℕ) :
    t.place D' (j, k) = s.place D (j, k) := by
  have hD := h.others j hj
  refine place_congr h.sb (by rw [hD]) (fun k _ => by rw [hD]) (fun hjn ht ha => ?_) k
  exact h.blocks j NDIRECT _ hj (place_indirect hjn ht ha)

theorem trans (h : Touches ip i s D t D') (h' : Touches ip i t D' u D'') :
    Touches ip i s D u D'' where
  sb := h'.sb.trans h.sb
  disk := h'.disk.trans h.disk
  table := fun jp hjp => (h'.table jp hjp).trans (h.table jp hjp)
  entry := by
    obtain ⟨h1, h2, h3, h4⟩ := h.entry
    obtain ⟨h1', h2', h3', h4'⟩ := h'.entry
    exact ⟨h1'.trans h1, h2'.trans h2, h3'.trans h3, h4'.trans h4⟩
  others := fun j hj => (h'.others j hj).trans (h.others j hj)
  blocks := by
    intro j k b hj hb
    rw [h'.blocks j k b hj (by rw [h.place_eq hj k, hb]), h.blocks j k b hj hb]

end Touches

/-! ## Moving between views of one state -/

namespace Coherent

theorem inum_lt (h : s.Coherent D H W X) (hip : 0 < H ip) : (s.itable ip).inum < s.sb.ninodes :=
  h.table.inum_lt ip hip

/-- What a place holds is a data block in use. -/
theorem inUse_of_place (h : s.Coherent D H W X) (hp : s.place D (i, k) = some b) :
    s.sb.IsData b ∧ s.bit b = true := h.exact.mem_of_eq hp

/-- The invariant does not look at the log, the disk below the cache or the console. -/
theorem congr (h : s.Coherent D H W X) (hsb : t.sb = s.sb) (hcache : t.cache = s.cache)
    (htable : t.itable = s.itable) : t.Coherent D H W X := by
  obtain ⟨sb, cache, disk, logged, itable, console⟩ := s
  obtain ⟨sb', cache', disk', logged', itable', console'⟩ := t
  obtain rfl : sb' = sb := hsb
  obtain rfl : cache' = cache := hcache
  obtain rfl : itable' = itable := htable
  exact ⟨h.wf, h.exact, h.meta_bits, h.end_bits, fun i hi hW ht => ⟨(h.sized i hi hW ht).1,
    (h.sized i hi hW ht).2⟩, h.synced, ⟨h.table.1, h.table.2, h.table.3, h.table.4⟩⟩

/-- An inode may be declared to be under change at any time. -/
theorem dirty (h : s.Coherent D H W X) (hW : W ⊆ W') : s.Coherent D H W' X where
  wf := h.wf
  exact := h.exact
  meta_bits := h.meta_bits
  end_bits := h.end_bits
  sized := fun i hi hiW => h.sized i hi fun hw => hiW (hW hw)
  synced := fun i hi hiW => h.synced i hi fun hw => hiW (hW hw)
  table := ⟨h.table.ref_eq, h.table.inum_lt, h.table.inum_inj,
    fun ip hip hv hiW => h.table.valid_eq ip hip hv fun hw => hiW (hW hw)⟩

/-- A change is complete once disk and table agree with it. -/
theorem clean (h : s.Coherent D H {i} X) (hsync : s.dinode i = D i)
    (hsize : (D i).type ≠ 0 → s.Sized (D i))
    (hvalid : ∀ ip, 0 < H ip → (s.itable ip).valid = true → (s.itable ip).inum = i →
      (s.itable ip).toDinode = D i ∧ (D i).type ≠ 0) : s.Coherent D H ∅ X where
  wf := h.wf
  exact := h.exact
  meta_bits := h.meta_bits
  end_bits := h.end_bits
  sized := by
    intro j hj _ ht
    rcases eq_or_ne j i with rfl | hji
    · exact hsize ht
    · exact h.sized j hj hji ht
  synced := by
    intro j hj _
    rcases eq_or_ne j i with rfl | hji
    · exact hsync
    · exact h.synced j hj hji
  table := by
    refine ⟨h.table.ref_eq, h.table.inum_lt, h.table.inum_inj, fun jp hjp hv _ => ?_⟩
    by_cases hji : (s.itable jp).inum = i
    · rw [hji]
      exact hvalid jp hjp hv hji
    · exact h.table.valid_eq jp hjp hv hji

/-- A valid entry of an inode that is not under change holds its copy. -/
theorem locked (h : s.Coherent D H ∅ X) (hip : 0 < H ip) (hv : (s.itable ip).valid = true) :
    s.Locked H ip (s.itable ip).inum (D (s.itable ip).inum) ∧ (D (s.itable ip).inum).type ≠ 0 :=
  ⟨⟨hip, rfl, hv, (h.table.valid_eq ip hip hv (Set.notMem_empty _)).1⟩,
    (h.table.valid_eq ip hip hv (Set.notMem_empty _)).2⟩

end Coherent

end Xv6.Fs
