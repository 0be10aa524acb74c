import Xv6.Fs.Image

/-! # What a write logs

The chunks of `filewrite` are small enough for one transaction: a chunk touches at most one block more
than it has blocks of data, and then the first one was there before. -/

namespace Xv6.Fs

variable {s : Fs} {D : ℕ → Dinode} {H : Fin NINODE → ℕ} {E : Panic → Prop} {ip : Fin NINODE}
  {i n off : ℕ} {d₀ : Dinode}

/-- A write of three blocks of data logs nine blocks, with the inode's block ten: if it touches four
file blocks it starts inside the first one, which is there. -/
theorem card_foot (hs : s.Sized d₀) (hoff : off ≤ d₀.size) (hn : n ≤ 3 * BSIZE) (t : Fs) (d : Dinode) :
    ∃ F : Finset ℕ, foot s d₀ t d off (off + n) ⊆ F ∧ F.card ≤ 9 := by
  obtain ⟨lo, hlo⟩ : ∃ lo, lo = off / BSIZE := ⟨_, rfl⟩
  obtain ⟨hi, hhi⟩ : ∃ hi, hi = (off + n + (BSIZE - 1)) / BSIZE := ⟨_, rfl⟩
  obtain ⟨new, hnew⟩ : ∃ new, new = (Finset.Ico lo hi).filter fun m => s.blockOf d₀ m = 0 := ⟨_, rfl⟩
  refine ⟨(Finset.Ico lo hi).image (t.blockOf d) ∪
    (new.image (fun m => s.sb.BBLOCK (t.blockOf d m)) ∪
      {d.addr NDIRECT, s.sb.BBLOCK (d.addr NDIRECT)}), ?_, ?_⟩
  · rintro b ⟨x, hx, hlt, hb⟩
    have hmem : x / BSIZE ∈ Finset.Ico lo hi := by
      rw [Finset.mem_Ico]
      simp only [BSIZE] at *
      omega
    rw [Finset.mem_coe]
    rcases hb with rfl | ⟨h0, rfl⟩ | ⟨-, hb⟩
    · exact Finset.mem_union_left _ (Finset.mem_image_of_mem _ hmem)
    · refine Finset.mem_union_right _ (Finset.mem_union_left _ (Finset.mem_image_of_mem _ ?_))
      rw [hnew]
      exact Finset.mem_filter.mpr ⟨hmem, h0⟩
    · refine Finset.mem_union_right _ (Finset.mem_union_right _ ?_)
      simpa using hb
  · have hcount : (hi - lo) + new.card ≤ 7 := by
      have hspan : hi - lo ≤ 4 := by
        simp only [BSIZE] at *
        omega
      by_cases hfour : hi - lo = 4
      · -- the first block is there
        have hfirst : new ⊆ Finset.Ico (lo + 1) hi := by
          intro m hm
          rw [hnew, Finset.mem_filter, Finset.mem_Ico] at hm
          rw [Finset.mem_Ico]
          have hne : m ≠ lo := by
            rintro rfl
            refine hs.no_hole m ?_ hm.2
            simp only [BSIZE] at *
            omega
          omega
        have := Finset.card_le_card hfirst
        rw [Nat.card_Ico] at this
        omega
      · have := Finset.card_le_card (hnew ▸ Finset.filter_subset _ _ : new ⊆ Finset.Ico lo hi)
        rw [Nat.card_Ico] at this
        omega
    have h1 : ((Finset.Ico lo hi).image (t.blockOf d)).card ≤ hi - lo :=
      Finset.card_image_le.trans (Nat.card_Ico lo hi).le
    have h2 : (new.image fun m => s.sb.BBLOCK (t.blockOf d m)).card ≤ new.card := Finset.card_image_le
    have h3 := Finset.card_le_two (a := d.addr NDIRECT) (b := s.sb.BBLOCK (d.addr NDIRECT))
    have h4 := Finset.card_union_le ((Finset.Ico lo hi).image (t.blockOf d))
      (new.image (fun m => s.sb.BBLOCK (t.blockOf d m)) ∪
        {d.addr NDIRECT, s.sb.BBLOCK (d.addr NDIRECT)})
    have h5 := Finset.card_union_le (new.image fun m => s.sb.BBLOCK (t.blockOf d m))
      {d.addr NDIRECT, s.sb.BBLOCK (d.addr NDIRECT)}
    omega

/-- A disk whose root is a file of two bytes. -/
def hiFile : Image where
  files := [⟨T_FILE, 0, 0, 1, [104, 105]⟩]
  pos := by decide
  lt := by decide
  small := by decide

/-- A write of three blocks of data logs ten blocks. -/
theorem writei_card (h : s.Coherent D H ∅ ∅) (hl : s.Locked H ip i (D i)) (ht : (D i).type ≠ 0)
    (src : Src) (off : ℕ) (hn : n ≤ 3 * BSIZE) :
    Wp (writei ip src off n) E (fun _ t => ∃ F : Finset ℕ,
      (∀ b ∈ t.logged, b ∈ s.logged ∨ b ∈ F) ∧ F.card ≤ 10) s := by
  have hi : i < s.sb.ninodes := hl.inum ▸ h.inum_lt hl.held
  have hs := h.sized i hi (Set.notMem_empty i) ht
  have hsrc : Reads src n False [] fun _ => True :=
    ⟨trivial, False.elim, fun _ _ _ _ _ => ⟨trivial, False.elim⟩⟩
  refine (writei_ends h hl ht off (hn.trans_lt (by decide)) hsrc).mono fun r t hr => ?_
  obtain ⟨-, rfl, -⟩ | ⟨tot, v, u, d, d', -, hoff, -, hstop, hfin⟩ := hr
  · exact ⟨∅, fun _ hb => Or.inl hb, by simp⟩
  · obtain ⟨F, hF, hcard⟩ := card_foot hs hoff hn v d
    have hlogged : u.logged = v.logged := by cases hstop.ended <;> rfl
    refine ⟨insert (u.sb.IBLOCK i) F, fun b hb => ?_, (Finset.card_insert_le _ _).trans (by omega)⟩
    rcases hfin.logs.mem b hb with hb | hb
    · rw [hlogged] at hb
      exact (hstop.logs.mem b hb).imp_right fun hb => Finset.mem_insert_of_mem (hF hb)
    · exact Or.inr (Finset.mem_insert.mpr (Or.inl hb))

/-- **A chunk of `filewrite` fits in a transaction**: what one round does between `begin_op` and
`end_op` logs at most `MAXOPBLOCKS` blocks, on a disk of any size. -/
theorem filewrite_chunk_fits (h : s.Coherent D H ∅ ∅) (hip : 0 < H ip)
    (ht : (D (s.itable ip).inum).type ≠ 0) (src : Src) (off : ℕ) {n1 : ℕ}
    (hn : n1 ≤ (MAXOPBLOCKS - 1 - 1 - 2) / 2 * BSIZE) :
    Wp (do
        beginOp
        ilock ip
        let r ← writei ip src off n1
        iunlock ip
        return r : FsM ℤ) (fun _ => False)
      (fun _ t => t.logged.toFinset.card ≤ MAXOPBLOCKS) s := by
  simp only [beginOp, wp_bind, wp_modify]
  have h0 : Coherent { s with logged := [] } D H ∅ ∅ := h.congr rfl rfl rfl
  refine (ilock_spec h0 hip fun h0 => absurd h0 ht).mono fun _ t hlk => ?_
  obtain ⟨T, rfl⟩ := hlk.table_only
  have hn' : n1 < 2 ^ 32 := hn.trans_lt (by decide)
  refine ((writei_spec hlk.coherent hlk.locked hlk.type_ne src off hn').and
    (writei_card (E := fun _ => False) hlk.coherent hlk.locked hlk.type_ne src off hn)).bind ?_
  rintro r u ⟨⟨d, hw⟩, F, hF, hcard⟩
  have href := hw.coherent.table.ref_eq ip
  simp only [iunlock, inode, wp_bind, wp_get, wp_pure]
  rw [if_neg (by omega), wp_pure]
  refine (Finset.card_le_card fun b hb => ?_).trans hcard
  exact (hF b (List.mem_toFinset.mp hb)).resolve_left List.not_mem_nil

/-- The file of two bytes and a long chunk. -/
theorem filewrite_chunk_fits_two :
    Wp (do
        beginOp
        ilock 0
        let r ← writei 0 (.kernel (List.replicate 3000 7)) 1 3000
        iunlock 0
        return r : FsM ℤ) (fun _ => False)
      (fun _ t => t.logged.toFinset.card ≤ MAXOPBLOCKS) (hiFile.fs 1) :=
  filewrite_chunk_fits (((hiFile.flat 1).coherent (hiFile.table 1))) (by decide) (by decide) _ _ (by decide)

end Xv6.Fs
