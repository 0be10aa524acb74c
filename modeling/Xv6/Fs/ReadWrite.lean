import Xv6.Fs.Itrunc

/-! # Reading files

A file is the list of its bytes, found through `bmap`. `readi` returns a slice of it and changes
nothing, because no block below the size is missing. -/

namespace Xv6.Fs

/-- Byte `x` of a file. -/
def byteAt (s : Fs) (d : Dinode) (x : ℕ) : UInt8 :=
  (s.cache (s.blockOf d (x / BSIZE))).get (x % BSIZE)

/-- The bytes `off .. off + len` of a file. -/
def bytes (s : Fs) (d : Dinode) (off len : ℕ) : List UInt8 :=
  (List.range len).map fun k => s.byteAt d (off + k)

/-- The contents of a file. -/
def file (s : Fs) (d : Dinode) : List UInt8 := s.bytes d 0 d.size

variable {s t u : Fs} {D : ℕ → Dinode} {H : Fin NINODE → ℕ} {W X X' : Set ℕ} {E : Panic → Prop}
  {ip : Fin NINODE} {a b c i j k n off tot bn : ℕ} {d d' : Dinode} {src : Src}

@[simp] theorem length_bytes (s : Fs) (d : Dinode) (off len : ℕ) :
    (s.bytes d off len).length = len := by
  simp [bytes]

@[simp] theorem length_file (s : Fs) (d : Dinode) : (s.file d).length = d.size := length_bytes s d 0 _

theorem bytes_add (s : Fs) (d : Dinode) (off a b : ℕ) :
    s.bytes d off (a + b) = s.bytes d off a ++ s.bytes d (off + a) b := by
  simp [bytes, List.range_add, Nat.add_assoc]

theorem bytes_congr (h : ∀ k < n, t.byteAt d' (off + k) = s.byteAt d (off + k)) :
    t.bytes d' off n = s.bytes d off n := by
  unfold bytes
  apply List.map_congr_left
  intro k hk
  exact h k (List.mem_range.mp hk)

theorem take_drop_file (h : off + n ≤ d.size) : ((s.file d).drop off).take n = s.bytes d off n := by
  have hsplit : d.size = off + (n + (d.size - off - n)) := by omega
  rw [file, hsplit, bytes_add, bytes_add, Nat.zero_add, List.drop_left' (length_bytes s d 0 off),
    List.take_left' (length_bytes s d off n)]

theorem getD_file {x : ℕ} (h : x < d.size) : (s.file d).getD x 0 = s.byteAt d x := by
  simp [file, bytes, h]

/-- A part of one block, as bytes of the file. -/
theorem slice_blockOf (s : Fs) (d : Dinode) {off m : ℕ} (hm : m ≤ BSIZE - off % BSIZE) :
    (s.cache (s.blockOf d (off / BSIZE))).slice (off % BSIZE) m = s.bytes d off m := by
  unfold bytes Bytes.slice
  apply List.map_congr_left
  intro k hk
  have hk := List.mem_range.mp hk
  have hdiv : (off + k) / BSIZE = off / BSIZE := by
    simp only [BSIZE] at *
    omega
  have hmod : (off + k) % BSIZE = off % BSIZE + k := by
    simp only [BSIZE] at *
    omega
  rw [byteAt, hdiv, hmod]

/-- A file whose blocks are as before has the same contents. -/
theorem file_eq_of_blocks (hjn : j < s.sb.ninodes) (ht : (D j).type ≠ 0) (hs : s.Sized (D j))
    (hblocks : ∀ k b, s.place D (j, k) = some b → t.cache b = s.cache b) :
    t.file (D j) = s.file (D j) := by
  have hblock : ∀ bn, t.blockOf (D j) bn = s.blockOf (D j) bn := fun bn =>
    slot_congr (fun _ _ => rfl) (fun ha => hblocks NDIRECT _ (place_indirect hjn ht ha)) _
  refine bytes_congr fun k hk => ?_
  have hblk : (0 + k) / BSIZE * BSIZE < (D j).size := by
    simp only [BSIZE]
    omega
  have hlt : (0 + k) / BSIZE < MAXFILE := by
    have := hs.size_le
    simp only [BSIZE, MAXFILE, NDIRECT, NINDIRECT] at *
    omega
  rw [byteAt, byteAt, hblock, hblocks _ _ (place_blockOf hjn ht hlt (hs.no_hole _ hblk))]

/-! ## Reading -/

/-- `bmap` of a block that is there changes nothing. -/
theorem bmap_same (h : s.Coherent D H ∅ ∅) (hl : s.Locked H ip i (D i)) (ht : (D i).type ≠ 0)
    (hbn : bn < MAXFILE) (hne : s.blockOf (D i) bn ≠ 0) :
    Wp (bmap ip bn) E (fun addr t => t = s ∧ addr = s.blockOf (D i) bn) s := by
  refine (bmap_spec (h.dirty (Set.empty_subset {i})) hl ht hbn).mono fun addr t ⟨d, hm⟩ => ?_
  exact hm.same hne

/-- A block below the size is one `bmap` accepts, and it is there. -/
theorem Sized.block (hs : s.Sized d) (hoff : off < d.size) :
    off / BSIZE < MAXFILE ∧ s.blockOf d (off / BSIZE) ≠ 0 := by
  have hle := hs.size_le
  refine ⟨?_, hs.no_hole _ ?_⟩
  · simp only [BSIZE, MAXFILE, NDIRECT, NINDIRECT] at *
    omega
  · simp only [BSIZE]
    omega

/-- Whatever the destination, the loop of `readi` changes nothing. -/
theorem readiLoop_same (h : s.Coherent D H ∅ ∅) (hl : s.Locked H ip i (D i)) (ht : (D i).type ≠ 0)
    (rounds : ℕ) (dst : Dst) (hn : off + (n - tot) ≤ (D i).size) :
    Wp (readiLoop ip n rounds dst off tot) E (fun _ t => t = s) s := by
  have hi : i < s.sb.ninodes := hl.inum ▸ h.inum_lt hl.held
  have hs := h.sized i hi (Set.notMem_empty i) ht
  induction rounds generalizing dst off tot with
  | zero => rfl
  | succ rounds ih =>
    rw [readiLoop]
    by_cases htot : tot < n
    · rw [if_pos htot, wp_bind]
      obtain ⟨hbn, hne⟩ := hs.block (show off < (D i).size by omega)
      refine (bmap_same h hl ht hbn hne).mono fun addr t hm => ?_
      obtain ⟨rfl, rfl⟩ := hm
      rw [if_neg hne]
      simp only [bread, wp_bind, wp_get, wp_pure]
      rw [wp_ite]
      refine ⟨fun _ => ih _ (by omega), fun _ => rfl⟩
    · rw [if_neg htot]
      rfl

/-- The loop of `readi` delivers the bytes of the file to a writable destination. -/
theorem readiLoop_spec (h : s.Coherent D H ∅ ∅) (hl : s.Locked H ip i (D i)) (ht : (D i).type ≠ 0)
    {rounds : ℕ} {dst : Dst} (hr : n - tot ≤ rounds) (htot : tot ≤ n) (hn : off + n ≤ (D i).size)
    (hw : dst.Writable n) :
    Wp (readiLoop ip n rounds (dst.store (s.bytes (D i) off tot)) (off + tot) tot) E
      (fun r t => t = s ∧ r = ((n : ℤ), dst.store (s.bytes (D i) off n))) s := by
  have hi : i < s.sb.ninodes := hl.inum ▸ h.inum_lt hl.held
  have hs := h.sized i hi (Set.notMem_empty i) ht
  induction rounds generalizing tot with
  | zero =>
    obtain rfl : tot = n := by omega
    exact ⟨rfl, rfl⟩
  | succ rounds ih =>
    rw [readiLoop]
    by_cases hlt : tot < n
    · rw [if_pos hlt, wp_bind]
      obtain ⟨hbn, hne⟩ := hs.block (show off + tot < (D i).size by omega)
      refine (bmap_same h hl ht hbn hne).mono fun addr t hm => ?_
      obtain ⟨rfl, rfl⟩ := hm
      rw [if_neg hne]
      simp only [bread, wp_bind, wp_get, wp_pure]
      have hmod : (off + tot) % BSIZE < BSIZE := Nat.mod_lt _ (by decide)
      set m := min (n - tot) (BSIZE - (off + tot) % BSIZE) with hm
      -- the bytes copied in this round continue the ones before
      have hcopy : (dst.store (t.bytes (D i) off tot)).copyout tot
          ((t.cache (t.blockOf (D i) ((off + tot) / BSIZE))).slice ((off + tot) % BSIZE) m) =
          (dst.store (t.bytes (D i) off (tot + m)), true) := by
        rw [slice_blockOf t (D i) (by omega), bytes_add]
        have hlen : (t.bytes (D i) off tot).length + (t.bytes (D i) (off + tot) m).length ≤ n := by
          rw [length_bytes, length_bytes]
          omega
        have := Dst.copyout_store hw hlen
        rwa [length_bytes] at this
      rw [hcopy, if_pos rfl, Nat.add_assoc]
      exact ih (by omega) (by omega)
    · obtain rfl : tot = n := by omega
      rw [if_neg hlt]
      exact ⟨rfl, rfl⟩

/-- **`readi` changes nothing**, whatever it is asked for. -/
theorem readi_same (h : s.Coherent D H ∅ ∅) (hl : s.Locked H ip i (D i)) (ht : (D i).type ≠ 0)
    (dst : Dst) (off : ℕ) (hn : n < 2 ^ 32) : Wp (readi ip dst off n) E (fun _ t => t = s) s := by
  have hi : i < s.sb.ninodes := hl.inum ▸ h.inum_lt hl.held
  have hle : (D i).size ≤ 268 * 1024 := (h.sized i hi (Set.notMem_empty i) ht).size_le
  have hsize : (s.itable ip).size = (D i).size := by
    show (s.itable ip).toDinode.size = _
    rw [hl.copy]
  simp only [readi, inode, wp_bind, wp_get, wp_pure, hsize]
  rw [wp_ite]
  refine ⟨fun _ => rfl, fun hoff => readiLoop_same h hl ht _ _ ?_⟩
  rw [not_or, Nat.not_lt, Nat.not_lt] at hoff
  split <;> omega

/-- **`readi`** delivers a slice of the file to a writable destination. -/
theorem readi_spec (h : s.Coherent D H ∅ ∅) (hl : s.Locked H ip i (D i)) (ht : (D i).type ≠ 0)
    {dst : Dst} (hwrap : off + n < 2 ^ 32) (hw : dst.Writable n) :
    Wp (readi ip dst off n) E (fun r t => t = s ∧
      r = (((((s.file (D i)).drop off).take n).length : ℤ),
        dst.store (((s.file (D i)).drop off).take n))) s := by
  have hsize : (s.itable ip).size = (D i).size := by
    show (s.itable ip).toDinode.size = _
    rw [hl.copy]
  simp only [readi, inode, wp_bind, wp_get, wp_pure, hsize, Nat.mod_eq_of_lt hwrap]
  by_cases hoff : (D i).size < off
  · rw [if_pos (Or.inl hoff)]
    have hnil : (s.file (D i)).drop off = [] := List.drop_of_length_le (by rw [length_file]; omega)
    simp [hnil, wp_pure]
  · rw [if_neg (by omega)]
    -- the bytes asked for, cut at the end of the file
    obtain ⟨m, hm⟩ : ∃ m, m = if (D i).size < off + n then (D i).size - off else n := ⟨_, rfl⟩
    rw [← hm]
    have hmn : m ≤ n ∧ off + m ≤ (D i).size := by
      rw [hm]
      split <;> omega
    have hslice : ((s.file (D i)).drop off).take n = s.bytes (D i) off m := by
      rw [← take_drop_file hmn.2]
      by_cases hlt : (D i).size < off + n
      · rw [List.take_of_length_le (by rw [List.length_drop, length_file]; omega),
          List.take_of_length_le (by rw [List.length_drop, length_file, hm, if_pos hlt])]
      · rw [hm, if_neg hlt]
    rw [hslice, length_bytes]
    have hloop := @readiLoop_spec s D H E ip i m off 0 h hl ht m dst (Nat.le_refl m) (Nat.zero_le m)
      hmn.2 (hw.mono hmn.1)
    rwa [show s.bytes (D i) off 0 = [] from rfl, Dst.store_nil, Nat.add_zero] at hloop

end Xv6.Fs
