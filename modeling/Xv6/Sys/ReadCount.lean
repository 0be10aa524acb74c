import Xv6.Fs.Image
import Xv6.Pipe.Read

/-! # A read and its count

The count of a read is an `int`. `piperead` compares it as one; `readi` takes it as a `uint`, so that a
negative count asks for the rest of the file, unless its sum with `f->off` wraps around. -/

namespace Xv6

namespace UserMem

variable {m : UserMem} {fuel va a : ℕ} {bytes : List UInt8}

/-- A copy stores nothing outside of its range. -/
theorem copyout_frame (ha : ¬(va ≤ a ∧ a < va + bytes.length)) :
    (m.copyout fuel va bytes).1.byte a = m.byte a := by
  induction fuel generalizing m va bytes with
  | zero => rfl
  | succ fuel ih =>
    rw [copyout]
    split
    · rfl
    · split
      · have hpage := Nat.div_add_mod va PGSIZE
        rw [ih]
        · exact if_neg (by rw [List.length_take]; omega)
        · rw [List.length_drop]
          simp only [PGSIZE] at *
          omega
      · rfl

/-- The first byte of a copy decides: it is stored, or nothing is. -/
theorem copyout_first (hfuel : 0 < fuel) (hne : bytes ≠ []) :
    if m.mapped (va / PGSIZE) ∧ m.writable (va / PGSIZE) then
      (m.copyout fuel va bytes).1.byte va = bytes.getD 0 0
    else m.copyout fuel va bytes = (m, false) := by
  obtain ⟨fuel, rfl⟩ := Nat.exists_eq_succ_of_ne_zero hfuel.ne'
  have hpos := List.length_pos_iff.mpr hne
  have hpage := Nat.mod_lt va (show 0 < PGSIZE by decide)
  have hnext := Nat.div_add_mod va PGSIZE
  rw [copyout, if_neg hne]
  split
  · rw [copyout_frame (by rw [Nat.add_mul, Nat.mul_comm]; omega)]
    simp only [store]
    rw [if_pos (by rw [List.length_take]; omega), Nat.sub_self, List.getD_eq_getElem?_getD,
      List.getElem?_take_of_lt (by omega), List.getD_eq_getElem?_getD]
  · rfl

end UserMem

theorem Dst.copyout_user {mem : UserMem} {va tot : ℕ} (h : va + tot < 2 ^ 64) (l : List UInt8) :
    (Dst.user mem va).copyout tot l =
      (.user (mem.copyout l.length (va + tot) l).1 va, (mem.copyout l.length (va + tot) l).2) := by
  rw [copyout, Nat.mod_eq_of_lt h]

namespace Fs

variable {s : Fs} {D : ℕ → Dinode} {H : Fin NINODE → ℕ} {E : Panic → Prop} {ip : Fin NINODE}
  {i n off tot va : ℕ} {mem : UserMem}

section Loop

variable (h : s.Coherent D H ∅ ∅) (hl : s.Locked H ip i (D i)) (ht : (D i).type ≠ 0)
include h hl ht

/-- The loop of `readi` stores nothing outside of the bytes it still has to copy; the first of them is
stored, or nothing is. -/
theorem readiLoop_user {rounds : ℕ} (hr : n - tot ≤ rounds) (htot : tot ≤ n) (hva : va + tot < 2 ^ 64)
    (hmax : mem.mapped ((va + tot) / PGSIZE) = true → va + n < 2 ^ 64)
    (hn : off + (n - tot) ≤ (D i).size) :
    Wp (readiLoop ip n rounds (.user mem va) off tot) E (fun r t => t = s ∧ r.1 ≤ n ∧ ∃ mem', r.2 = .user mem' va ∧
      (∀ a, ¬(va + tot ≤ a ∧ a < va + n) → mem'.byte a = mem.byte a) ∧
      (tot < n → if mem.mapped ((va + tot) / PGSIZE) ∧ mem.writable ((va + tot) / PGSIZE) then
        mem'.byte (va + tot) = s.byteAt (D i) off else r = (-1, .user mem va))) s := by
  have hs := h.sized i (hl.inum ▸ h.inum_lt hl.held) (Set.notMem_empty i) ht
  induction rounds generalizing mem off tot with
  | zero => exact ⟨rfl, Int.ofNat_le.mpr htot, mem, rfl, fun _ _ => rfl, fun _ => by omega⟩
  | succ rounds ih =>
    rw [readiLoop]
    split
    case isFalse hlt =>
      exact ⟨rfl, Int.ofNat_le.mpr htot, mem, rfl, fun _ _ => rfl, fun hc => absurd hc hlt⟩
    case isTrue hlt =>
      obtain ⟨hbn, hne⟩ := hs.block (show off < (D i).size by omega)
      refine (bmap_same h hl ht hbn hne).bind fun addr t hm => ?_
      obtain ⟨rfl, rfl⟩ := hm
      rw [if_neg hne]
      simp only [bread, wp_bind, wp_get, wp_pure]
      have hmod := Nat.mod_lt off (show 0 < BSIZE by decide)
      generalize hm : min (n - tot) (BSIZE - off % BSIZE) = m
      have hm0 : 0 < m := by omega
      rw [slice_blockOf _ _ (by omega), Dst.copyout_user hva, length_bytes]
      have hframe : ∀ a, ¬(va + tot ≤ a ∧ a < va + n) →
          (mem.copyout m (va + tot) (t.bytes (D i) off m)).1.byte a = mem.byte a := fun a ha =>
        UserMem.copyout_frame (by rw [length_bytes]; omega)
      have hhead : (t.bytes (D i) off m).getD 0 0 = t.byteAt (D i) off := by
        simp [bytes, List.getD_eq_getElem?_getD, hm0]
      have hfirst := @UserMem.copyout_first mem m (va + tot) (t.bytes (D i) off m) hm0
        (List.ne_nil_of_length_pos (by rwa [length_bytes]))
      rw [hhead] at hfirst
      by_cases hpage : mem.mapped ((va + tot) / PGSIZE) ∧ mem.writable ((va + tot) / PGSIZE)
      · simp only [if_pos hpage] at hfirst ⊢
        have hva' := hmax hpage.1
        rw [wp_ite]
        refine ⟨fun _ => ?_, fun _ => ⟨rfl, by omega, _, rfl, hframe, fun _ => hfirst⟩⟩
        refine (ih (by omega) (by omega) (by omega) (fun _ => hva') (by omega)).mono ?_
        rintro r u ⟨hu, hr, mem', hmem, hother, _⟩
        refine ⟨hu, hr, mem', hmem, fun a ha => ?_, fun _ => ?_⟩
        · exact (hother a (by omega)).trans (hframe a ha)
        · exact (hother _ (by omega)).trans hfirst
      · simp only [if_neg hpage] at hfirst ⊢
        rw [hfirst]
        exact ⟨rfl, by omega, mem, rfl, fun _ _ => rfl, fun _ => rfl⟩

/-- What a read with the count `c` may do: return at most `c`, store into the first `c` bytes of the buffer, and
move `f->off` by at most `c`. -/
structure WithinCount (c : ℕ) (mem : UserMem) (va off : ℕ) (r : ℤ × Dst) : Prop where
  ret : r.1 ≤ c
  memory : ∃ mem', r.2 = .user mem' va ∧ ∀ a, ¬(va ≤ a ∧ a < va + c) → mem'.byte a = mem.byte a
  /-- `fileread` adds what `readi` returns, if it is positive. -/
  offset : off ≤ (if r.1 > 0 then (off + r.1.toNat) % 2 ^ 32 else off) ∧
    (if r.1 > 0 then (off + r.1.toNat) % 2 ^ 32 else off) ≤ off + c

omit h hl ht in
theorem WithinCount.of_nothing {c : ℕ} {r : ℤ} (hr : r ≤ 0) : WithinCount c mem va off (r, .user mem va) :=
  ⟨by omega, ⟨mem, rfl, fun _ _ => rfl⟩, by simp [Int.not_lt.mpr hr]⟩

/-- What `readi` does with a count that is an `int`. -/
theorem readi_int (hva : va < 2 ^ 64) (hmax : mem.mapped (va / PGSIZE) = true → va < MAXVA)
    (hoff : off < 2 ^ 32) (n : Int32) :
    Wp (readi ip (.user mem va) off n.toUInt32.toNat) E (fun r t => t = s ∧
      if 0 ≤ n.toInt ∨ -n.toInt ≤ off ∨ (D i).size ≤ off ∨
          ¬(mem.mapped (va / PGSIZE) ∧ mem.writable (va / PGSIZE)) then
        WithinCount n.toInt.toNat mem va off r
      else ∃ mem', r.2 = .user mem' va ∧ mem'.byte va = s.byteAt (D i) off) s := by
  have hle : (D i).size ≤ 268 * 1024 :=
    (h.sized i (hl.inum ▸ h.inum_lt hl.held) (Set.notMem_empty i) ht).size_le
  have hsize : (s.itable ip).size = (D i).size := by
    show (s.itable ip).toDinode.size = _
    rw [hl.copy]
  have hint : n.toInt = _ := BitVec.toInt_eq_toNat_cond n.toBitVec
  have huint : n.toUInt32.toNat = n.toBitVec.toNat := rfl
  have hbound := n.toBitVec.isLt
  rw [← huint] at hint hbound
  generalize n.toUInt32.toNat = N at hint hbound
  simp only [readi, inode, wp_bind, wp_get, wp_pure, hsize]
  rw [wp_ite]
  refine ⟨fun hzero => ⟨rfl, ?_⟩, fun hgo => ?_⟩
  · rw [if_pos (by split at hint <;> omega)]
    exact .of_nothing le_rfl
  · obtain ⟨m, hm⟩ : ∃ m, m = if (D i).size < (off + N) % 2 ^ 32 then (D i).size - off else N := ⟨_, rfl⟩
    rw [← hm]
    have hsum : off + m ≤ (D i).size := by
      rw [hm]
      split <;> omega
    -- a negative count that does not wrap is beyond every file
    have hcount : 0 ≤ n.toInt ∧ m ≤ n.toInt.toNat ∨ n.toInt < 0 ∧ off < -n.toInt ∧ m = (D i).size - off := by
      rw [hm]
      split at hint <;> split <;> omega
    rcases Nat.eq_zero_or_pos m with rfl | hpos
    · refine ⟨rfl, ?_⟩
      rw [if_pos (by omega)]
      exact .of_nothing le_rfl
    · have hmax' : mem.mapped ((va + 0) / PGSIZE) = true → va + m < 2 ^ 64 := fun hp => by
        have := hmax hp
        simp only [MAXVA] at this
        omega
      refine (readiLoop_user h hl ht le_rfl (Nat.zero_le m) hva hmax' hsum).mono ?_
      rintro r t ⟨ht, hret, mem', hmem, hother, hfirst⟩
      refine ⟨ht, ?_⟩
      have hfirst := hfirst hpos
      by_cases hpage : mem.mapped (va / PGSIZE) ∧ mem.writable (va / PGSIZE)
      · rw [Nat.add_zero, if_pos hpage] at hfirst
        rcases hcount with ⟨hn, hm⟩ | ⟨hn, hlt, hm⟩
        · rw [if_pos (.inl hn)]
          refine ⟨by omega, ⟨mem', hmem, fun a ha => hother a (by omega)⟩, ?_⟩
          split <;> omega
        · rw [if_neg (by simp only [hpage, and_self, not_true, or_false]; omega)]
          exact ⟨mem', hmem, hfirst⟩
      · rw [Nat.add_zero, if_neg hpage] at hfirst
        rw [if_pos (.inr (.inr (.inr hpage))), hfirst]
        exact .of_nothing (by decide)

end Loop

end Fs

namespace Pipe

variable {pi pi' : Pipe} {dst : ℕ → Bool} {m i ret : ℕ} {stored : List UInt8}

theorem readLoop_le (h : readLoop dst m i pi = (ret, pi', stored)) :
    ret ≤ i + m ∧ stored.length ≤ m ∧ ∃ k ≤ m, pi'.nread = pi.nread + UInt32.ofNat k := by
  induction m generalizing i pi ret pi' stored with
  | zero =>
    cases h
    exact ⟨le_rfl, le_rfl, 0, le_rfl, by simp⟩
  | succ m ih =>
    rw [readLoop] at h
    split at h
    · cases h
      exact ⟨Nat.le_add_right .., Nat.zero_le _, 0, Nat.zero_le _, by simp⟩
    · split at h
      · obtain ⟨⟨ret', pi'', stored'⟩, hrest⟩ : ∃ r, readLoop dst m (i + 1) pi.drop = r := ⟨_, rfl⟩
        rw [hrest] at h
        cases h
        obtain ⟨hret, hlen, k, hk, hn⟩ := ih hrest
        refine ⟨by omega, by simpa using hlen, k + 1, by omega, ?_⟩
        rw [hn, drop, UInt32.ofNat_add, UInt32.add_assoc, UInt32.add_comm 1]
        rfl
      · cases h
        exact ⟨Nat.le_add_right .., Nat.zero_le _, 1, by omega, rfl⟩

/-- `piperead` never exceeds its count. -/
theorem piperead_le {killed : Bool} {n r : ℤ} (h : piperead killed dst n pi = .returns r pi' stored) :
    r ≤ n.toNat ∧ stored.length ≤ n.toNat ∧ ∃ k ≤ n.toNat, pi'.nread = pi.nread + UInt32.ofNat k := by
  unfold piperead at h
  split at h
  · split at h
    · cases h
      exact ⟨by omega, Nat.zero_le _, 0, Nat.zero_le _, by simp⟩
    · cases h
  · obtain ⟨⟨ret, pi'', stored'⟩, hloop⟩ : ∃ r, readLoop dst n.toNat 0 pi = r := ⟨_, rfl⟩
    rw [hloop] at h
    cases h
    obtain ⟨hret, hlen, hk⟩ := readLoop_le hloop
    exact ⟨by omega, hlen, hk⟩

end Pipe

namespace Fs

variable {s : Fs} {D : ℕ → Dinode} {H : Fin NINODE → ℕ} {ip : Fin NINODE} {i off va : ℕ}

/-- **A read never exceeds its count**, whatever the memory holds: on an inode exactly if the count is not
negative, or wraps around with `f->off`, or `f->off` is at the end, or the buffer cannot be written; on a pipe
always. -/
theorem read_within_count_iff (h : s.Coherent D H ∅ ∅) (hl : s.Locked H ip i (D i)) (ht : (D i).type ≠ 0)
    (mem : UserSpace) (hva : va < 2 ^ 64) (hoff : off < 2 ^ 32) (n : Int32) :
    ((∀ byte, Wp (readi ip (.user { mem.toUserMem with byte := byte } va) off n.toUInt32.toNat) (fun _ => False)
        (fun r t => t = s ∧ WithinCount n.toInt.toNat { mem.toUserMem with byte := byte } va off r) s) ↔
      0 ≤ n.toInt ∨ -n.toInt ≤ off ∨ (D i).size ≤ off ∨
        ¬(mem.mapped (va / PGSIZE) ∧ mem.writable (va / PGSIZE))) ∧
    ∀ killed dst pi r pi' stored, Pipe.piperead killed dst n.toInt pi = .returns r pi' stored →
      r ≤ n.toInt.toNat ∧ stored.length ≤ n.toInt.toNat ∧
        ∃ k ≤ n.toInt.toNat, pi'.nread = pi.nread + UInt32.ofNat k := by
  have hmax : mem.mapped (va / PGSIZE) = true → va < MAXVA := fun hp => by
    have := mem.below _ hp
    simp only [MAXVA, PGSIZE] at *
    omega
  have hint := fun byte => readi_int (E := fun _ => False) h hl ht hva
    (show UserMem.mapped { mem.toUserMem with byte := byte } _ = true → _ from hmax) hoff n
  refine ⟨⟨fun hall => ?_, fun hc byte => ?_⟩, fun _ _ _ _ _ _ => Pipe.piperead_le⟩
  · by_contra hc
    obtain ⟨r, t, -, ⟨-, hr⟩, -, hw⟩ := ((hint fun _ => s.byteAt (D i) off + 1).and (hall _)).total
    rw [if_neg hc] at hr
    obtain ⟨mem', hmem, hbyte⟩ := hr
    obtain ⟨mem'', hmem', hother⟩ := hw.memory
    obtain ⟨rfl, -⟩ := Dst.user.inj (hmem.symm.trans hmem')
    have := (hbyte.symm.trans (hother va (by omega)))
    simp at this
  · refine (hint byte).mono fun r t hr => ?_
    rwa [if_pos hc] at hr

/-- One page, and the root directory of an empty file system. -/
def onePage : UserSpace where
  mapped := fun pg => pg = 0
  writable := fun _ => true
  byte := fun _ => 0
  below := fun pg hpg => by
    obtain rfl : pg = 0 := of_decide_eq_true hpg
    decide

theorem read_within_count_five :
    Wp (readi 0 (.user onePage.toUserMem 0) 0 (5 : Int32).toUInt32.toNat) (fun _ => False)
      (fun r t => t = Image.root.fs 1 ∧ WithinCount 5 onePage.toUserMem 0 0 r) (Image.root.fs 1) :=
  (read_within_count_iff ((Image.root.flat 1).coherent (Image.root.table 1)) ⟨by decide, rfl, rfl, rfl⟩
    (by decide) onePage (by decide) (by decide) 5).1.mpr (.inl (by decide)) onePage.byte

/-- A read of -1 bytes returns the 32 bytes of the directory. -/
theorem read_minus_one : (readi 0 (.user onePage.toUserMem 0) 0 (-1 : Int32).toUInt32.toNat
    (Image.root.fs 1)).toOption.map (fun r => r.1.1) = some 32 := by
  decide +kernel

end Fs

end Xv6
