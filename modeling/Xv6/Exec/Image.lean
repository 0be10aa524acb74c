import Xv6.Exec.Basic
import Xv6.Fs.Node

/-! # Loading a program

The loop of `exec` over the program headers makes an address space whose bytes are those that the headers say,
one over the other. Whatever is in the file, no panic is reached and nothing is lost. -/

namespace Xv6

open Phys

namespace Exec

open Vm

variable {s t : State} {f : Fs} {ip : Fin NINODE} {file l : List UInt8} {E : Panic → Prop} {root va sz : UInt64}
  {N n off : ℕ} {X : UInt64 → Option UInt64}

/-! ### Reading the file -/

/-- Entry `ip` of the inode table is locked and is for a file with these bytes. -/
def IsFile (f : Fs) (ip : Fin NINODE) (file : List UInt8) : Prop :=
  ∃ N H i v, f.Rep N H ∧ f.Opened H ip i ∧ N i = some v ∧ v.bytes = file

theorem IsFile.length_le (h : IsFile f ip file) : file.length ≤ 274432 := by
  obtain ⟨N, H, i, v, hrep, ho, hv, rfl⟩ := h
  obtain ⟨hi, ht, rfl⟩ := hrep.of_apply hv
  rw [Fs.length_nodeOf]
  exact (hrep.coherent.sized i hi (Set.notMem_empty i) ht).size_le

theorem getD_slice {j : ℕ} (h : off + n ≤ file.length) (hj : j < n) :
    ((file.drop off).take n).getD j 0 = file.getD (off + j) 0 := by
  have hlt : j < ((file.drop off).take n).length := by
    rw [List.length_take, List.length_drop]
    omega
  rw [List.getD_eq_getElem _ _ hlt, List.getElem_take, List.getElem_drop, List.getD_eq_getElem _ _ (by omega)]

/-- The slice of the file that is asked for is read if it is there. -/
theorem readi_file {E : Xv6.Panic → Prop} (h : IsFile f ip file) (hoff : off < 2 ^ 32) (hn : 0 < n)
    (hn' : n ≤ 4096) (hl : l.length = n) :
    Wp (readi ip (.kernel l) off n) E (fun r g => g = f ∧ r.2.buf.length = n ∧
      (r.1 = n ↔ off + n ≤ file.length) ∧
      (off + n ≤ file.length → r.2.buf = (file.drop off).take n)) f := by
  have hle := h.length_le
  obtain ⟨N, H, i, v, hrep, ho, hv, rfl⟩ := h
  rcases Nat.lt_or_ge (off + n) (2 ^ 32) with hwrap | hwrap
  · have hw : (Dst.kernel l).Writable n := hl.ge
    refine (Fs.readi_rep hrep ho hv hwrap hw).mono ?_
    rintro r g ⟨rfl, rfl⟩
    have hlen : ((v.bytes.drop off).take n).length = min n (v.bytes.length - off) := by
      rw [List.length_take, List.length_drop]
    have hbuf : ((Dst.kernel l).store ((v.bytes.drop off).take n)).buf =
        (v.bytes.drop off).take n ++ l.drop ((v.bytes.drop off).take n).length := by
      simp [Dst.store, Dst.buf, splice]
    refine ⟨rfl, ?_, ?_, fun hin => ?_⟩
    · rw [hbuf, List.length_append, List.length_drop, hlen]
      omega
    · rw [hlen]
      omega
    · have hrest : l.drop ((v.bytes.drop off).take n).length = [] := List.drop_of_length_le (by omega)
      rw [hbuf, hrest, List.append_nil]
  · -- `off + n < off` in 32 bits
    simp only [readi, inode, wp_bind, wp_get, wp_pure]
    rw [if_pos (.inr (by omega)), wp_pure]
    refine ⟨rfl, hl, ?_, fun hin => by omega⟩
    constructor
    · intro h0
      have h0 : (0 : ℤ) = n := h0
      omega
    · omega

theorem readLocal_file (h : IsFile s.fs ip file) (off : UInt32) (hn : 0 < n) (hn' : n ≤ 4096) :
    Wp (readLocal ip off n) E (fun r t => t = s ∧ (r.1 = n ↔ off.toNat + n ≤ file.length) ∧
      (off.toNat + n ≤ file.length → r.2 = (file.drop off.toNat).take n)) s := by
  unfold readLocal
  rw [wp_bind, wp_onFs]
  refine (readi_file h off.toNat_lt hn hn' (List.length_replicate ..)).mono ?_
  rintro r g ⟨rfl, -, hr, hbuf⟩
  rw [wp_pure]
  exact ⟨rfl, hr, hbuf⟩

/-- A read into physical memory fills it with so many bytes, those of the file if they are all there. -/
theorem readPage_file (h : IsFile s.fs ip file) (pa : UInt64) (off : UInt32) {n : UInt32} (hn : 0 < n.toNat)
    (hn' : n.toNat ≤ 4096) :
    Wp (readPage ip pa off n) E (fun r t => ∃ l : List UInt8, l.length = n.toNat ∧
      t = { s with mem := s.mem.setBytes pa l } ∧
      (r = n.toNat ↔ off.toNat + n.toNat ≤ file.length) ∧
      (off.toNat + n.toNat ≤ file.length → l = (file.drop off.toNat).take n.toNat)) s := by
  unfold readPage
  rw [wp_bind, wp_get, wp_bind, wp_onFs]
  refine (readi_file h off.toNat_lt hn hn' (length_bytesAt ..)).mono ?_
  rintro r g ⟨rfl, hlen, hr, hbuf⟩
  rw [wp_bind, wp_onMem, wp_modify, wp_pure]
  exact ⟨_, hlen, rfl, hr, hbuf⟩

/-! ### Segments -/

/-- What happens in memory while the program is loaded: the address space grows from `N` pages to `N'`. -/
structure Grows (s t : State) (root : UInt64) (N N' : ℕ) (X : UInt64 → Option UInt64) : Prop where
  same : t = { s with mem := t.mem }
  moves : Moves s.mem t.mem (owned s.mem root N) (owned t.mem root N')
  space : Space t.mem root N' X
  userPages : UserPages t.mem root N'

theorem Grows.trans {u : State} {N' N'' : ℕ} (h : Grows s t root N N' X) (h' : Grows t u root N' N'' X) :
    Grows s u root N N'' X where
  same := by
    rw [h'.same, h.same]
  moves := h.moves.trans h'.moves
  space := h'.space
  userPages := h'.userPages

theorem Grows.fs {N' : ℕ} (h : Grows s t root N N' X) : t.fs = s.fs := by
  rw [h.same]

theorem Grows.kend {N' : ℕ} (h : Grows s t root N N' X) : t.mem.kend = s.mem.kend := h.moves.kend

/-- Page `i` of a segment. -/
theorem toNat_add_offset {i : UInt32} (h : va.toNat + i.toNat < 2 ^ 64) :
    (va + i.toUInt64).toNat = va.toNat + i.toNat := by
  rw [toNat_add_of_lt (by rwa [UInt32.toNat_toUInt64]), UInt32.toNat_toUInt64]

theorem loadsegLoop_spec {offset sz i : UInt32} {rounds : ℕ} (hfile : IsFile s.fs ip file)
    (h : Space s.mem root N X) (hu : UserPages s.mem root N) (hkend : s.mem.kend ≠ 0) (hva : Aligned va)
    (hsz : va.toNat + sz.toNat ≤ N * 4096) (hi : i.toNat % 4096 = 0)
    (hoff : i < sz → offset.toNat + i.toNat < 2 ^ 32) (hrounds : sz.toNat ≤ i.toNat + rounds * 4096) :
    Wp (loadsegLoop root va ip offset sz rounds i) (fun _ => False)
      (fun r t => Grows s t root N N X ∧ (r = 0 ∧
        (i < sz → offset.toNat + sz.toNat ≤ file.length) ∧
        (∀ x < N * 4096, virtByte t.mem root x =
          if va.toNat + i.toNat ≤ x ∧ x < va.toNat + sz.toNat then
            some (file.getD (offset.toNat + (x - va.toNat)) 0)
          else virtByte s.mem root x) ∨ r = -1)) s := by
  have hN := h.lt
  have hva4096 : va.toNat % 4096 = 0 := hva
  have hrefl : Grows s s root N N X := ⟨rfl, .refl h.pageTable.kmem h.notFree, h, hu⟩
  have hdone : ¬ i < sz → ∀ x < N * 4096, virtByte s.mem root x =
      if va.toNat + i.toNat ≤ x ∧ x < va.toNat + sz.toNat then
        some (file.getD (offset.toNat + (x - va.toNat)) 0) else virtByte s.mem root x := by
    intro hge x _
    rw [UInt32.lt_iff_toNat_lt] at hge
    rw [if_neg (by omega)]
  induction rounds generalizing s i with
  | zero =>
    have hge : ¬ i < sz := by
      rw [UInt32.lt_iff_toNat_lt]
      omega
    rw [loadsegLoop, wp_pure]
    exact ⟨hrefl, .inl ⟨rfl, fun hlt => absurd hlt hge, hdone hge⟩⟩
  | succ rounds ih =>
    rw [loadsegLoop, wp_ite]
    refine ⟨fun hlt => ?_, fun hge => ?_⟩
    swap
    · rw [wp_pure]
      exact ⟨hrefl, .inl ⟨rfl, fun hlt => absurd hlt hge, hdone hge⟩⟩
    have hlt' := UInt32.lt_iff_toNat_lt.mp hlt
    have hoff := hoff hlt
    have hpage : (va + i.toUInt64).toNat = va.toNat + i.toNat := toNat_add_offset (by omega)
    have ha : Aligned (va + i.toUInt64) := by
      show (va + i.toUInt64).toNat % 4096 = 0
      omega
    have hb : below N (va + i.toUInt64) := by
      rw [below]
      omega
    obtain ⟨e, he, huser⟩ := hu _ ha hb
    have hne : PTE2PA e ≠ 0 := by
      have hle := UInt64.le_iff_toNat_le.mp (h.backed.isPage _ ⟨_, e, ha, hb, he, rfl⟩).le
      intro h0
      rw [h0, UInt64.toNat_zero] at hle
      exact hkend (UInt64.toNat_inj.mp (by rw [UInt64.toNat_zero]; omega))
    rw [wp_bind, wp_onMem, wp_walkaddr, he, Option.bind_some, if_neg huser]
    dsimp only
    rw [if_neg hne]
    obtain ⟨n, hn⟩ : ∃ n, n = if sz - i < 4096 then sz - i else 4096 := ⟨_, rfl⟩
    have hsub : (sz - i).toNat = sz.toNat - i.toNat := UInt32.toNat_sub_of_le _ _ (UInt32.le_of_lt hlt)
    have hnval : n.toNat = min (sz.toNat - i.toNat) 4096 := by
      rw [hn]
      split
      · rename_i hlast
        rw [UInt32.lt_iff_toNat_lt, hsub, show (4096 : UInt32).toNat = 4096 from rfl] at hlast
        omega
      · rename_i hmore
        rw [UInt32.lt_iff_toNat_lt, hsub, show (4096 : UInt32).toNat = 4096 from rfl] at hmore
        rw [show (4096 : UInt32).toNat = 4096 from rfl]
        omega
    rw [← hn, wp_bind]
    have hoffi : (offset + i).toNat = offset.toNat + i.toNat := by
      rw [UInt32.toNat_add, Nat.mod_eq_of_lt hoff]
    refine (readPage_file hfile (PTE2PA e) (offset + i) (by omega) (by omega)).mono ?_
    rintro r t ⟨l, hl, rfl, hr, hslice⟩
    rw [hoffi] at hr hslice
    obtain ⟨hre, hbytes⟩ := h.fill ha hb he (l := l) (by omega)
    rw [hpage] at hbytes
    have hgrows : Grows s { s with mem := s.mem.setBytes (PTE2PA e) l } root N N X :=
      ⟨rfl, hre.moves, hre.space, hre.userPages hu⟩
    rw [wp_ite]
    refine ⟨fun _ => ?_, fun hread => ?_⟩
    · rw [wp_pure]
      exact ⟨hgrows, .inr rfl⟩
    have hin := hr.mp (not_not.mp hread)
    have hlen := hfile.length_le
    have hnext : (i + 4096).toNat = i.toNat + 4096 := by
      rw [UInt32.toNat_add, show (4096 : UInt32).toNat = 4096 from rfl]
      omega
    have hrefl' : Grows { s with mem := s.mem.setBytes (PTE2PA e) l }
        { s with mem := s.mem.setBytes (PTE2PA e) l } root N N X :=
      ⟨rfl, .refl hre.space.pageTable.kmem hre.space.notFree, hre.space, hre.userPages hu⟩
    refine (ih (s := { s with mem := s.mem.setBytes (PTE2PA e) l }) hfile hre.space (hre.userPages hu)
      (hre.moves.kend.trans_ne hkend) (by omega) (fun _ => by omega) (by omega) hrefl' ?_).mono ?_
    · intro hge x _
      rw [UInt32.lt_iff_toNat_lt] at hge
      rw [if_neg (by omega)]
    rintro r u ⟨hgrows', ⟨rfl, hrest, hview⟩ | rfl⟩
    · refine ⟨hgrows.trans hgrows', .inl ⟨rfl, fun _ => ?_, fun x hx => ?_⟩⟩
      · by_cases hmore : i + 4096 < sz
        · exact hrest hmore
        · rw [UInt32.lt_iff_toNat_lt] at hmore
          omega
      · rw [hview x hx]
        show (if _ then _ else virtByte (s.mem.setBytes (PTE2PA e) l) root x) = _
        rw [hbytes x hx, hnext]
        by_cases hlater : va.toNat + (i.toNat + 4096) ≤ x ∧ x < va.toNat + sz.toNat
        · rw [if_pos hlater, if_pos (by omega)]
        rw [if_neg hlater]
        by_cases hhere : va.toNat + i.toNat ≤ x ∧ x < va.toNat + i.toNat + l.length
        · -- the page that was just read
          have hidx : offset.toNat + i.toNat + (x - (va.toNat + i.toNat)) =
              offset.toNat + (x - va.toNat) := by omega
          rw [if_pos hhere, if_pos (by omega), hslice hin, getD_slice hin (by omega), hidx]
        · rw [if_neg hhere, if_neg (by omega)]
    · exact ⟨hgrows.trans hgrows', .inr rfl⟩

/-! ### The loop over the program headers -/

theorem flags2perm_cases (flags : UInt32) :
    flags2perm flags = 0 ∨ flags2perm flags = PTE_X ∨ flags2perm flags = PTE_W ∨
      flags2perm flags = PTE_X ||| PTE_W := by
  unfold flags2perm
  dsimp only
  split_ifs
  · exact .inr (.inr (.inr rfl))
  · exact .inr (.inr (.inl rfl))
  · exact .inr (.inl rfl)
  · exact .inl rfl

/-- The permissions of a segment are flags that let users read. -/
theorem flags2perm_spec (flags : UInt32) :
    (PTE_R ||| PTE_U ||| flags2perm flags).toNat < 2 ^ 10 ∧ Leaf (PTE_R ||| PTE_U ||| flags2perm flags) ∧
      (PTE_R ||| PTE_U ||| flags2perm flags ||| PTE_V) &&& PTE_U ≠ 0 := by
  rcases flags2perm_cases flags with h | h | h | h
  all_goals
    rw [h]
    decide

theorem le_numPages (sz : UInt64) : sz.toNat ≤ numPages sz * 4096 := by
  rw [numPages]
  omega

/-- Memory for a segment: the size is at least what was asked for, and what is new is zero. -/
theorem alloc_spec {newsz : UInt64} (flags : UInt32) (h : Space s.mem root (numPages sz) X) (hX : Above X)
    (hu : UserPages s.mem root (numPages sz)) :
    Wp (onMem (uvmalloc root sz newsz (flags2perm flags))) (fun _ => False)
      (fun r t => (r = 0 ∧ Grows s t root (numPages sz) (numPages sz) X) ∨
        r ≠ 0 ∧ sz.toNat ≤ r.toNat ∧ newsz.toNat ≤ r.toNat ∧ Grows s t root (numPages sz) (numPages r) X ∧
        (∀ x < numPages sz * 4096, virtByte t.mem root x = virtByte s.mem root x) ∧
        ∀ x < numPages r * 4096, numPages sz * 4096 ≤ x → virtByte t.mem root x = some 0) s := by
  obtain ⟨hperm, hleaf, huser⟩ := flags2perm_spec flags
  rw [wp_onMem]
  refine (uvmalloc_spec h hX hperm hleaf).mono ?_
  rintro r m (⟨hlt, rfl, rfl⟩ | ⟨hle, ⟨rfl, hres, hz⟩ | ⟨rfl, hres⟩⟩)
  · -- the segment lies below the end
    have hlt := UInt64.lt_iff_toNat_lt.mp hlt
    have hne : r ≠ 0 := by
      rintro rfl
      exact absurd hlt (by simp)
    refine .inr ⟨hne, le_rfl, hlt.le, ⟨rfl, .refl h.pageTable.kmem h.notFree, h, hu⟩, fun _ _ => rfl, ?_⟩
    intro x hx hge
    omega
  · have hle := UInt64.le_iff_toNat_le.mp hle
    have hgrows : Grows s { s with mem := m } root (numPages sz) (numPages r) X :=
      ⟨rfl, hres.moves, hres.space, hu.grow hres hz huser⟩
    by_cases hzero : r = 0
    · refine .inl ⟨hzero, ?_⟩
      have hsz : sz = 0 := by
        rw [hzero, UInt64.toNat_zero] at hle
        exact UInt64.toNat_inj.mp (by rw [UInt64.toNat_zero]; omega)
      rw [hsz, hzero] at hgrows
      rwa [hsz]
    · refine .inr ⟨hzero, hle, le_rfl, hgrows, fun x hx => ?_, fun x hx hge => ?_⟩
      · have hmono := numPages_mono (UInt64.le_iff_toNat_le.mpr hle)
        exact hres.virtByte h.lt hx (lt_of_lt_of_le hx (Nat.mul_le_mul_right _ hmono))
      · exact hz.virtByte hres.space.lt hge hx
  · refine .inl ⟨rfl, rfl, hres.moves, hres.space, ?_⟩
    intro b hb hbN
    rw [show ({ s with mem := m } : State).mem = m from rfl, hres.lookup b hb hbN hbN]
    exact hu b hb hbN

/-- The program header at an offset of the file. -/
def header (file : List UInt8) (off : ℕ) : Proghdr := .ofBytes ((file.drop off).take PROGHDR)

/-- The program headers from an offset on. -/
def headersAt (file : List UInt8) : ℕ → ℕ → List Proghdr
  | _, 0 => []
  | off, n + 1 => header file off :: headersAt file (off + PROGHDR) n

/-- The bytes in memory after a segment is loaded over `m`. -/
def overlay (file : List UInt8) (m : ℕ → UInt8) (ph : Proghdr) (x : ℕ) : UInt8 :=
  if ph.load = true ∧ ph.vaddr.toNat ≤ x ∧ x < ph.vaddr.toNat + ph.filesz.toNat then
    file.getD (ph.off.toNat % 2 ^ 32 + (x - ph.vaddr.toNat)) 0
  else m x

/-- A segment that is loaded, into memory of size `sz`. -/
structure Accepted (file : List UInt8) (sz : ℕ) (ph : Proghdr) : Prop where
  le : ph.filesz.toNat ≤ ph.memsz.toNat
  aligned : Aligned ph.vaddr
  fits : ph.vaddr.toNat + ph.memsz.toNat ≤ sz
  inFile : 0 < ph.filesz.toNat → ph.off.toNat % 2 ^ 32 + ph.filesz.toNat ≤ file.length

theorem Accepted.mono {ph : Proghdr} {sz sz' : ℕ} (h : Accepted file sz ph) (hle : sz ≤ sz') :
    Accepted file sz' ph := ⟨h.le, h.aligned, h.fits.trans hle, h.inFile⟩

/-- The memory of size `sz` has the bytes `m`, which are zero past its last page. -/
structure Holds (s : Phys) (root sz : UInt64) (m : ℕ → UInt8) : Prop where
  byte : ∀ x < numPages sz * 4096, virtByte s root x = some (m x)
  zero : ∀ x, numPages sz * 4096 ≤ x → m x = 0

/-- How the loop ends: the headers are in the file, their segments were accepted, and memory has their bytes. -/
structure LoadsFrom (s t : State) (root : UInt64) (file : List UInt8) (left off : ℕ) (sz sz' : UInt64) : Prop where
  le : sz.toNat ≤ sz'.toNat
  inFile : 0 < left → off + PROGHDR * left ≤ file.length
  accepted : ∀ ph ∈ headersAt file off left, ph.load = true → Accepted file sz'.toNat ph
  holds : ∀ m, Holds s.mem root sz m → Holds t.mem root sz' ((headersAt file off left).foldl (overlay file) m)

theorem LoadsFrom.nil (s : State) (root : UInt64) (file : List UInt8) (off : ℕ) (sz : UInt64) :
    LoadsFrom s s root file 0 off sz sz :=
  ⟨le_rfl, nofun, nofun, fun _ h => h⟩

section Step

variable {u : State} {left : ℕ} {sz₁ sz₂ : UInt64}

/-- A header, and then the others. -/
theorem LoadsFrom.cons (h : LoadsFrom t u root file left (off + PROGHDR) sz₁ sz₂) (hle : sz.toNat ≤ sz₁.toNat)
    (hin : off + PROGHDR ≤ file.length) (hacc : (header file off).load = true →
      Accepted file sz₁.toNat (header file off))
    (hholds : ∀ m, Holds s.mem root sz m → Holds t.mem root sz₁ (overlay file m (header file off))) :
    LoadsFrom s u root file (left + 1) off sz sz₂ where
  le := hle.trans h.le
  inFile := by
    intro _
    rcases Nat.eq_zero_or_pos left with rfl | hpos
    · rwa [Nat.zero_add, Nat.mul_one]
    · have hrest := h.inFile hpos
      rw [Nat.mul_succ]
      omega
  accepted := by
    intro ph hph hload
    rcases List.mem_cons.mp hph with rfl | hph
    · exact (hacc hload).mono h.le
    · exact h.accepted ph hph hload
  holds := fun m hm => h.holds _ (hholds m hm)

end Step

/-- A segment that passes the checks, and for which there is memory, is loaded if the file has its bytes. -/
theorem segment_spec {ph : Proghdr} {sz₁ : UInt64} (hfile : IsFile s.fs ip file)
    (h : Space s.mem root (numPages sz₁) X) (hu : UserPages s.mem root (numPages sz₁)) (hkend : s.mem.kend ≠ 0)
    (hload : ph.load = true) (hle : ph.filesz.toNat ≤ ph.memsz.toNat) (ha : Aligned ph.vaddr)
    (hfits : ph.vaddr.toNat + ph.memsz.toNat ≤ sz₁.toNat) :
    Wp (loadseg root ph.vaddr ip ph.off.toUInt32 ph.filesz.toUInt32) (fun _ => False)
      (fun r t => Grows s t root (numPages sz₁) (numPages sz₁) X ∧ ((r = 0 ∧ Accepted file sz₁.toNat ph ∧
        ∀ x < numPages sz₁ * 4096, virtByte t.mem root x =
          if ph.load = true ∧ ph.vaddr.toNat ≤ x ∧ x < ph.vaddr.toNat + ph.filesz.toNat then
            some (file.getD (ph.off.toNat % 2 ^ 32 + (x - ph.vaddr.toNat)) 0)
          else virtByte s.mem root x) ∨ r = -1)) s := by
  have hN := h.lt
  have hszN := le_numPages sz₁
  have hfs : ph.filesz.toUInt32.toNat = ph.filesz.toNat := by
    rw [UInt64.toNat_toUInt32, Nat.mod_eq_of_lt (by omega)]
  have hoff : ph.off.toUInt32.toNat = ph.off.toNat % 2 ^ 32 := UInt64.toNat_toUInt32 _
  unfold loadseg
  refine (loadsegLoop_spec hfile h hu hkend ha (by omega) (by rw [UInt32.toNat_zero])
    (fun _ => by rw [UInt32.toNat_zero, hoff]; omega) (by rw [UInt32.toNat_zero]; omega)).mono ?_
  rw [hfs, hoff, UInt32.toNat_zero, Nat.add_zero]
  rintro r t ⟨hgrows, ⟨rfl, hin, hview⟩ | rfl⟩
  · refine ⟨hgrows, .inl ⟨rfl, ⟨hle, ha, hfits, fun hpos => hin ?_⟩, fun x hx => ?_⟩⟩
    · rw [UInt32.lt_iff_toNat_lt, hfs, UInt32.toNat_zero]
      exact hpos
    · rw [hview x hx]
      simp only [hload, true_and]
  · exact ⟨hgrows, .inr rfl⟩

theorem execLoad_spec {left : ℕ} {off : UInt32} (hfile : IsFile s.fs ip file)
    (h : Space s.mem root (numPages sz) X) (hX : Above X) (hu : UserPages s.mem root (numPages sz))
    (hkend : s.mem.kend ≠ 0) :
    Wp (execLoad root ip left off sz) (fun _ => False)
      (fun r t => Grows s t root (numPages sz) (numPages r.2) X ∧
        (r.1 = true → LoadsFrom s t root file left off.toNat sz r.2)) s := by
  induction left generalizing s off sz with
  | zero =>
    rw [execLoad, wp_pure]
    exact ⟨⟨rfl, .refl h.pageTable.kmem h.notFree, h, hu⟩, fun _ => .nil ..⟩
  | succ left ih =>
    have hrefl : Grows s s root (numPages sz) (numPages sz) X := ⟨rfl, .refl h.pageTable.kmem h.notFree, h, hu⟩
    rw [execLoad]
    refine (readLocal_file hfile off (by decide) (by decide)).bind ?_
    rintro ⟨n, buf⟩ t ⟨rfl, hn, hbuf⟩
    simp only [wp_ite, wp_pure]
    refine ⟨fun _ => ⟨hrefl, nofun⟩, fun hread => ?_⟩
    have hin : off.toNat + PROGHDR ≤ file.length := hn.mp (not_not.mp hread)
    have hlen := hfile.length_le
    have hnext : (off + 56).toNat = off.toNat + PROGHDR := by
      rw [UInt32.toNat_add, show (56 : UInt32).toNat = PROGHDR from rfl]
      omega
    obtain rfl : buf = (file.drop off.toNat).take PROGHDR := hbuf hin
    obtain ⟨ph, hph⟩ : ∃ ph, ph = header file off.toNat := ⟨_, rfl⟩
    rw [show Proghdr.ofBytes ((file.drop off.toNat).take PROGHDR) = header file off.toNat from rfl, ← hph]
    refine ⟨fun hskip => ?_, fun hload => ⟨fun _ => ⟨hrefl, nofun⟩, fun hmem => ⟨fun _ => ⟨hrefl, nofun⟩,
      fun hwrap => ⟨fun _ => ⟨hrefl, nofun⟩, fun halign => ?_⟩⟩⟩⟩
    · -- not a segment to be loaded
      refine (ih hfile h hu hkend).mono ?_
      rw [hnext]
      rintro r u ⟨hgrows, hloads⟩
      refine ⟨hgrows, fun hr => (hloads hr).cons le_rfl hin ?_ fun m hm => ?_⟩
      · rw [← hph, hskip]
        exact nofun
      · have hsame : overlay file m (header file off.toNat) = m := by
          funext x
          rw [overlay, ← hph, hskip, if_neg (by simp)]
        rwa [hsame]
    · have hload : ph.load = true := by simpa using hload
      have hle : ph.filesz.toNat ≤ ph.memsz.toNat := UInt64.le_iff_toNat_le.mp (UInt64.not_lt.mp hmem)
      have hend : (ph.vaddr + ph.memsz).toNat = ph.vaddr.toNat + ph.memsz.toNat := by
        have hge := UInt64.le_iff_toNat_le.mp (UInt64.not_lt.mp hwrap)
        have hv := ph.vaddr.toNat_lt
        have hm := ph.memsz.toNat_lt
        rw [UInt64.toNat_add] at hge ⊢
        omega
      have ha : Aligned ph.vaddr := by
        have hmod := congrArg UInt64.toNat (not_not.mp halign)
        rwa [UInt64.toNat_mod, UInt64.toNat_zero] at hmod
      refine (alloc_spec ph.flags h hX hu).bind ?_
      rintro sz₁ t' (⟨rfl, hgrows⟩ | ⟨hne, hsz, hnew, hgrows, hold, hzero⟩)
      · rw [if_pos rfl, wp_pure]
        exact ⟨hgrows, nofun⟩
      rw [if_neg hne, wp_bind]
      rw [hend] at hnew
      refine (segment_spec (hgrows.fs ▸ hfile) hgrows.space hgrows.userPages (hgrows.kend.trans_ne hkend) hload
        hle ha hnew).mono ?_
      rintro r t'' ⟨hgrows', ⟨rfl, hacc, hview⟩ | rfl⟩
      · rw [if_neg (by decide)]
        have hgrows₂ := hgrows.trans hgrows'
        refine (ih (hgrows₂.fs ▸ hfile) hgrows₂.space hgrows₂.userPages (hgrows₂.kend.trans_ne hkend)).mono ?_
        rw [hnext]
        rintro r u ⟨hgrows₃, hloads⟩
        refine ⟨hgrows₂.trans hgrows₃, fun hr => (hloads hr).cons hsz hin (fun _ => hph ▸ hacc) fun m hm => ?_⟩
        rw [← hph]
        have hmono := Nat.mul_le_mul_right 4096 (numPages_mono (UInt64.le_iff_toNat_le.mpr hsz))
        refine ⟨fun x hx => ?_, fun x hx => ?_⟩
        · rw [hview x hx, overlay]
          split
          · rfl
          · rcases Nat.lt_or_ge x (numPages sz * 4096) with hlt | hge
            · rw [hold x hlt, hm.byte x hlt]
            · rw [hzero x hx hge, hm.zero x hge]
        · have hszN := le_numPages sz₁
          rw [overlay, if_neg (by omega), hm.zero x (hmono.trans hx)]
      · rw [if_pos (by decide), wp_pure]
        exact ⟨hgrows.trans hgrows', nofun⟩

/-! ### The program -/

/-- The ELF header of a file. -/
def elfhdr (file : List UInt8) : Elfhdr := .ofBytes (file.take ELFHDR)

/-- An address space was made out of free pages, and nothing else has changed. -/
structure Made (s t : State) (root sz : UInt64) (X : UInt64 → Option UInt64) : Prop where
  same : t = { s with mem := t.mem }
  moves : Moves s.mem t.mem ∅ (owned t.mem root (numPages sz))
  space : Space t.mem root (numPages sz) X

/-- The program in memory is what `exec` reads of the file. -/
structure IsProgram (m : Phys) (file : List UInt8) (p : Program) : Prop where
  header : ELFHDR ≤ file.length
  magic : (elfhdr file).magic = UInt32.ofNat ELF_MAGIC
  entry : p.entry = (elfhdr file).entry
  inFile : 0 < (elfhdr file).phnum.toNat →
    (elfhdr file).phoff.toNat % 2 ^ 32 + PROGHDR * (elfhdr file).phnum.toNat ≤ file.length
  accepted : ∀ ph ∈ headersAt file ((elfhdr file).phoff.toNat % 2 ^ 32) (elfhdr file).phnum.toNat,
    ph.load = true → Accepted file p.sz.toNat ph
  holds : Holds m p.pagetable p.sz
    ((headersAt file ((elfhdr file).phoff.toNat % 2 ^ 32) (elfhdr file).phnum.toNat).foldl (overlay file) fun _ => 0)
  userPages : UserPages m p.pagetable (numPages p.sz)

/-- How the loading ends. -/
inductive LoadEnd (s : State) (file : List UInt8) (X : UInt64 → Option UInt64) : Loaded → State → Prop
  | nothing (t : State) (same : t = { s with mem := t.mem }) (moves : Moves s.mem t.mem ∅ ∅) :
      LoadEnd s file X (.bad none 0) t
  | part (t : State) (root sz : UInt64) (made : Made s t root sz X) : LoadEnd s file X (.bad (some root) sz) t
  | all (t : State) (p : Program) (made : Made s t p.pagetable p.sz X) (program : IsProgram t.mem file p) :
      LoadEnd s file X (.program p) t

theorem loadProgram_spec (trampoline : UInt64) (hfile : IsFile s.fs ip file) (hk : s.mem.Kmem)
    (hkend : s.mem.kend ≠ 0) :
    Wp (loadProgram trampoline ip) (fun _ => False) (LoadEnd s file (fixed trampoline s.proc.trapframe)) s := by
  have hnothing : LoadEnd s file (fixed trampoline s.proc.trapframe) (.bad none 0) s :=
    .nothing s rfl (.refl hk nofun)
  rw [loadProgram]
  refine (readLocal_file hfile 0 (by decide) (by decide)).bind ?_
  rintro ⟨n, buf⟩ t ⟨rfl, hn, hbuf⟩
  rw [UInt32.toNat_zero, Nat.zero_add] at hn hbuf
  rw [List.drop_zero] at hbuf
  simp only [wp_ite, wp_pure]
  refine ⟨fun _ => hnothing, fun hread => ?_⟩
  have hin : ELFHDR ≤ file.length := hn.mp (not_not.mp hread)
  obtain rfl : buf = file.take ELFHDR := hbuf hin
  rw [show Elfhdr.ofBytes (file.take ELFHDR) = elfhdr file from rfl]
  refine ⟨fun _ => hnothing, fun hmagic => ?_⟩
  rw [wp_bind, wp_get, wp_bind, wp_onMem]
  refine (procPagetable_spec trampoline t.proc.trapframe hk).mono ?_
  rintro o m (⟨rfl, hmoves⟩ | ⟨root, rfl, hspace, hmoves⟩)
  · exact (wp_pure ..).mpr (.nothing _ rfl hmoves)
  dsimp only
  rw [wp_bind]
  rw [← numPages_zero] at hspace hmoves
  have huser : UserPages m root (numPages 0) := numPages_zero ▸ UserPages.zero m root
  refine (execLoad_spec (s := { t with mem := m }) (X := fixed trampoline t.proc.trapframe) hfile hspace
    (above_fixed _ _) huser (hmoves.kend.trans_ne hkend)).mono ?_
  rintro ⟨ok, sz⟩ u ⟨hgrows, hloads⟩
  have hmade : Made t u root sz (fixed trampoline t.proc.trapframe) := by
    refine ⟨?_, hmoves.trans hgrows.moves, hgrows.space⟩
    rw [hgrows.same]
  rw [wp_ite, wp_pure, wp_pure]
  refine ⟨fun hok => ?_, fun _ => .part u root sz hmade⟩
  have hloads := hloads hok
  rw [UInt64.toNat_toUInt32] at hloads
  refine .all u ⟨root, sz, (elfhdr file).entry⟩ hmade ?_
  refine ⟨hin, not_not.mp hmagic, rfl, hloads.inFile, hloads.accepted, hloads.holds _ ⟨?_, fun _ _ => rfl⟩,
    hgrows.userPages⟩
  rw [numPages_zero, Nat.zero_mul]
  exact nofun

end Exec

end Xv6
