import Xv6.Exec.Arguments

/-! # What the program headers say

The fields of the program headers are numbers of 64 bits, and `exec` passes some of them through variables of
32 bits. It loads what the headers say if these fields fit. -/

namespace Xv6

open Phys

namespace Exec

open Vm

variable {s t : State} {ip : Fin NINODE} {file : List UInt8} {m : ℕ → UInt8} {ph : Proghdr} {hs : List Proghdr}
  {p : Program} {x : ℕ}

/-- The program headers that the file says it has. -/
def proghdrs (file : List UInt8) : List Proghdr :=
  headersAt file (elfhdr file).phoff.toNat (elfhdr file).phnum.toNat

/-- Page `k` of the address space has bytes of the segment. -/
def Proghdr.HasPage (ph : Proghdr) (k : ℕ) : Prop :=
  ph.vaddr.toNat < (k + 1) * 4096 ∧ k * 4096 < ph.vaddr.toNat + ph.memsz.toNat

/-- The segments of two headers have no page in common. -/
def Apart (a b : Proghdr) : Prop := a.load = true → b.load = true → ∀ k, ¬ (a.HasPage k ∧ b.HasPage k)

/-- The headers, and the parts of the file that they name, are there, and memory has what they say. -/
structure AsHeaders (m : Phys) (root : UInt64) (file : List UInt8) : Prop where
  headers : 0 < (elfhdr file).phnum.toNat →
    (elfhdr file).phoff.toNat + PROGHDR * (elfhdr file).phnum.toNat ≤ file.length
  inFile : ∀ ph ∈ proghdrs file, ph.load = true → ∀ i < ph.filesz.toNat, ph.off.toNat + i < file.length
  byte : ∀ ph ∈ proghdrs file, ph.load = true → ∀ i < ph.filesz.toNat,
    virtByte m root (ph.vaddr.toNat + i) = some (file.getD (ph.off.toNat + i) 0)
  zero : ∀ ph ∈ proghdrs file, ph.load = true → ∀ i, ph.filesz.toNat ≤ i → i < ph.memsz.toNat →
    virtByte m root (ph.vaddr.toNat + i) = some 0

/-! ### One segment over the other -/

/-- The address `x` is not in the part of the segment that comes from the file. -/
theorem overlay_of_not (h : ph.load = true → ¬ (ph.vaddr.toNat ≤ x ∧ x < ph.vaddr.toNat + ph.filesz.toNat)) :
    overlay file m ph x = m x := by
  rw [overlay, if_neg]
  rintro ⟨hload, hin⟩
  exact h hload hin

theorem foldl_overlay_of_not
    (h : ∀ ph ∈ hs, ph.load = true → ¬ (ph.vaddr.toNat ≤ x ∧ x < ph.vaddr.toNat + ph.filesz.toNat)) :
    hs.foldl (overlay file) m x = m x := by
  induction hs generalizing m with
  | nil => rfl
  | cons ph hs ih =>
    rw [List.foldl_cons, ih fun q hq => h q (List.mem_cons_of_mem _ hq)]
    exact overlay_of_not (h ph List.mem_cons_self)

/-- Segments that are apart do not overwrite each other. -/
theorem not_in_of_apart {a : Proghdr} (hle : a.load = true → a.filesz.toNat ≤ a.memsz.toNat)
    (hload : ph.load = true) (hx : ph.vaddr.toNat ≤ x) (hx' : x < ph.vaddr.toNat + ph.memsz.toNat)
    (h : Apart a ph ∨ Apart ph a) (ha : a.load = true) :
    ¬ (a.vaddr.toNat ≤ x ∧ x < a.vaddr.toNat + a.filesz.toNat) := by
  rintro ⟨hax, hax'⟩
  have hle := hle ha
  have hpage : a.HasPage (x / 4096) ∧ ph.HasPage (x / 4096) := by
    unfold Proghdr.HasPage
    omega
  rcases h with h | h
  · exact h ha hload (x / 4096) hpage
  · exact h hload ha (x / 4096) hpage.symm

theorem foldl_overlay_of_mem (hpair : hs.Pairwise Apart)
    (hle : ∀ a ∈ hs, a.load = true → a.filesz.toNat ≤ a.memsz.toNat) (hmem : ph ∈ hs) (hload : ph.load = true)
    (hx : ph.vaddr.toNat ≤ x) (hx' : x < ph.vaddr.toNat + ph.memsz.toNat) :
    hs.foldl (overlay file) m x = overlay file m ph x := by
  obtain ⟨before, after, rfl⟩ := List.append_of_mem hmem
  obtain ⟨-, hafter, hbefore⟩ := List.pairwise_append.mp hpair
  rw [List.foldl_append, List.foldl_cons, foldl_overlay_of_not]
  · have hbase : before.foldl (overlay file) m x = m x := foldl_overlay_of_not fun a ha =>
      not_in_of_apart (hle a (List.mem_append_left _ ha)) hload hx hx'
        (.inl (hbefore a ha ph List.mem_cons_self))
    rw [overlay, overlay, hbase]
  · intro a ha
    have hmem : a ∈ before ++ ph :: after := List.mem_append_right _ (List.mem_cons_of_mem _ ha)
    exact not_in_of_apart (hle a hmem) hload hx hx' (.inr ((List.pairwise_cons.mp hafter).1 a ha))

/-! ### What is loaded -/

/-- The offset of the headers, and those of the segments, fit in 32 bits. -/
def OffsetsFit (file : List UInt8) : Prop :=
  (0 < (elfhdr file).phnum.toNat → (elfhdr file).phoff.toNat < 2 ^ 32) ∧
    ∀ ph ∈ proghdrs file, ph.load = true → 0 < ph.filesz.toNat → ph.off.toNat < 2 ^ 32

theorem IsProgram.asHeaders (h : IsProgram t.mem file p) (hpair : (proghdrs file).Pairwise Apart)
    (hfit : OffsetsFit file) : AsHeaders t.mem p.pagetable file := by
  rcases Nat.eq_zero_or_pos (elfhdr file).phnum.toNat with hnone | hpos
  · have hnil : proghdrs file = [] := by
      rw [proghdrs, hnone]
      rfl
    refine ⟨fun hpos => absurd hpos (by omega), ?_, ?_, ?_⟩
    all_goals
      rw [hnil]
      exact nofun
  have hoff := Nat.mod_eq_of_lt (hfit.1 hpos)
  have hin := h.inFile hpos
  have hacc := h.accepted
  have hbyte := h.holds.byte
  rw [hoff] at hin
  rw [hoff, ← proghdrs] at hacc hbyte
  have hle : ∀ a ∈ proghdrs file, a.load = true → a.filesz.toNat ≤ a.memsz.toNat :=
    fun a ha hload => (hacc a ha hload).le
  -- the bytes of a segment are those of the file, or zero
  have hview : ∀ ph ∈ proghdrs file, ph.load = true → ∀ i < ph.memsz.toNat,
      virtByte t.mem p.pagetable (ph.vaddr.toNat + i) =
        some (overlay file (fun _ => 0) ph (ph.vaddr.toNat + i)) := by
    intro ph hph hload i hi
    have hfits := (hacc ph hph hload).fits
    have hsz := le_numPages p.sz
    rw [hbyte _ (by omega), foldl_overlay_of_mem hpair hle hph hload (by omega) (by omega)]
  refine ⟨fun _ => hin, fun ph hph hload i hi => ?_, fun ph hph hload i hi => ?_, fun ph hph hload i hge hi => ?_⟩
  · have hmod := Nat.mod_eq_of_lt (hfit.2 ph hph hload (by omega))
    have hrange := (hacc ph hph hload).inFile (by omega)
    omega
  · have hmod := Nat.mod_eq_of_lt (hfit.2 ph hph hload (by omega))
    have hmem := hle ph hph hload
    rw [hview ph hph hload i (by omega), overlay, if_pos ⟨hload, by omega, by omega⟩, hmod, Nat.add_sub_cancel_left]
  · rw [hview ph hph hload i hi, overlay_of_not fun _ => by omega]

/-- **`exec` loads what the program headers say exactly when their offsets fit in 32 bits.** For every file that
it accepts and whose segments have no page in common: before the stack is built, the headers and the ranges they
name are in the file and memory has their bytes, followed by zeros, if and only if the offset of the headers and
those of the segments are less than 2^32. -/
theorem exec_loads_headers {trampoline : UInt64} (hfile : IsFile s.fs ip file) (hk : s.mem.Kmem)
    (hkend : s.mem.kend ≠ 0) (hrun : loadProgram trampoline ip s = .ok (.program p, t))
    (hpair : (proghdrs file).Pairwise Apart) :
    AsHeaders t.mem p.pagetable file ↔ OffsetsFit file := by
  have hend := (loadProgram_spec trampoline hfile hk hkend).ok hrun
  have hlen := hfile.length_le
  obtain ⟨-, hprogram⟩ : Made s t p.pagetable p.sz (fixed trampoline s.proc.trapframe) ∧
      IsProgram t.mem file p := by
    cases hend with
    | all _ _ made program => exact ⟨made, program⟩
  constructor
  · intro h
    refine ⟨fun hpos => ?_, fun ph hph hload hpos => ?_⟩
    · have hin := h.headers hpos
      omega
    · have hin := h.inFile ph hph hload 0 hpos
      omega
  · exact hprogram.asHeaders hpair

theorem resolve_disk : ∀ wrap ∈ ([0, 1] : List UInt8),
    (Nodes.resolve (disk wrap).node ROOTINO [97] false).map Prod.fst = some 2 := by decide +kernel

/-- The file `a` is found and its program is loaded. -/
theorem disk_loads {wrap : UInt8} (h : wrap ∈ ([0, 1] : List UInt8)) :
    ∃ ip u p t, IsFile u.fs ip (elfFile wrap) ∧ u.mem = fresh.2 ∧ loadProgram 0x80001000 ip u = .ok (.program p, t) := by
  obtain ⟨p, v, hbuild⟩ := disk_builds h
  obtain ⟨ip, u, q, t, hopen, hload⟩ := load_of_build hbuild
  have hend := (openProgram_spec (disk_lookup wrap) [97]).ok hopen
  cases hend with
  | found _ _ file opens _ mem =>
    refine ⟨ip, u, q, t, ?_, mem, hload⟩
    have hfile := opens.isFile
    obtain ⟨i, name, nd, -, hres, hnd, rfl⟩ := opens.opened
    have hi := resolve_disk wrap h
    rw [hres, Option.map_some, Option.some.injEq] at hi
    obtain rfl : i = 2 := hi
    rwa [← Option.some.inj hnd] at hfile

/-- The file whose headers are where it says. -/
theorem exec_loads_headers_four : ∃ u root, AsHeaders u root (elfFile 0) ∧ OffsetsFit (elfFile 0) := by
  obtain ⟨ip, u, p, t, hfile, hmem, hload⟩ := disk_loads (show 0 ∈ _ by decide)
  obtain ⟨hspace, hmoves⟩ := fresh_spec
  have hfit : OffsetsFit (elfFile 0) := ⟨by decide +kernel, by decide +kernel⟩
  refine ⟨t.mem, p.pagetable, (exec_loads_headers hfile ?_ ?_ hload ?_).mpr hfit, hfit⟩
  · rw [hmem]
    exact hspace.pageTable.kmem
  · rw [hmem]
    exact hmoves.kend.trans_ne (by decide)
  · exact List.pairwise_singleton _ _

/-- A file of 120 bytes that says its only header is at 2^32 + 64 is executed with the header at 64. -/
theorem exec_wraps_phoff : (elfFile 1).length = 120 ∧ (elfhdr (elfFile 1)).phoff.toNat = 2 ^ 32 + 64 ∧
    (proghdrs (elfFile 1)).Pairwise Apart ∧
    (∃ ip u p t, IsFile u.fs ip (elfFile 1) ∧ loadProgram 0x80001000 ip u = .ok (.program p, t) ∧
      ¬ AsHeaders t.mem p.pagetable (elfFile 1)) ∧
    ∃ t, exec 0x80001000 0x80021000 [97] [0x80022000] (process ((disk 1).fs 1)) = .ok (1, t) := by
  have hlen : (elfFile 1).length = 120 := by decide
  have hphoff : (elfhdr (elfFile 1)).phoff.toNat = 2 ^ 32 + 64 := by decide +kernel
  have hphnum : 0 < (elfhdr (elfFile 1)).phnum.toNat := by decide +kernel
  refine ⟨hlen, hphoff, List.pairwise_singleton _ _, ?_, ?_⟩
  · obtain ⟨ip, u, p, t, hfile, -, hload⟩ := disk_loads (show 1 ∈ _ by decide)
    refine ⟨ip, u, p, t, hfile, hload, fun h => ?_⟩
    have hin := h.headers hphnum
    rw [hphoff, hlen] at hin
    omega
  · obtain ⟨p, v, hbuild⟩ := disk_builds (show 1 ∈ _ by decide)
    obtain ⟨r, t, hrun, hend⟩ := exec_of_build (process_starts (disk_lookup 1)) hbuild
    rcases hend with ⟨-, hover, -⟩ | ⟨rfl, -⟩
    · exact absurd hover (by decide)
    · exact ⟨t, hrun⟩

end Exec

end Xv6
