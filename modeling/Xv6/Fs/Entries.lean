import Xv6.Fs.Dir
import Xv6.Fs.Node

/-! # What the directory code does

The bytes of a directory are a list of entries. `dirlookup` finds the first entry in use with a
matching name, `dirlink` overwrites the first free entry or appends one, `isdirempty` looks at all
entries but the first two. Names match when they agree up to the first NUL among their first
`DIRSIZ` bytes. -/

namespace Xv6

open Function

/-! ## Names -/

/-- The part of a name that counts. -/
def cut (n : ℕ) (l : List UInt8) : List UInt8 := (l.take n).takeWhile (· ≠ 0)

theorem cut_succ (n : ℕ) (l : List UInt8) :
    cut (n + 1) l = if l.headD 0 = 0 then [] else l.headD 0 :: cut n l.tail := by
  cases l with
  | nil => rfl
  | cons a l => by_cases h : a = 0 <;> simp [cut, h]

/-- `strncmp` compares the parts that count. -/
theorem strncmp_eq_zero_iff (n : ℕ) (p q : List UInt8) : strncmp n p q = 0 ↔ cut n p = cut n q := by
  induction n generalizing p q with
  | zero => simp [strncmp, cut]
  | succ n ih =>
    rw [strncmp, cut_succ, cut_succ]
    by_cases heq : p.headD 0 = q.headD 0
    · by_cases h0 : p.headD 0 = 0
      · have h0' : q.headD 0 = 0 := heq ▸ h0
        rw [if_neg fun hc => hc.1 h0, if_pos h0, if_pos h0', h0, h0']
        simp
      · rw [if_pos ⟨h0, heq⟩, if_neg h0, if_neg (heq ▸ h0), ih, heq]
        simp
    · -- the first bytes differ, so the parts do unless both are empty
      rw [if_neg fun hc => heq hc.2]
      have hne : ((p.headD 0).toNat : ℤ) - (q.headD 0).toNat ≠ 0 := by
        intro h
        apply heq
        apply UInt8.toNat_inj.mp
        omega
      refine iff_of_false hne ?_
      by_cases h0 : p.headD 0 = 0
      · rw [if_pos h0, if_neg fun hq => heq (h0.trans hq.symm)]
        simp
      · rw [if_neg h0]
        split
        · simp
        · simp only [List.cons.injEq, not_and]
          exact fun h => absurd h heq

theorem namecmp_eq_zero_iff (s t : List UInt8) : namecmp s t = 0 ↔ cut DIRSIZ s = cut DIRSIZ t :=
  strncmp_eq_zero_iff DIRSIZ s t

@[simp] theorem length_strncpy (t : List UInt8) (n : ℕ) : (strncpy t n).length = n := by
  simp [strncpy]
  omega

/-- Padding a name does not change it. -/
@[simp] theorem cut_strncpy (t : List UInt8) (n : ℕ) : cut n (strncpy t n) = cut n t := by
  unfold cut
  rw [List.take_of_length_le (Nat.le_of_eq (length_strncpy t n)), strncpy]
  generalize t.take n = l
  induction l with
  | nil => cases n - t.length <;> simp [List.replicate_succ]
  | cons a l ih =>
    simp only [List.cons_append, List.takeWhile_cons]
    split
    · rw [ih]
    · rfl

/-! ## Slices of spliced lists -/

section Splice

variable {l b : List UInt8} {off : ℕ}

theorem length_splice (h : off ≤ l.length) :
    (splice l off b).length = max l.length (off + b.length) := by
  simp only [splice, List.length_append, List.length_take, List.length_drop]
  omega

theorem slice_splice_same (h : off ≤ l.length) :
    ((splice l off b).drop off).take b.length = b := by
  have hlen : (l.take off).length = off := by simp [h]
  rw [splice, List.append_assoc, List.drop_left' hlen, List.take_left' rfl]

theorem slice_splice_disjoint {off' n : ℕ} (h : off ≤ l.length)
    (hd : off' + n ≤ off ∨ off + b.length ≤ off') :
    ((splice l off b).drop off').take n = (l.drop off').take n := by
  have hlen : (l.take off).length = off := by simp [h]
  rcases hd with hd | hd
  · -- before the change
    rw [splice, List.append_assoc, List.drop_append_of_le_length (by omega),
      List.take_append_of_le_length (by simp; omega), List.drop_take, List.take_take,
      Nat.min_eq_left (by omega)]
  · -- after it
    rw [splice, List.append_assoc, ← List.append_assoc]
    have hpre : (l.take off ++ b).length = off + b.length := by simp [h]
    obtain ⟨k, rfl⟩ := Nat.exists_eq_add_of_le hd
    rw [← hpre, ← List.drop_drop, List.drop_left, List.drop_drop, hpre]

end Splice

/-! ## Entries -/

theorem Dirent.decode_encode {de : Dirent} (hi : de.inum < 2 ^ 16) (hn : de.name.length = DIRSIZ) :
    Dirent.decode de.encode = de := by
  obtain ⟨inum, name⟩ := de
  have hlen : (Bytes.leBytes 2 inum).length = 2 := Bytes.length_leBytes 2 inum
  have hname : name.length = DIRSIZ := hn
  rw [decode, encode, List.take_left' hlen, List.drop_left' hlen, Bytes.leNat_leBytes,
    Nat.mod_eq_of_lt (show inum < 256 ^ 2 from hi), ← hname, List.take_length]

theorem Dirent.length_encode {de : Dirent} (hn : de.name.length = DIRSIZ) :
    de.encode.length = DIRENT := by
  rw [encode, List.length_append, Bytes.length_leBytes, hn]

/-- Entry `k` of a directory. -/
def entryAt (bytes : List UInt8) (k : ℕ) : Dirent := .decode ((bytes.drop (DIRENT * k)).take DIRENT)

/-- The entries of a directory. -/
def entries (bytes : List UInt8) : List Dirent :=
  (List.range (bytes.length / DIRENT)).map (entryAt bytes)

section Entries

variable {bytes : List UInt8} {de : Dirent} {j k : ℕ}

@[simp] theorem length_entries (bytes : List UInt8) :
    (entries bytes).length = bytes.length / DIRENT := by
  simp [entries]

@[simp] theorem entries_nil : entries [] = [] := by simp [entries]

theorem entries_getElem? (hk : k < bytes.length / DIRENT) :
    (entries bytes)[k]? = some (entryAt bytes k) := by
  simp [entries, hk]

theorem entryAt_splice (hi : de.inum < 2 ^ 16) (hn : de.name.length = DIRSIZ)
    (hk : DIRENT * k ≤ bytes.length) (j : ℕ) :
    entryAt (splice bytes (DIRENT * k) de.encode) j = if j = k then de else entryAt bytes j := by
  have hlen := Dirent.length_encode hn
  rcases eq_or_ne j k with rfl | hj
  · have := slice_splice_same (b := de.encode) hk
    rw [hlen] at this
    rw [if_pos rfl, entryAt, this, Dirent.decode_encode hi hn]
  · rw [if_neg hj, entryAt, slice_splice_disjoint hk, entryAt]
    rw [hlen]
    simp only [DIRENT, DIRSIZ]
    omega

/-- **Writing an entry**: the list of entries has it at that place, at the end if there was none. -/
theorem entries_splice (hi : de.inum < 2 ^ 16) (hn : de.name.length = DIRSIZ)
    (hdvd : DIRENT ∣ bytes.length) (hk : k ≤ (entries bytes).length) :
    entries (splice bytes (DIRENT * k) de.encode) =
      if k < (entries bytes).length then (entries bytes).set k de else entries bytes ++ [de] := by
  obtain ⟨m, hm⟩ := hdvd
  have hcount : (entries bytes).length = m := by rw [length_entries, hm, Nat.mul_div_cancel_left _ (by decide)]
  have hle : DIRENT * k ≤ bytes.length := by
    rw [hm]
    exact Nat.mul_le_mul_left _ (by omega)
  have hlen : (entries (splice bytes (DIRENT * k) de.encode)).length = max m (k + 1) := by
    rw [length_entries, length_splice hle, Dirent.length_encode hn, hm]
    simp only [DIRENT, DIRSIZ]
    omega
  by_cases hlt : k < (entries bytes).length
  · rw [if_pos hlt]
    apply List.ext_getElem?
    intro j
    by_cases hj : j < m
    · rw [entries_getElem? (by rw [← length_entries]; omega), entryAt_splice hi hn hle,
        List.getElem?_set]
      by_cases hjk : k = j
      · rw [if_pos hjk.symm, if_pos hjk, if_pos hlt]
      · rw [if_neg (Ne.symm hjk), if_neg hjk, entries_getElem? (by rw [← length_entries]; omega)]
    · rw [List.getElem?_eq_none (by omega), List.getElem?_eq_none (by rw [List.length_set]; omega)]
  · obtain rfl : k = m := by omega
    rw [if_neg hlt]
    apply List.ext_getElem?
    intro j
    by_cases hj : j < k + 1
    · rw [entries_getElem? (by rw [← length_entries]; omega), entryAt_splice hi hn hle]
      by_cases hjk : j = k
      · rw [if_pos hjk, hjk, ← hcount, List.getElem?_concat_length]
      · rw [if_neg hjk, List.getElem?_append_left (by omega),
          entries_getElem? (by rw [← length_entries]; omega)]
    · rw [List.getElem?_eq_none (by omega), List.getElem?_eq_none]
      rw [List.length_append, List.length_singleton]
      omega

theorem dvd_length_splice (hn : de.name.length = DIRSIZ) (hdvd : DIRENT ∣ bytes.length)
    (hk : DIRENT * k ≤ bytes.length) : DIRENT ∣ (splice bytes (DIRENT * k) de.encode).length := by
  rw [length_splice hk, Dirent.length_encode hn]
  rcases Nat.le_total bytes.length (DIRENT * k + DIRENT) with h | h
  · rw [Nat.max_eq_right h]
    exact ⟨k + 1, rfl⟩
  · rwa [Nat.max_eq_left h]

end Entries

/-- The index of the entry with the name. -/
def findEntry (es : List Dirent) (name : List UInt8) : Option ℕ := es.findIdx? (Dirent.named name)

/-- The index of the first free entry, their number if there is none. -/
def freeEntry (es : List Dirent) : ℕ := es.findIdx Dirent.free

/-- No entry after the first two is in use. -/
def NoEntries (es : List Dirent) : Prop := ∀ de ∈ es.drop 2, de.inum = 0

instance (es : List Dirent) : Decidable (NoEntries es) := inferInstanceAs (Decidable (∀ _ ∈ _, _))

/-- A directory of a file system with `n` inodes: whole entries that name inodes which exist. -/
structure Node.IsDir (n : ℕ) (v : Node) : Prop where
  type : v.type = T_DIR
  dvd : DIRENT ∣ v.bytes.length
  lt : ∀ de ∈ entries v.bytes, de.inum < n

/-- The directory with its entry `k` overwritten. -/
def Node.setEntry (v : Node) (k : ℕ) (de : Dirent) : Node :=
  { v with bytes := splice v.bytes (DIRENT * k) de.encode }

/-! ## The loop over the entries -/

namespace Fs

variable {s t u : Fs} {H : Fin NINODE → ℕ} {E : Panic → Prop} {N : Nodes} {dp ip : Fin NINODE}
  {i k : ℕ} {v : Node} {p : Panic} {stop : Dirent → Bool}

theorem Rep.length_le (h : s.Rep N H) (hv : N i = some v) : v.bytes.length ≤ MAXFILE * BSIZE := by
  obtain ⟨hi, ht, rfl⟩ := h.of_apply hv
  rw [length_nodeOf]
  exact (h.coherent.sized i hi (Set.notMem_empty i) ht).size_le

/-- Reading an entry. -/
theorem readDirent_spec (h : s.Rep N H) (ho : s.Opened H dp i) (hv : N i = some v)
    (hdvd : DIRENT ∣ v.bytes.length) (hk : DIRENT * k < v.bytes.length) :
    Wp (readDirent dp (DIRENT * k) p) E
      (fun de t => t = s ∧ (entries v.bytes)[k]? = some de) s := by
  have hle : v.bytes.length ≤ 268 * 1024 := h.length_le hv
  have hwrap : DIRENT * k + DIRENT < 2 ^ 32 := by
    simp only [DIRENT, DIRSIZ] at *
    omega
  rw [readDirent, wp_bind]
  have hw : (Dst.kernel (List.replicate DIRENT 0)).Writable DIRENT := by
    show DIRENT ≤ _
    rw [List.length_replicate]
  refine (readi_rep h ho hv hwrap hw).mono fun r t hr => ?_
  obtain ⟨rfl, rfl⟩ := hr
  have hlen : ((v.bytes.drop (DIRENT * k)).take DIRENT).length =
      min DIRENT (v.bytes.length - DIRENT * k) := by
    rw [List.length_take, List.length_drop]
  have hfull : DIRENT * k + DIRENT ≤ v.bytes.length := by
    obtain ⟨m, hm⟩ := hdvd
    simp only [DIRENT, DIRSIZ] at *
    omega
  have h16 : ((v.bytes.drop (DIRENT * k)).take DIRENT).length = DIRENT := by omega
  rw [if_pos (by rw [h16]), wp_pure]
  refine ⟨rfl, ?_⟩
  have hlt : k < v.bytes.length / DIRENT := by
    simp only [DIRENT, DIRSIZ] at *
    omega
  rw [entries_getElem? hlt, entryAt]
  have hstore : (Dst.kernel (List.replicate DIRENT 0)).store
      ((v.bytes.drop (DIRENT * k)).take DIRENT) =
      .kernel ((v.bytes.drop (DIRENT * k)).take DIRENT) := by
    simp [Dst.store, splice, h16]
  rw [hstore]
  rfl

/-- What the loop finds from entry `k` on: entry `j`, or the end. -/
inductive Scanned (es : List Dirent) (stop : Dirent → Bool) (k : ℕ) : Option Dirent × ℕ → Prop
  | found (j : ℕ) (de : Dirent) (hkj : k ≤ j) (hde : es[j]? = some de) (hstop : stop de = true)
      (hbefore : ∀ l de, k ≤ l → l < j → es[l]? = some de → stop de = false) :
      Scanned es stop k (some de, DIRENT * j)
  | ended (hno : ∀ l de, k ≤ l → es[l]? = some de → stop de = false) :
      Scanned es stop k (none, DIRENT * max k es.length)

/-- One more entry at which the loop goes on. -/
theorem Scanned.cons {es : List Dirent} {de : Dirent} {r : Option Dirent × ℕ}
    (h : Scanned es stop (k + 1) r) (hde : es[k]? = some de) (hstop : stop de = false) :
    Scanned es stop k r := by
  have hat : ∀ l de', k ≤ l → ¬ k + 1 ≤ l → es[l]? = some de' → stop de' = false := by
    intro l de' h1 h2 hl
    obtain rfl : l = k := by omega
    rw [hde] at hl
    exact Option.some.inj hl ▸ hstop
  cases h with
  | found j de' hkj hj hst hbefore =>
    refine .found j de' (by omega) hj hst fun l de'' h1 h2 hl => ?_
    by_cases hkl : k + 1 ≤ l
    · exact hbefore l de'' hkl h2 hl
    · exact hat l de'' h1 hkl hl
  | ended hno =>
    have hk : k < es.length := (List.getElem?_eq_some_iff.mp hde).1
    rw [Nat.max_eq_right (by omega : k + 1 ≤ es.length), ← Nat.max_eq_right (Nat.le_of_lt hk)]
    refine .ended fun l de'' h1 hl => ?_
    by_cases hkl : k + 1 ≤ l
    · exact hno l de'' hkl hl
    · exact hat l de'' h1 hkl hl

theorem scanFrom_spec (h : s.Rep N H) (ho : s.Opened H dp i) (hv : N i = some v)
    (hdvd : DIRENT ∣ v.bytes.length) (stop : Dirent → Bool) {rounds : ℕ}
    (hr : rounds = (v.bytes.length - DIRENT * k + (DIRENT - 1)) / DIRENT) :
    Wp (scanFrom dp p stop rounds (DIRENT * k)) E
      (fun r t => t = s ∧ Scanned (entries v.bytes) stop k r) s := by
  induction rounds generalizing k with
  | zero =>
    have hle : (entries v.bytes).length ≤ k := by
      rw [length_entries]
      simp only [DIRENT, DIRSIZ] at *
      omega
    rw [scanFrom, wp_pure]
    refine ⟨rfl, ?_⟩
    have hend : Scanned (entries v.bytes) stop k (none, DIRENT * max k (entries v.bytes).length) :=
      .ended fun l de hl hde => by
        rw [List.getElem?_eq_none (by omega)] at hde
        cases hde
    rwa [Nat.max_eq_left hle] at hend
  | succ rounds ih =>
    have hk : DIRENT * k < v.bytes.length := by
      simp only [DIRENT, DIRSIZ] at *
      omega
    rw [scanFrom]
    refine (readDirent_spec h ho hv hdvd hk).bind fun de t hde => ?_
    obtain ⟨rfl, hde⟩ := hde
    by_cases hstop : stop de = true
    · rw [if_pos hstop, wp_pure]
      exact ⟨rfl, .found k de le_rfl hde hstop fun l _ h1 h2 => by omega⟩
    · rw [if_neg hstop]
      have hnext : rounds = (v.bytes.length - DIRENT * (k + 1) + (DIRENT - 1)) / DIRENT := by
        simp only [DIRENT, DIRSIZ] at *
        omega
      refine (ih hnext).mono fun r u hu => ?_
      exact ⟨hu.1, hu.2.cons hde (Bool.eq_false_iff.mpr hstop)⟩

/-- **The loop over the entries**, which changes nothing. -/
theorem scan_spec (h : s.Rep N H) (ho : s.Opened H dp i) (hv : N i = some v)
    (hdvd : DIRENT ∣ v.bytes.length) (stop : Dirent → Bool) (k : ℕ) :
    Wp (scan dp p stop (DIRENT * k)) E
      (fun r t => t = s ∧ Scanned (entries v.bytes) stop k r) s := by
  simp only [scan, inode, wp_bind, wp_get, wp_pure]
  refine scanFrom_spec h ho hv hdvd stop ?_
  rw [ho.node h hv, length_nodeOf]

/-! ## Looking up and entering names -/

/-- What `dirlookup` finds: nothing, or a reference to the inode of the first matching entry. -/
inductive Looked (s : Fs) (N : Nodes) (H : Fin NINODE → ℕ) (es : List Dirent) (name : List UInt8) :
    Option (Fin NINODE × ℕ) → Fs → Prop
  | missing (hfind : findEntry es name = none) : Looked s N H es name none s
  | found (ip : Fin NINODE) (k : ℕ) (de : Dirent) (t : Fs) (hfind : findEntry es name = some k)
      (hde : es[k]? = some de) (hgain : s.Gains N H ip de.inum t) :
      Looked s N H es name (some (ip, DIRENT * k)) t

theorem Scanned.findEntry {es : List Dirent} {name : List UInt8} {r : Option Dirent × ℕ}
    (h : Scanned es (Dirent.named name) 0 r) :
    (r.1 = none ∧ Xv6.findEntry es name = none) ∨
      ∃ j de, r = (some de, DIRENT * j) ∧ Xv6.findEntry es name = some j ∧ es[j]? = some de := by
  cases h with
  | found j de _ hde hstop hbefore =>
    refine Or.inr ⟨j, de, rfl, ?_, hde⟩
    obtain ⟨hj, rfl⟩ := List.getElem?_eq_some_iff.mp hde
    rw [Xv6.findEntry, List.findIdx?_eq_some_iff_getElem]
    refine ⟨hj, hstop, fun l hl => ?_⟩
    rw [hbefore l es[l] (Nat.zero_le l) hl (List.getElem?_eq_getElem (by omega))]
    exact Bool.false_ne_true
  | ended hno =>
    refine Or.inl ⟨rfl, ?_⟩
    rw [Xv6.findEntry, List.findIdx?_eq_none_iff]
    intro de hde
    obtain ⟨l, hl⟩ := List.getElem?_of_mem hde
    exact hno l de (Nat.zero_le l) hl

/-- **`dirlookup`** finds the first entry with the name and gets a reference to its inode. -/
theorem wp_dirlookup (h : s.Rep N H) (ho : s.Opened H dp i) (hv : N i = some v) (ht : v.type = T_DIR)
    (hdvd : DIRENT ∣ v.bytes.length) (name : List UInt8) {Q : Option (Fin NINODE × ℕ) → Fs → Prop}
    (hmissing : findEntry (entries v.bytes) name = none → Q none s)
    (hfound : ∀ k de, findEntry (entries v.bytes) name = some k → (entries v.bytes)[k]? = some de →
      Wp (iget de.inum) E (fun ip t => Q (some (ip, DIRENT * k)) t) s) :
    Wp (dirlookup dp name) E Q s := by
  have htype : (s.itable dp).type = T_DIR := by
    have := ho.node h hv
    rw [← ht, this]
    rfl
  simp only [dirlookup, inode, wp_bind, wp_get, wp_pure]
  rw [if_neg (not_not.mpr htype)]
  refine (scan_spec h ho hv hdvd (Dirent.named name) 0).bind fun r t hr => ?_
  obtain ⟨rfl, hr⟩ := hr
  obtain ⟨hnone, hfind⟩ | ⟨j, de, rfl, hfind, hde⟩ := hr.findEntry
  · obtain ⟨_, off⟩ := r
    obtain rfl := hnone
    exact hmissing hfind
  · rw [wp_bind]
    exact hfound j de hfind hde

theorem dirlookup_spec (h : s.Rep N H) (ho : s.Opened H dp i) (hv : N i = some v)
    (hdir : v.IsDir s.sb.ninodes) (name : List UInt8) (hE : E .igetNoInodes) :
    Wp (dirlookup dp name) E (s.Looked N H (entries v.bytes) name) s := by
  refine wp_dirlookup h ho hv hdir.type hdir.dvd name .missing fun k de hfind hde => ?_
  refine (iget_rep h (hdir.lt de (List.mem_of_getElem? hde)) hE).mono fun ip t hg => ?_
  exact .found ip k de t hfind hde hg

/-- **`isdirempty`.** -/
theorem isdirempty_spec (h : s.Rep N H) (ho : s.Opened H dp i) (hv : N i = some v)
    (hdvd : DIRENT ∣ v.bytes.length) :
    Wp (isdirempty dp) E (fun r t => t = s ∧ (r = true ↔ NoEntries (entries v.bytes))) s := by
  rw [isdirempty, wp_bind, Nat.mul_comm]
  refine (scan_spec h ho hv hdvd _ 2).mono fun r t hr => ?_
  obtain ⟨rfl, hr⟩ := hr
  rw [wp_pure]
  refine ⟨rfl, ?_⟩
  cases hr with
  | found j de hkj hde hstop _ =>
    refine iff_of_false (by simp) fun hno => ?_
    have hmem : de ∈ (entries v.bytes).drop 2 := by
      obtain ⟨l, rfl⟩ := Nat.exists_eq_add_of_le hkj
      rw [← List.getElem?_drop] at hde
      exact List.mem_of_getElem? hde
    simp [Dirent.free, hno de hmem] at hstop
  | ended hno =>
    refine iff_of_true (by simp) fun de hde => ?_
    obtain ⟨l, hl⟩ := List.getElem?_of_mem hde
    rw [List.getElem?_drop] at hl
    have := hno (2 + l) de (Nat.le_add_right 2 l) hl
    simpa [Dirent.free] using this

/-- Changing nothing. -/
theorem update_node (hv : N i = some v) : update N i (some v) = N := by
  rw [← hv, update_eq_self]

/-- **Writing one entry** is all or nothing, and only an entry after the end can fail. -/
theorem writeDirent_spec (h : s.Rep N H) (ho : s.Opened H dp i) (hv : N i = some v)
    (hdvd : DIRENT ∣ v.bytes.length) (hk : k ≤ (entries v.bytes).length) {b : List UInt8}
    (hb : b.length = DIRENT) :
    Wp (writei dp (.kernel b) (DIRENT * k) DIRENT) E (fun r t => Keeps H s t ∧
      ((r = DIRENT ∧
        t.Rep (update N i (some { v with bytes := splice v.bytes (DIRENT * k) b })) H) ∨
      (r ≠ DIRENT ∧ t.Rep N H ∧ k = (entries v.bytes).length))) s := by
  have hread : (Src.kernel b).Readable DIRENT := Nat.le_of_eq hb.symm
  have hbytes : (Src.kernel b).bytes DIRENT = b := by
    show b.take DIRENT = b
    rw [← hb, List.take_length]
  have hlen : v.bytes.length = DIRENT * (entries v.bytes).length := by
    rw [length_entries, Nat.mul_div_cancel' hdvd]
  have hle : v.bytes.length ≤ 268 * 1024 := h.length_le hv
  have hsame : ∀ c, c = v.bytes → update N i (some { v with bytes := c }) = N := by
    rintro c rfl
    exact update_node hv
  refine (writei_rep h ho hv (.kernel b) (DIRENT * k) (by decide)).mono fun r t ⟨c, hw⟩ => ?_
  refine ⟨hw.keeps, ?_⟩
  obtain ⟨rfl, rfl, hbad⟩ | ⟨tot, htot, rfl, hoff, hmax, hshort, hfile⟩ := hw.result
  · -- past the largest size
    refine Or.inr ⟨by decide, hsame _ rfl ▸ hw.rep, ?_⟩
    have h268 : MAXFILE * BSIZE = 268 * 1024 := rfl
    by_contra hne
    apply hbad
    simp only [DIRENT, DIRSIZ] at *
    omega
  · have hc := hfile hread
    rw [hbytes] at hc
    rcases eq_or_ne tot DIRENT with rfl | hfull
    · rw [← hb, List.take_length, hb] at hc
      exact Or.inl ⟨rfl, hc ▸ hw.rep⟩
    · -- blocks hold whole entries, so a write that stops short has written nothing
      have hs := hshort hread (by omega)
      have h0 : tot = 0 := by
        rcases hs.aligned with h0 | ⟨m, hm⟩
        · exact h0
        · simp only [DIRENT, DIRSIZ, BSIZE] at *
          omega
      subst h0
      have hcv : c = v.bytes := by
        rw [hc]
        simp [splice]
      refine Or.inr ⟨by simp, hsame c hcv ▸ hw.rep, ?_⟩
      have hsz := hs.size_le
      simp only [DIRENT, DIRSIZ] at *
      omega

/-- A reference that was just got may be put back: an entry that nobody else holds was not read
yet. -/
theorem Gains.putNodes_eq (h : s.Gains N H ip k t) : t.putNodes N (addRef H ip) ip = N := by
  rw [putNodes, if_neg]
  rintro ⟨hone, hvalid, -⟩
  rw [addRef_self] at hone
  rw [h.fresh (by omega)] at hvalid
  cases hvalid

theorem Scanned.freeEntry {es : List Dirent} {r : Option Dirent × ℕ}
    (h : Scanned es Dirent.free 0 r) : r.2 = DIRENT * Xv6.freeEntry es := by
  cases h with
  | found j de _ hde hstop hbefore =>
    obtain ⟨hj, rfl⟩ := List.getElem?_eq_some_iff.mp hde
    have : Xv6.freeEntry es = j := by
      rw [Xv6.freeEntry, List.findIdx_eq hj]
      exact ⟨hstop, fun l hl =>
        hbefore l es[l] (Nat.zero_le l) hl (List.getElem?_eq_getElem (by omega))⟩
    rw [this]
  | ended hno =>
    have : Xv6.freeEntry es = es.length := by
      rw [Xv6.freeEntry, List.findIdx_eq_length]
      intro de hde
      obtain ⟨l, hl⟩ := List.getElem?_of_mem hde
      exact hno l de (Nat.zero_le l) hl
    rw [this, Nat.max_eq_right (Nat.zero_le _)]

/-- What `dirlink` does: nothing, or the first free entry gets the name, which was not there. -/
inductive Linked (s : Fs) (N : Nodes) (H : Fin NINODE → ℕ) (i : ℕ) (v : Node) (name : List UInt8)
    (inum : ℕ) : ℤ → Fs → Prop
  | refused (t : Fs) (hrep : t.Rep N H) (hkeeps : Keeps H s t) :
      Linked s N H i v name inum (-1) t
  | entered (t : Fs) (hfind : findEntry (entries v.bytes) name = none)
      (hrep : t.Rep (update N i
        (some (v.setEntry (freeEntry (entries v.bytes)) ⟨inum, strncpy name DIRSIZ⟩))) H)
      (hkeeps : Keeps H s t) : Linked s N H i v name inum 0 t

/-- **`dirlink`** refuses a name that is present; otherwise it writes the first free entry, or fails and
changes nothing. -/
theorem wp_dirlink (h : s.Rep N H) (ho : s.Opened H dp i) (hv : N i = some v) (ht : v.type = T_DIR)
    (hdvd : DIRENT ∣ v.bytes.length) (name : List UInt8) (inum : ℕ) {Q : ℤ → Fs → Prop}
    (hpresent : ∀ k de, findEntry (entries v.bytes) name = some k → (entries v.bytes)[k]? = some de →
      Wp (iget de.inum) E (fun ip t => Wp (iput ip) E (fun _ u => Q (-1) u) t) s)
    (hfull : findEntry (entries v.bytes) name = none → ∀ t, t.Rep N H → Keeps H s t → Q (-1) t)
    (hentered : findEntry (entries v.bytes) name = none → ∀ t, t.Rep (update N i
      (some (v.setEntry (freeEntry (entries v.bytes)) ⟨inum, strncpy name DIRSIZ⟩))) H → Keeps H s t →
      Q 0 t) : Wp (dirlink dp name inum) E Q s := by
  rw [dirlink, wp_bind]
  refine wp_dirlookup h ho hv ht hdvd name (fun hfind => ?_) fun k de hfind hde => ?_
  · refine (scan_spec h ho hv hdvd Dirent.free 0).bind fun r t hr => ?_
    obtain ⟨rfl, hr⟩ := hr
    have hoff := hr.freeEntry
    obtain ⟨_, off⟩ := r
    obtain rfl : off = _ := hoff
    rw [wp_bind]
    have hlen : (Dirent.encode ⟨inum, strncpy name DIRSIZ⟩).length = DIRENT :=
      Dirent.length_encode (length_strncpy name DIRSIZ)
    refine (writeDirent_spec h ho hv hdvd List.findIdx_le_length hlen).mono fun r u hu => ?_
    obtain ⟨hkeeps, ⟨rfl, hrep⟩ | ⟨hne, hrep, -⟩⟩ := hu
    · rw [if_pos rfl]
      exact hentered hfind u hrep hkeeps
    · rw [if_neg hne]
      exact hfull hfind u hrep hkeeps
  · refine (hpresent k de hfind hde).mono fun ip t ht => ?_
    rw [wp_bind]
    exact ht

theorem dirlink_spec (h : s.Rep N H) (ho : s.Opened H dp i) (hv : N i = some v)
    (hdir : v.IsDir s.sb.ninodes) (name : List UInt8) (inum : ℕ) (hE : E .igetNoInodes) :
    Wp (dirlink dp name inum) E (s.Linked N H i v name inum) s := by
  refine wp_dirlink h ho hv hdir.type hdir.dvd name inum (fun k de _ hde => ?_)
    (fun _ t => .refused t) fun hfind t => .entered t hfind
  refine (iget_rep h (hdir.lt de (List.mem_of_getElem? hde)) hE).mono fun ip t hg => ?_
  refine (iput_rep hg.rep (by rw [addRef_self]; omega)).mono fun _ u hu => ?_
  rw [hg.putNodes_eq, dropRef_addRef] at hu
  exact .refused u hu.1 (hg.keeps.trans hu.2)

end Fs

end Xv6
