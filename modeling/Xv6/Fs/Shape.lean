import Xv6.Fs.Names

/-! # The form of directories

A directory starts with `.` and `..`; the entries after them are its `slots`. This is the form
`create` gives a directory, and changing a later entry keeps it. -/

namespace Xv6

namespace Node

/-- The entries after `.` and `..`. -/
def slots (v : Node) : List Dirent := (entries v.bytes).drop 2

/-- How many of them name inode `i`. -/
def links (v : Node) (i : ℕ) : ℕ := v.slots.countP fun de => de.inum = i

/-- The inode that `..` names. -/
def up (v : Node) : ℕ := (entryAt v.bytes 1).inum

/-- The form of directory `d` on a disk with `n` inodes: `.` names `d` itself, and it comes first,
`..` second. -/
structure Shape (n d : ℕ) (v : Node) : Prop where
  isDir : v.IsDir n
  two_le : 2 ≤ (entries v.bytes).length
  self : (entryAt v.bytes 0).inum = d
  dot : namecmp (entryAt v.bytes 0).name [Xv6.dot] = 0
  up_ne : v.up ≠ 0
  dotdot : namecmp (entryAt v.bytes 1).name [Xv6.dot, Xv6.dot] = 0
  no_dot : ∀ de ∈ v.slots, de.inum ≠ 0 → namecmp de.name [Xv6.dot] ≠ 0

instance (n : ℕ) (v : Node) : Decidable (v.IsDir n) :=
  decidable_of_iff (v.type = T_DIR ∧ DIRENT ∣ v.bytes.length ∧ ∀ de ∈ entries v.bytes, de.inum < n)
    ⟨fun ⟨h1, h2, h3⟩ => ⟨h1, h2, h3⟩, fun ⟨h1, h2, h3⟩ => ⟨h1, h2, h3⟩⟩

instance (n d : ℕ) (v : Node) : Decidable (v.Shape n d) :=
  decidable_of_iff (v.IsDir n ∧ 2 ≤ (entries v.bytes).length ∧ (entryAt v.bytes 0).inum = d ∧
      namecmp (entryAt v.bytes 0).name [Xv6.dot] = 0 ∧ v.up ≠ 0 ∧
      namecmp (entryAt v.bytes 1).name [Xv6.dot, Xv6.dot] = 0 ∧
      ∀ de ∈ v.slots, de.inum ≠ 0 → namecmp de.name [Xv6.dot] ≠ 0)
    ⟨fun ⟨h1, h2, h3, h4, h5, h6, h7⟩ => ⟨h1, h2, h3, h4, h5, h6, h7⟩,
      fun ⟨h1, h2, h3, h4, h5, h6, h7⟩ => ⟨h1, h2, h3, h4, h5, h6, h7⟩⟩

end Node

/-! ## Writing an entry -/

namespace Node

variable {v : Node} {n d k : ℕ} {de oe : Dirent} {p : Dirent → Bool}

theorem slots_setEntry (hi : de.inum < 2 ^ 16) (hn : de.name.length = DIRSIZ)
    (hdvd : DIRENT ∣ v.bytes.length) (h2 : 2 ≤ k) (hk : k ≤ (entries v.bytes).length) :
    (v.setEntry k de).slots = if k < (entries v.bytes).length then v.slots.set (k - 2) de
      else v.slots ++ [de] := by
  rw [slots, setEntry, entries_splice hi hn hdvd hk]
  split
  · rw [List.drop_set, if_neg (by omega)]
    rfl
  · rw [List.drop_append_of_le_length (by omega)]
    rfl

/-- Overwriting an entry moves every count by what the old and the new entry contribute. -/
theorem countP_setEntry (hi : de.inum < 2 ^ 16) (hn : de.name.length = DIRSIZ)
    (hdvd : DIRENT ∣ v.bytes.length) (h2 : 2 ≤ k) (hoe : (entries v.bytes)[k]? = some oe)
    (p : Dirent → Bool) :
    (v.setEntry k de).slots.countP p + (if p oe then 1 else 0) =
      v.slots.countP p + if p de then 1 else 0 := by
  obtain ⟨hk, hget⟩ := List.getElem?_eq_some_iff.mp hoe
  have hlen : k - 2 < v.slots.length := by
    rw [slots, List.length_drop]
    omega
  have hslot : v.slots[k - 2] = oe := by
    rw [← hget]
    simp only [slots, List.getElem_drop]
    congr 1
    omega
  rw [slots_setEntry hi hn hdvd h2 (Nat.le_of_lt hk), if_pos hk, List.countP_set hlen, hslot]
  have hle : (if p oe then 1 else 0) ≤ v.slots.countP p := by
    split
    · exact List.countP_pos_iff.mpr ⟨oe, hslot ▸ List.getElem_mem hlen, ‹_›⟩
    · exact Nat.zero_le _
  omega

/-- Entering a name adds what the new entry contributes, if a free entry contributes nothing. -/
theorem countP_enter (hi : de.inum < 2 ^ 16) (hn : de.name.length = DIRSIZ)
    (hdvd : DIRENT ∣ v.bytes.length) (h2 : 2 ≤ freeEntry (entries v.bytes))
    (p : Dirent → Bool) (hp : ∀ de : Dirent, de.inum = 0 → p de = false) :
    (v.setEntry (freeEntry (entries v.bytes)) de).slots.countP p =
      v.slots.countP p + if p de then 1 else 0 := by
  rcases Nat.lt_or_ge (freeEntry (entries v.bytes)) (entries v.bytes).length with hk | hk
  · -- a free entry is used again
    have hoe := List.getElem?_eq_getElem hk
    have hfree : Dirent.free (entries v.bytes)[freeEntry (entries v.bytes)] = true :=
      List.findIdx_getElem
    have := countP_setEntry hi hn hdvd h2 hoe p
    rw [hp _ (by simpa [Dirent.free] using hfree)] at this
    simpa using this
  · have hle : freeEntry (entries v.bytes) ≤ (entries v.bytes).length := List.findIdx_le_length
    rw [slots_setEntry hi hn hdvd h2 hle, if_neg (by omega), List.countP_append,
      List.countP_singleton]

/-- Neither the first nor the second entry changes with a later one. -/
theorem entryAt_setEntry (hi : de.inum < 2 ^ 16) (hn : de.name.length = DIRSIZ)
    (hdvd : DIRENT ∣ v.bytes.length) (hk : k ≤ (entries v.bytes).length) {j : ℕ} (hj : j < k) :
    entryAt (v.setEntry k de).bytes j = entryAt v.bytes j := by
  have hle : DIRENT * k ≤ v.bytes.length := by
    rw [← Nat.mul_div_cancel' hdvd, ← length_entries]
    exact Nat.mul_le_mul_left _ hk
  rw [setEntry, entryAt_splice hi hn hle, if_neg (by omega)]

/-- The form of a directory allows a change of its later entries. -/
theorem Shape.setEntry (h : v.Shape n d) (hn : n ≤ 2 ^ 16) (hi : de.inum < n)
    (hname : de.name.length = DIRSIZ) (h2 : 2 ≤ k) (hk : k ≤ (entries v.bytes).length)
    (hdot : de.inum ≠ 0 → namecmp de.name [Xv6.dot] ≠ 0) : (v.setEntry k de).Shape n d := by
  have hdvd := h.isDir.dvd
  have hi' : de.inum < 2 ^ 16 := by omega
  have h0 := entryAt_setEntry hi' hname hdvd hk (show 0 < k by omega)
  have h1 := entryAt_setEntry hi' hname hdvd hk (show 1 < k by omega)
  have hup : (v.setEntry k de).up = v.up := congrArg Dirent.inum h1
  refine ⟨h.isDir.setEntry hn hi hname hk, ?_, h0 ▸ h.self, h0 ▸ h.dot, hup ▸ h.up_ne,
    h1 ▸ h.dotdot, ?_⟩
  · have := h.two_le
    rw [Node.setEntry, entries_splice hi' hname hdvd hk]
    split
    · rwa [List.length_set]
    · rw [List.length_append]
      omega
  · intro e he hne
    rw [slots_setEntry hi' hname hdvd h2 hk] at he
    split at he
    · rcases List.mem_or_eq_of_mem_set he with he | rfl
      · exact h.no_dot e he hne
      · exact hdot hne
    · rcases List.mem_append.mp he with he | he
      · exact h.no_dot e he hne
      · obtain rfl := List.mem_singleton.mp he
        exact hdot hne

theorem Shape.congr {w : Node} (h : v.Shape n d) (ht : w.type = v.type) (hb : w.bytes = v.bytes) :
    w.Shape n d := by
  refine ⟨⟨ht.trans h.isDir.type, hb ▸ h.isDir.dvd, hb ▸ h.isDir.lt⟩, hb ▸ h.two_le, hb ▸ h.self,
    hb ▸ h.dot, ?_, hb ▸ h.dotdot, ?_⟩
  · rw [up, hb]
    exact h.up_ne
  · rw [slots, hb]
    exact h.no_dot

/-- The first free entry comes after `.` and `..`. -/
theorem Shape.two_le_freeEntry (h : v.Shape n d) (hd : d ≠ 0) :
    2 ≤ freeEntry (entries v.bytes) := by
  have hlen := h.two_le
  rw [length_entries] at hlen
  by_contra hlt
  have hfree : freeEntry (entries v.bytes) < (entries v.bytes).length := by
    rw [length_entries]
    omega
  have hstop : Dirent.free (entries v.bytes)[freeEntry (entries v.bytes)] = true :=
    List.findIdx_getElem
  have hget := @entries_getElem? v.bytes (freeEntry (entries v.bytes)) (by omega)
  rw [List.getElem?_eq_getElem hfree, Option.some.injEq] at hget
  rw [hget] at hstop
  have hinum : (entryAt v.bytes (freeEntry (entries v.bytes))).inum = 0 := by
    simpa [Dirent.free] using hstop
  obtain h0 | h1 : freeEntry (entries v.bytes) = 0 ∨ freeEntry (entries v.bytes) = 1 := by omega
  · rw [h0, h.self] at hinum
    exact hd hinum
  · rw [h1] at hinum
    exact h.up_ne hinum

/-- What a name finds is the number of an entry in use. -/
theorem findEntry_spec {name : List UInt8} (hfind : findEntry (entries v.bytes) name = some k) :
    k < (entries v.bytes).length ∧ (entries v.bytes)[k]? = some (entryAt v.bytes k) ∧
      (entryAt v.bytes k).inum ≠ 0 ∧ namecmp name (entryAt v.bytes k).name = 0 := by
  rw [findEntry, List.findIdx?_eq_some_iff_getElem] at hfind
  obtain ⟨hk, hnamed, -⟩ := hfind
  have hget := @entries_getElem? v.bytes k (length_entries _ ▸ hk)
  refine ⟨hk, hget, ?_⟩
  rw [List.getElem?_eq_getElem hk, Option.some.injEq] at hget
  rw [hget] at hnamed
  simpa only [Dirent.named, decide_eq_true_eq] using hnamed

/-- A name other than `.` and `..` is found after them. -/
theorem Shape.two_le_findEntry (h : v.Shape n d) {name : List UInt8}
    (hname : ¬ (namecmp name [Xv6.dot] = 0 ∨ namecmp name [Xv6.dot, Xv6.dot] = 0))
    (hfind : findEntry (entries v.bytes) name = some k) : 2 ≤ k := by
  obtain ⟨-, -, -, heq⟩ := findEntry_spec hfind
  rw [namecmp_eq_zero_iff] at heq
  by_contra hlt
  have hdot := h.dot
  have hdotdot := h.dotdot
  rw [namecmp_eq_zero_iff] at hdot hdotdot
  apply hname
  simp only [namecmp_eq_zero_iff]
  obtain rfl | rfl : k = 0 ∨ k = 1 := by omega
  · exact Or.inl (heq.trans hdot)
  · exact Or.inr (heq.trans hdotdot)

/-- A name that is not found is not `.`, nor is what `dirlink` makes of it. -/
theorem Shape.ne_dot (h : v.Shape n d) (hd : d ≠ 0) {name : List UInt8}
    (hfind : findEntry (entries v.bytes) name = none) :
    namecmp (strncpy name DIRSIZ) [Xv6.dot] ≠ 0 := by
  intro hdot
  rw [namecmp_eq_zero_iff, cut_strncpy] at hdot
  have hself := h.dot
  rw [namecmp_eq_zero_iff] at hself
  have hlen := h.two_le
  have hget := @entries_getElem? v.bytes 0 (by rw [← length_entries]; omega)
  -- the first entry has that name
  have hno := List.findIdx?_eq_none_iff.mp hfind _ (List.mem_of_getElem? hget)
  have hyes : Dirent.named name (entryAt v.bytes 0) = true := by
    rw [Dirent.named, decide_eq_true_eq, namecmp_eq_zero_iff, h.self]
    exact ⟨hd, hdot.trans hself.symm⟩
  rw [hyes] at hno
  cases hno

/-- The entries of a new directory. -/
theorem entries_made {type : Int16} (major minor : Int16) {c : ℕ} (h : type = T_DIR) (hc : c < 2 ^ 16)
    (hd : d < 2 ^ 16) : entries (made type major minor c d).bytes =
      [⟨c, strncpy [Xv6.dot] DIRSIZ⟩, ⟨d, strncpy [Xv6.dot, Xv6.dot] DIRSIZ⟩] := by
  have h1 : (Dirent.encode ⟨c, strncpy [Xv6.dot] DIRSIZ⟩).length = DIRENT :=
    Dirent.length_encode (length_strncpy _ _)
  have h2 : (Dirent.encode ⟨d, strncpy [Xv6.dot, Xv6.dot] DIRSIZ⟩).length = DIRENT :=
    Dirent.length_encode (length_strncpy _ _)
  rw [made, if_pos h, entries, List.length_append, h1, h2]
  show [entryAt _ 0, entryAt _ 1] = _
  congr 1
  · rw [entryAt, Nat.mul_zero, List.drop_zero, List.take_left' h1]
    exact Dirent.decode_encode hc (length_strncpy _ _)
  · congr 1
    rw [entryAt, Nat.mul_one, List.drop_left' h1, ← h2, List.take_length]
    exact Dirent.decode_encode hd (length_strncpy _ _)

/-- A new directory has the form of one, and no entries besides `.` and `..`. -/
theorem made_shape {type : Int16} (major minor : Int16) {c : ℕ} (h : type = T_DIR) (hpos : 1 ≤ c)
    (hc : c < n) (hd : d < n) (hd0 : d ≠ 0) (hn : n ≤ 2 ^ 16) :
    (made type major minor c d).Shape n c ∧ (made type major minor c d).slots = [] ∧
      (made type major minor c d).up = d := by
  have hes := entries_made major minor h (show c < 2 ^ 16 by omega) (show d < 2 ^ 16 by omega)
  have hlen : (made type major minor c d).bytes.length / DIRENT = 2 := by
    rw [← length_entries, hes]
    rfl
  have h0 : entryAt (made type major minor c d).bytes 0 = ⟨c, strncpy [Xv6.dot] DIRSIZ⟩ := by
    have := @entries_getElem? (made type major minor c d).bytes 0 (by omega)
    rw [hes] at this
    exact (Option.some.inj this).symm
  have h1 : entryAt (made type major minor c d).bytes 1 =
      ⟨d, strncpy [Xv6.dot, Xv6.dot] DIRSIZ⟩ := by
    have := @entries_getElem? (made type major minor c d).bytes 1 (by omega)
    rw [hes] at this
    exact (Option.some.inj this).symm
  have hslots : (made type major minor c d).slots = [] := by
    rw [slots, hes]
    rfl
  have hup : (made type major minor c d).up = d := by rw [up, h1]
  refine ⟨⟨made_isDir major minor h hpos hc hd hn, by rw [hes]; exact Nat.le_refl 2, by rw [h0],
    ?_, by rwa [hup], ?_, ?_⟩, hslots, hup⟩
  · rw [h0]
    show namecmp (strncpy [Xv6.dot] DIRSIZ) _ = 0
    decide
  · rw [h1]
    show namecmp (strncpy [Xv6.dot, Xv6.dot] DIRSIZ) _ = 0
    decide
  · intro de hde
    rw [hslots] at hde
    cases hde

/-- A new inode before it has a name. -/
def unnamed (type major minor : Int16) (c d : ℕ) : Node :=
  { made type major minor c d with nlink := 0 }

theorem unnamed_shape {type : Int16} (major minor : Int16) {c : ℕ} (h : type = T_DIR) (hpos : 1 ≤ c)
    (hc : c < n) (hd : d < n) (hd0 : d ≠ 0) (hn : n ≤ 2 ^ 16) :
    (unnamed type major minor c d).Shape n c ∧ (unnamed type major minor c d).slots = [] ∧
      (unnamed type major minor c d).up = d := by
  obtain ⟨hshape, hslots, hup⟩ := made_shape major minor h hpos hc hd hd0 hn
  exact ⟨hshape.congr rfl rfl, hslots, hup⟩

end Node

end Xv6
