import Xv6.Lib.Slots
import Xv6.Fs.Image

/-! # A directory is a finite map

The entries of a directory are slots that names come and go in. Whatever the history of calls of
`dirlink` and of entries that `sys_unlink` cleared, names are distinct, and `dirlookup` finds under a
name what was last entered for its first `DIRSIZ` bytes, unless that was cleared. The inode numbers
entered may be any: a lookup gets a table entry for one and gives it back without reading it. -/

namespace Xv6

open Function

/-! ## Histories -/

/-- What is done to a directory: `dirlink`, or the clearing of an entry by `sys_unlink`. -/
inductive DirOp
  | link (name : List UInt8) (inum : ℕ)
  | clear (name : List UInt8)

namespace DirOp

def name : DirOp → List UInt8
  | link name _ => name
  | clear name => name

/-- The bytes of the name that count. -/
def key (op : DirOp) : List UInt8 := op.name.take DIRSIZ

/-- Names are C strings, and inode numbers fit in 16 bits and are not 0. -/
def Valid : DirOp → Prop
  | link name inum => 0 ∉ name ∧ 1 ≤ inum ∧ inum < 2 ^ 16
  | clear name => 0 ∉ name

/-- The code. Of `sys_unlink` this is what it does to the directory; the reference to the inode that
the name led to is dropped at once. -/
def run (dp : Fin NINODE) : DirOp → FsM ℤ
  | link name inum => dirlink dp name inum
  | clear name => do
    -- cannot unlink "." or ".."
    if namecmp name [dot] = 0 ∨ namecmp name [dot, dot] = 0 then return -1
    else
      match ← dirlookup dp name with
      | none => return -1
      | some (ip, off) =>
        iput ip
        let r ← writei dp (.kernel (List.replicate DIRENT 0)) off DIRENT
        if r ≠ DIRENT then throw .unlinkWritei else return 0

end DirOp

/-- Several of them in a row, with their results. -/
def dirHistory (dp : Fin NINODE) : List DirOp → FsM (List (DirOp × ℤ))
  | [] => return []
  | op :: ops => do
    let r ← op.run dp
    return (op, r) :: (← dirHistory dp ops)

/-- The number of the inode that `dirlookup` returns a reference to. -/
def dirlookupInum (dp : Fin NINODE) (name : List UInt8) : FsM (Option ℕ) := do
  match ← dirlookup dp name with
  | none => return none
  | some (ip, _) =>
    let e ← inode ip
    iput ip
    return some e.inum

/-- The last successful `dirlink` for the name was with `inum`, and it has not been cleared since. -/
def LastLinked (h : List (DirOp × ℤ)) (key : List UInt8) (inum : ℕ) : Prop :=
  ∃ name before after, h = before ++ (.link name inum, 0) :: after ∧ name.take DIRSIZ = key ∧
    ∀ e ∈ after, e.2 = 0 → e.1.key ≠ key

section LastLinked

variable {h : List (DirOp × ℤ)} {key name : List UInt8} {op : DirOp} {inum k : ℕ} {r : ℤ}

theorem not_lastLinked_nil : ¬ LastLinked [] key k := by
  rintro ⟨name, before, after, h, -⟩
  exact List.append_ne_nil_of_right_ne_nil _ (List.cons_ne_nil _ _) h.symm

/-- One more event. -/
theorem lastLinked_concat : LastLinked (h ++ [(op, r)]) key k ↔
    if r = 0 ∧ op.key = key then ∃ name, op = .link name k else LastLinked h key k := by
  constructor
  · rintro ⟨name, before, after, heq, hkey, hafter⟩
    rcases List.eq_nil_or_concat after with rfl | ⟨after, e, rfl⟩
    · -- it is the last event
      obtain ⟨-, he⟩ := List.append_inj' heq rfl
      obtain ⟨rfl, rfl⟩ := Prod.mk.inj (List.singleton_inj.mp he)
      rw [if_pos ⟨rfl, hkey⟩]
      exact ⟨name, rfl⟩
    · rw [List.concat_eq_append] at heq hafter
      rw [← List.cons_append, ← List.append_assoc] at heq
      obtain ⟨rfl, he⟩ := List.append_inj' heq rfl
      obtain rfl := List.singleton_inj.mp he
      rw [if_neg fun hc => hafter (op, r) (List.mem_append_right _ (List.mem_singleton.mpr rfl)) hc.1 hc.2]
      exact ⟨name, before, after, rfl, hkey, fun e he => hafter e (List.mem_append_left _ he)⟩
  · intro hlast
    split at hlast
    · rename_i hc
      obtain ⟨rfl, hkey⟩ := hc
      obtain ⟨name, rfl⟩ := hlast
      exact ⟨name, h, [], rfl, hkey, nofun⟩
    · rename_i hc
      obtain ⟨name, before, after, rfl, hkey, hafter⟩ := hlast
      refine ⟨name, before, after ++ [(op, r)], ?_, hkey, fun e he h0 hk => ?_⟩
      · rw [List.append_assoc, List.cons_append]
      · rcases List.mem_append.mp he with he | he
        · exact hafter e he h0 hk
        · obtain rfl := List.mem_singleton.mp he
          exact hc ⟨h0, hk⟩

end LastLinked

/-! ## Entries as slots -/

/-- The name of an entry that is in use. -/
def Dirent.key (de : Dirent) : Option (List UInt8) :=
  if de.inum = 0 then .none else some (cut DIRSIZ de.name)

theorem cut_eq_take {name : List UInt8} (h : 0 ∉ name) : cut DIRSIZ name = name.take DIRSIZ := by
  refine List.takeWhile_eq_self_iff.mpr fun b hb => ?_
  rw [decide_eq_true_eq]
  rintro rfl
  exact h (List.mem_of_mem_take hb)

theorem Dirent.named_eq (name : List UInt8) (de : Dirent) :
    de.named name = decide (de.key = some (cut DIRSIZ name)) := by
  refine decide_eq_decide.mpr ?_
  rw [Dirent.key, namecmp_eq_zero_iff]
  by_cases h0 : de.inum = 0
  · simp [h0]
  · simp [h0, @eq_comm _ (cut DIRSIZ name)]

theorem Dirent.free_eq (de : Dirent) : de.free = de.key.isNone := by
  rw [Dirent.free, Dirent.key]
  by_cases h0 : de.inum = 0 <;> simp [h0]

/-- What a directory has for a name. -/
def Node.lookup (v : Node) (name : List UInt8) : Option ℕ :=
  (Slots.lookup Dirent.key (entries v.bytes) (cut DIRSIZ name)).map Dirent.inum

section Lookup

variable {es : List Dirent} {name : List UInt8} {k : ℕ} {v : Node}

theorem lookup_eq_find? (es : List Dirent) (name : List UInt8) :
    Slots.lookup Dirent.key es (cut DIRSIZ name) = es.find? (Dirent.named name) := by
  rw [Slots.lookup]
  congr 1
  funext de
  exact (Dirent.named_eq name de).symm

theorem lookup_of_missing (h : findEntry es name = none) :
    Slots.lookup Dirent.key es (cut DIRSIZ name) = none := by
  rw [lookup_eq_find?, List.find?_eq_none]
  intro de hde
  rw [List.findIdx?_eq_none_iff.mp h de hde]
  exact Bool.false_ne_true

theorem lookup_of_found {de : Dirent} (h : findEntry es name = some k) (hde : es[k]? = some de) :
    de.key = some (cut DIRSIZ name) ∧ Slots.lookup Dirent.key es (cut DIRSIZ name) = some de := by
  obtain ⟨hk, hnamed, hbefore⟩ := List.findIdx?_eq_some_iff_getElem.mp h
  obtain ⟨_, rfl⟩ := List.getElem?_eq_some_iff.mp hde
  have hkey := hnamed
  rw [Dirent.named_eq, decide_eq_true_eq] at hkey
  refine ⟨hkey, ?_⟩
  rw [lookup_eq_find?, List.find?_eq_some_iff_getElem]
  refine ⟨hnamed, k, hk, rfl, fun j hj => ?_⟩
  rw [Bool.not_eq_true', Bool.eq_false_iff]
  exact hbefore j hj

end Lookup

/-! ## What a history leaves -/

/-- The directory after the history `h`. -/
structure Node.IsMap (h : List (DirOp × ℤ)) (v : Node) : Prop where
  type : v.type = T_DIR
  dvd : DIRENT ∣ v.bytes.length
  nodup : (Slots.keys Dirent.key (entries v.bytes)).Nodup
  bound : ∀ key k, (Slots.lookup Dirent.key (entries v.bytes) key).map Dirent.inum = some k ↔
    LastLinked h key k

namespace Node.IsMap

variable {h : List (DirOp × ℤ)} {v : Node} {name : List UInt8} {op : DirOp} {r : ℤ} {inum k : ℕ}

theorem blank (major minor : Int16) : (Node.blank T_DIR major minor).IsMap [] where
  type := rfl
  dvd := Nat.dvd_zero _
  nodup := by
    rw [Node.blank, entries_nil]
    exact List.nodup_nil
  bound := fun key k => by
    rw [Node.blank, entries_nil]
    exact iff_of_false (by simp [Slots.lookup]) not_lastLinked_nil

theorem lookup_iff (hm : v.IsMap h) (hname : 0 ∉ name) :
    v.lookup name = some k ↔ LastLinked h (name.take DIRSIZ) k := by
  rw [Node.lookup, cut_eq_take hname]
  exact hm.bound _ k

/-- What fails leaves no trace. -/
theorem failed (hm : v.IsMap h) (hr : r ≠ 0) : v.IsMap (h ++ [(op, r)]) := by
  refine ⟨hm.type, hm.dvd, hm.nodup, fun key k => ?_⟩
  rw [lastLinked_concat, if_neg fun hc => hr hc.1]
  exact hm.bound key k

/-- A name is entered in the first free entry. -/
theorem linked (hm : v.IsMap h) (hname : 0 ∉ name) (hpos : 1 ≤ inum) (hlt : inum < 2 ^ 16)
    (hfind : findEntry (entries v.bytes) name = none) :
    (v.setEntry (freeEntry (entries v.bytes)) ⟨inum, strncpy name DIRSIZ⟩).IsMap
      (h ++ [(.link name inum, 0)]) := by
  have hlen : (⟨inum, strncpy name DIRSIZ⟩ : Dirent).name.length = DIRSIZ := length_strncpy _ _
  have hle : freeEntry (entries v.bytes) ≤ (entries v.bytes).length := List.findIdx_le_length
  have hkey : Dirent.key ⟨inum, strncpy name DIRSIZ⟩ = some (name.take DIRSIZ) := by
    rw [Dirent.key, if_neg (by show inum ≠ 0; omega), cut_strncpy, cut_eq_take hname]
  have hput : entries (v.setEntry (freeEntry (entries v.bytes)) ⟨inum, strncpy name DIRSIZ⟩).bytes =
      Slots.put Dirent.key ⟨inum, strncpy name DIRSIZ⟩ (entries v.bytes) := by
    rw [Node.setEntry, entries_splice hlt hlen hm.dvd hle, Slots.put_eq, freeEntry,
      funext Dirent.free_eq]
  have hnew := Slots.lookup_eq_none.mp (lookup_of_missing hfind)
  rw [cut_eq_take hname] at hnew
  refine ⟨hm.type, dvd_length_splice hlen hm.dvd ?_, ?_, fun key k => ?_⟩
  · have := Nat.mul_le_mul_left DIRENT hle
    rwa [length_entries, Nat.mul_div_cancel' hm.dvd] at this
  · rw [hput]
    exact Slots.nodup_put hkey hnew hm.nodup
  · rw [hput, Slots.lookup_put hkey hnew, lastLinked_concat]
    by_cases hk : key = name.take DIRSIZ
    · rw [if_pos hk, if_pos ⟨rfl, hk.symm⟩]
      simp
    · rw [if_neg hk, if_neg fun hc => hk hc.2.symm]
      exact hm.bound key k

/-- The directory that `create` makes, after its two calls of `dirlink`. -/
theorem made (major minor : Int16) {c d : ℕ} (hc : 1 ≤ c) (hc' : c < 2 ^ 16) (hd : 1 ≤ d)
    (hd' : d < 2 ^ 16) : (Node.made T_DIR major minor c d).IsMap
      [(.link [dot] c, 0), (.link [dot, dot] d, 0)] := by
  have hempty : entries (Node.blank T_DIR major minor).bytes = [] := entries_nil
  have hnone : findEntry (entries (Node.blank T_DIR major minor).bytes) [dot] = none := by
    rw [hempty]
    rfl
  have hfirst := (blank major minor).linked (by decide) hc hc' hnone
  rw [hempty, show freeEntry [] = 0 from rfl] at hfirst
  rw [← Node.made_eq major minor rfl hc hc']
  refine hfirst.linked (by decide) hd hd' ?_
  -- the only name so far is `.`
  cases hfind : findEntry _ [dot, dot] with
  | none => rfl
  | some k =>
    have hde := List.getElem?_eq_getElem (List.findIdx?_eq_some_iff_getElem.mp hfind).1
    have hlast := (hfirst.bound (cut DIRSIZ [dot, dot]) _).mp
      (by rw [(lookup_of_found hfind hde).2]; rfl)
    have hne : ([dot] : List UInt8).take DIRSIZ ≠ cut DIRSIZ [dot, dot] := by decide
    rw [lastLinked_concat, if_neg fun hc => hne hc.2] at hlast
    exact absurd hlast not_lastLinked_nil

/-- An entry is cleared. -/
theorem cleared (hm : v.IsMap h) (hname : 0 ∉ name) (hfind : findEntry (entries v.bytes) name = some k) :
    (v.setEntry k .none).IsMap (h ++ [(.clear name, 0)]) := by
  have hlen : Dirent.none.name.length = DIRSIZ := List.length_replicate
  have hk := (List.findIdx?_eq_some_iff_getElem.mp hfind).1
  have hde : (entries v.bytes)[k]? = some (entries v.bytes)[k] := List.getElem?_eq_getElem hk
  have hkey := (lookup_of_found hfind hde).1
  rw [cut_eq_take hname] at hkey
  have hset : entries (v.setEntry k .none).bytes = (entries v.bytes).set k .none := by
    rw [Node.setEntry, entries_splice (by decide) hlen hm.dvd (Nat.le_of_lt hk), if_pos hk]
  refine ⟨hm.type, dvd_length_splice hlen hm.dvd ?_, ?_, fun key j => ?_⟩
  · have := Nat.mul_le_mul_left DIRENT (Nat.le_of_lt hk)
    rwa [length_entries, Nat.mul_div_cancel' hm.dvd] at this
  · rw [hset]
    exact hm.nodup.sublist (Slots.keys_set_sublist rfl _ _)
  · rw [hset, Slots.lookup_set rfl hde hkey hm.nodup, lastLinked_concat]
    by_cases hkey' : key = name.take DIRSIZ
    · rw [if_pos hkey', if_pos ⟨rfl, hkey'.symm⟩]
      simp
    · rw [if_neg hkey', if_neg fun hc => hkey' hc.2.symm]
      exact hm.bound key j

end Node.IsMap

/-! ## The code -/

namespace Fs

variable {s t u : Fs} {H : Fin NINODE → ℕ} {E : Panic → Prop} {N : Nodes} {dp ip : Fin NINODE}
  {i k : ℕ} {v : Node} {h : List (DirOp × ℤ)} {op : DirOp} {ops : List DirOp}

/-- **A reference for any number** may be got and put back, as long as some table entry is free: an
entry for a number nobody uses is not valid, and `iput` looks no further. -/
theorem iget_borrow (hs : s.Rep N H) (hfree : ∃ jp, H jp = 0) (k : ℕ) :
    Wp (iget k) E (fun ip t => (t.itable ip).inum = k ∧
      Wp (iput ip) E (fun _ u => u.Rep N H ∧ Keeps H s u) t) s := by
  have href := hs.coherent.table.ref_eq
  simp only [iget, wp_bind, wp_get]
  cases hfind : (List.finRange NINODE).find? fun ip =>
      0 < (s.itable ip).ref ∧ (s.itable ip).inum = k with
  | some ip =>
    have hp := List.find?_some hfind
    simp only [decide_eq_true_eq] at hp
    have hdup := idup_rep (E := E) hs ⟨by have := href ip; omega, hp.2⟩
    simp only [idup, wp_bind] at hdup
    simp only [wp_bind]
    refine hdup.mono fun _ t ht => ?_
    refine ⟨ht.2.inum, (iput_rep ht.2.rep (by rw [addRef_self]; omega)).mono fun _ u hu => ?_⟩
    rw [ht.2.putNodes_eq, dropRef_addRef] at hu
    exact ⟨hu.1, ht.2.keeps.trans hu.2⟩
  | none =>
    cases hempty : (List.finRange NINODE).find? fun ip => (s.itable ip).ref = 0 with
    | none =>
      obtain ⟨jp, hjp⟩ := hfree
      have := List.find?_eq_none.mp hempty jp (List.mem_finRange jp)
      rw [decide_eq_true_eq, href jp, hjp] at this
      exact absurd rfl this
    | some ip =>
      have hp := List.find?_some hempty
      rw [decide_eq_true_eq, href ip] at hp
      have h0 : H ip = 0 := by omega
      simp only [modifyInode, wp_bind, wp_modify, wp_pure, iput, inode, wp_get, setInode_same]
      refine ⟨trivial, ?_⟩
      rw [if_neg fun hc => Bool.false_ne_true hc.2.1, wp_pure, wp_modify]
      have hfirst : (s.setInode ip fun e => { e with inum := k, ref := 0, valid := false }).Coherent
          s.dinode H ∅ ∅ :=
        hs.coherent.setEntry _ (h0 ▸ rfl) (fun _ _ => rfl) (fun hip => by omega)
          (fun hip => by omega) fun hip => by omega
      have heq : ((s.setInode ip fun e => { e with inum := k, ref := 1, valid := false }).setInode ip
          fun e => { e with ref := e.ref - 1 }) =
          s.setInode ip fun e => { e with inum := k, ref := 0, valid := false } := by
        simp only [setInode, update_self, update_idem]
        rfl
      rw [heq]
      refine ⟨.of_coherent hfirst ?_, .setInode _ (fun hip => by omega) fun hip => by omega⟩
      rw [← hs.nodes_eq]
      exact nodes_congr rfl rfl

theorem dirlookupInum_spec (hs : s.Rep N H) (ho : s.Opened H dp i) (hv : N i = some v)
    (hm : v.IsMap h) (hfree : ∃ jp, H jp = 0) (name : List UInt8) :
    Wp (dirlookupInum dp name) E (fun r t => r = v.lookup name ∧ t.Rep N H ∧ Keeps H s t) s := by
  rw [dirlookupInum, wp_bind]
  refine wp_dirlookup hs ho hv hm.type hm.dvd name (fun hfind => ?_) fun k de hfind hde => ?_
  · refine ⟨?_, hs, .refl H s⟩
    rw [Node.lookup, lookup_of_missing hfind]
    rfl
  · refine (iget_borrow hs hfree de.inum).mono fun ip t ht => ?_
    simp only [inode, wp_bind, wp_get, wp_pure]
    refine ht.2.mono fun _ u hu => ⟨?_, hu⟩
    rw [Node.lookup, (lookup_of_found hfind hde).2, ht.1]
    rfl

/-- What an operation does to the directory `v`. -/
inductive Effect (v : Node) : DirOp → ℤ → Node → Prop
  | failed (op : DirOp) : Effect v op (-1) v
  | linked (name : List UInt8) (inum : ℕ) (hfind : findEntry (entries v.bytes) name = none) :
      Effect v (.link name inum) 0
        (v.setEntry (freeEntry (entries v.bytes)) ⟨inum, strncpy name DIRSIZ⟩)
  | cleared (name : List UInt8) (k : ℕ) (hfind : findEntry (entries v.bytes) name = some k) :
      Effect v (.clear name) 0 (v.setEntry k .none)

theorem run_spec (hs : s.Rep N H) (ho : s.Opened H dp i) (hv : N i = some v) (ht : v.type = T_DIR)
    (hdvd : DIRENT ∣ v.bytes.length) (hfree : ∃ jp, H jp = 0) (op : DirOp) :
    Wp (op.run dp) E (fun r t => Keeps H s t ∧
      ∃ v', t.Rep (update N i (some v')) H ∧ Effect v op r v') s := by
  have hsame : ∀ {t : Fs}, t.Rep N H → t.Rep (update N i (some v)) H := by
    intro t ht
    rwa [update_node hv]
  cases op with
  | link name inum =>
    refine wp_dirlink hs ho hv ht hdvd name inum (fun k de _ _ => ?_)
      (fun _ t ht hk => ⟨hk, v, hsame ht, .failed _⟩)
      fun hfind t ht hk => ⟨hk, _, ht, .linked name inum hfind⟩
    refine (iget_borrow hs hfree de.inum).mono fun ip t ht => ?_
    exact ht.2.mono fun _ u hu => ⟨hu.2, v, hsame hu.1, .failed _⟩
  | clear name =>
    rw [DirOp.run]
    by_cases hdots : namecmp name [dot] = 0 ∨ namecmp name [dot, dot] = 0
    · rw [if_pos hdots, wp_pure]
      exact ⟨.refl H s, v, hsame hs, .failed _⟩
    rw [if_neg hdots, wp_bind]
    refine wp_dirlookup hs ho hv ht hdvd name (fun _ => ?_) fun k de hfind hde => ?_
    · exact ⟨.refl H s, v, hsame hs, .failed _⟩
    · refine (iget_borrow hs hfree de.inum).mono fun ip t ht => ?_
      rw [wp_bind]
      refine ht.2.mono fun _ u hu => ?_
      have hk := (List.findIdx?_eq_some_iff_getElem.mp hfind).1
      refine (writeDirent_spec hu.1 (ho.keep hu.2) hv hdvd (Nat.le_of_lt hk)
        List.length_replicate).bind fun r w hw => ?_
      obtain ⟨hkeeps, ⟨rfl, hrep⟩ | ⟨-, -, hend⟩⟩ := hw
      · rw [if_neg (not_not.mpr rfl), wp_pure]
        exact ⟨hu.2.trans hkeeps, _, hrep, .cleared name k hfind⟩
      · omega

theorem Effect.isMap {r : ℤ} {v' : Node} (he : Effect v op r v') (hm : v.IsMap h) (hop : op.Valid) :
    v'.IsMap (h ++ [(op, r)]) := by
  cases he with
  | failed => exact hm.failed (by decide)
  | linked name inum hfind => exact hm.linked hop.1 hop.2.1 hop.2.2 hfind
  | cleared name k hfind => exact hm.cleared hop hfind

/-- A run extends the history of the directory. -/
theorem dirHistory_spec (hs : s.Rep N H) (ho : s.Opened H dp i) (hv : N i = some v) (hm : v.IsMap h)
    (hfree : ∃ jp, H jp = 0) (hops : ∀ op ∈ ops, op.Valid) :
    Wp (dirHistory dp ops) E (fun h' t => t.Opened H dp i ∧
      ∃ v', t.Rep (update N i (some v')) H ∧ v'.IsMap (h ++ h')) s := by
  induction ops generalizing s N v h with
  | nil =>
    refine ⟨ho, v, ?_, ?_⟩
    · rwa [update_node hv]
    · rwa [List.append_nil]
  | cons op ops ih =>
    rw [dirHistory]
    refine (run_spec hs ho hv hm.type hm.dvd hfree op).bind fun r t ⟨hk, v1, hrep, he⟩ => ?_
    have hm1 := he.isMap hm (hops op List.mem_cons_self)
    refine (ih hrep (ho.keep hk) (update_self ..) hm1
      fun o ho => hops o (List.mem_cons_of_mem _ ho)).bind fun h' u ⟨hou, v2, hrepu, hm2⟩ => ?_
    rw [update_idem] at hrepu
    rw [List.append_assoc] at hm2
    exact ⟨hou, v2, hrepu, hm2⟩

/-- Inode `i`, held in entry `dp`, is a directory that behaves as the map its history `h` leaves. -/
def ActsAsMap (N : Nodes) (H : Fin NINODE → ℕ) (dp : Fin NINODE) (i : ℕ) (h : List (DirOp × ℤ))
    (t : Fs) : Prop :=
  ∃ v, t.Rep (update N i (some v)) H ∧ DIRENT ∣ v.bytes.length ∧
    -- names are distinct
    (∀ (j k : ℕ) (a b : Dirent), (entries v.bytes)[j]? = some a → (entries v.bytes)[k]? = some b → a.inum ≠ 0 →
      b.inum ≠ 0 → namecmp a.name b.name = 0 → j = k) ∧
    -- lookup finds what was last entered and has not been cleared since
    (∀ name, 0 ∉ name → (∀ k, v.lookup name = some k ↔ LastLinked h (name.take DIRSIZ) k) ∧
      Wp (dirlookupInum dp name) (fun _ => False)
        (fun r u => r = v.lookup name ∧ u.Rep (update N i (some v)) H) t) ∧
    -- what is done next succeeds or changes nothing, and concerns no other name
    ∀ op : DirOp, op.Valid → Wp (op.run dp) (fun _ => False) (fun r u => (r = 0 ∨ r = -1) ∧
      ∃ v', u.Rep (update N i (some v')) H ∧ (r = -1 → v' = v) ∧
        (∀ name inum, op = .link name inum → v.lookup name ≠ none → r = -1) ∧
        ∀ name, 0 ∉ name → name.take DIRSIZ ≠ op.key → v'.lookup name = v.lookup name) t

/-- **A directory is a finite map with unique names.** It is made by `create`, which calls `dirlink` for
`.` and `..`; after any calls of `dirlink` and any clearing of entries it acts as a map. -/
theorem directory_is_map {major minor : Int16} {d : ℕ} (hs : s.Rep N H) (ho : s.Opened H dp i)
    (hv : N i = some (Node.made T_DIR major minor i d)) (hi : 1 ≤ i) (hd : 1 ≤ d) (hd' : d < 2 ^ 16)
    (hfree : ∃ jp, H jp = 0) (hops : ∀ op ∈ ops, op.Valid) :
    Wp (dirHistory dp ops) (fun _ => False) (fun h t => ActsAsMap N H dp i
      ([(.link [dot] i, 0), (.link [dot, dot] d, 0)] ++ h) t) s := by
  have hi' : i < 2 ^ 16 := lt_of_lt_of_le (hs.of_apply hv).1 hs.coherent.wf.ninodes_le
  have hm := Node.IsMap.made major minor hi hi' hd hd'
  refine (dirHistory_spec hs ho hv hm hfree hops).mono fun h t ⟨hot, v, hrep, hmap⟩ => ?_
  refine ⟨v, hrep, hmap.dvd, ?_, fun name hname => ⟨fun k => hmap.lookup_iff hname, ?_⟩,
    fun op hop => ?_⟩
  · intro j k a b ha hb ha0 hb0 hname
    rw [namecmp_eq_zero_iff] at hname
    refine Slots.index_inj hmap.nodup ha hb (k := cut DIRSIZ a.name) ?_ ?_
    · rw [Dirent.key, if_neg ha0]
    · rw [Dirent.key, if_neg hb0, hname]
  · exact (dirlookupInum_spec hrep hot (update_self ..) hmap hfree name).mono
      fun _ _ hr => ⟨hr.1, hr.2.1⟩
  · refine (run_spec hrep hot (update_self ..) hmap.type hmap.dvd hfree op).mono
      fun r u ⟨_, v', hrepu, he⟩ => ?_
    rw [update_idem] at hrepu
    have hmap' := he.isMap hmap hop
    refine ⟨?_, v', hrepu, fun hr => ?_, ?_, fun name hname hne => ?_⟩
    · cases he <;> simp
    · cases he with
      | failed => rfl
      | linked => cases hr
      | cleared => cases hr
    · rintro name inum rfl hpresent
      cases he with
      | failed => rfl
      | linked _ _ hfind =>
        rw [Node.lookup, lookup_of_missing hfind] at hpresent
        exact absurd rfl hpresent
    · apply Option.ext
      intro k
      rw [hmap'.lookup_iff hname, hmap.lookup_iff hname, lastLinked_concat,
        if_neg fun hc => hne hc.2.symm]

theorem directory_is_map_root : ∃ h t,
    dirHistory 0 [.link [97] 5, .clear [97], .link [97] 65535] (Image.root.fs 1) = .ok (h, t) ∧
    ActsAsMap Image.root.node (Image.refs 1) 0 ROOTINO
      ([(.link [dot] ROOTINO, 0), (.link [dot, dot] ROOTINO, 0)] ++ h) t := by
  have hv : Image.root.node ROOTINO = some (Node.made T_DIR 0 0 ROOTINO ROOTINO) := by decide +kernel
  have hopen : (Image.root.fs 1).Opened (Image.refs 1) 0 ROOTINO := ⟨⟨by decide, rfl⟩, rfl⟩
  have hfree : ∃ jp, Image.refs 1 jp = 0 := ⟨1, by decide⟩
  -- with the calls a variable, nothing runs them
  have hany : ∀ ops : List DirOp, (∀ op ∈ ops, op.Valid) → ∃ h t,
      dirHistory 0 ops (Image.root.fs 1) = .ok (h, t) ∧ ActsAsMap Image.root.node (Image.refs 1) 0
        ROOTINO ([(.link [dot] ROOTINO, 0), (.link [dot, dot] ROOTINO, 0)] ++ h) t := fun ops hops =>
    Wp.total (directory_is_map (Image.root.rep 1) hopen hv le_rfl le_rfl (by decide) hfree hops)
  exact hany _ (by simp [DirOp.Valid])

end Fs

end Xv6
