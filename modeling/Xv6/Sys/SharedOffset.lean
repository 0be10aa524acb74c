import Xv6.Sys.Regime
import Xv6.Sys.ReadCount
import Xv6.Fs.Chunk

/-! # Writers that share an offset

Any number of `filewrite` calls on one `struct file`, interleaved between the rounds of their loops: a
round is one transaction under the inode's lock. If no round fails, the file grows by the rounds'
bytes in the order of the rounds, and each call's rounds are its buffer from front to back
(`Writers.shared_offset`). -/

namespace Xv6

open Function

/-- If `writei` returns the number of bytes asked for, it could read them all. -/
theorem Fs.writei_readable {s : Fs} {N : Nodes} {H : Fin NINODE → ℕ} {ip : Fin NINODE}
    {ino n va : ℕ} {mem : UserSpace} (h : s.Rep N H) (ho : s.Opened H ip ino) (off : ℕ)
    (hn : n < 2 ^ 32) (hva : va < 2 ^ 64) (hpos : 0 < n) :
    Wp (writei ip (.user mem.toUserMem va) off n) (fun _ => False)
      (fun r _ => r = n → va + n ≤ MAXVA ∧ (Src.user mem.toUserMem va).Readable n) s := by
  obtain ⟨hl, ht⟩ := ho.locked h
  refine (writei_ends h.coherent hl ht off hn (reads_user mem hva)).mono fun r t hr hret => ?_
  obtain ⟨rfl, -, -⟩ | ⟨tot, v, u, d, d', rfl, -, -, hstop, -⟩ := hr
  · omega
  · obtain rfl : tot = n := Int.ofNat.inj hret
    have hle := UserSpace.le_of_mapped hpos hstop.inv
    have hmax : MAXVA < 2 ^ 64 := by decide
    exact ⟨hle, by omega, hstop.inv⟩

/-! ## The system -/

/-- A call of `filewrite`. -/
structure WriteCall where
  mem : UserSpace
  addr : UInt64
  n : ℤ
  /-- The bytes written so far. -/
  i : ℕ
  /-- What the call returned. -/
  ret : Option ℤ

/-- The buffer from byte `i` on. -/
def WriteCall.src (c : WriteCall) (i : ℕ) : Src :=
  .user c.mem.toUserMem ((c.addr.toNat + i) % 2 ^ 64)

/-- A round of a call that succeeded: `len` bytes from byte `start` of its buffer. -/
structure Chunk where
  call : ℕ
  start : ℕ
  len : ℕ

/-- The kernel, the calls made on the file, and the rounds in their order. -/
structure Writers (m : ℕ) where
  sys : Sys m
  calls : List WriteCall
  written : List Chunk
  /-- A round has failed. -/
  failed : Bool

inductive WriteAction
  /-- A new call of `filewrite`. -/
  | call (mem : UserSpace) (addr : UInt64) (n : ℤ)
  /-- The next round of a call, or its return. -/
  | go (k : ℕ)

namespace Writers

variable {m : ℕ}

/-- One step; a panic is not a step. -/
def step (f : Fin NFILE) (σ : Writers m) : WriteAction → Option (Writers m)
  | .call mem addr n =>
    let ret := if (σ.sys.ftable f).writable = false then some (-1) else none
    some { σ with calls := σ.calls ++ [⟨mem, addr, n, 0, ret⟩] }
  | .go k =>
    match σ.calls[k]? with
    | none => none
    | some c =>
      if c.ret ≠ none then none
      else if (c.i : ℤ) < c.n then
        match filewriteLoop f c.src c.n.toNat 1 c.i σ.sys with
        | .error _ => none
        | .ok (i, sys) =>
          if i = c.i then
            -- error from `writei`
            some { σ with
              sys := sys
              calls := σ.calls.set k { c with ret := some (-1) }
              failed := true }
          else
            some { σ with
              sys := sys
              calls := σ.calls.set k { c with i := i }
              written := σ.written ++ [⟨k, c.i, i - c.i⟩] }
      else
        some { σ with
          calls := σ.calls.set k { c with ret := some (if (c.i : ℤ) = c.n then c.n else -1) } }

/-- The bytes of a round. -/
def chunkBytes (calls : List WriteCall) (w : Chunk) : List UInt8 :=
  match calls[w.call]? with
  | none => []
  | some c => c.mem.load ((c.addr.toNat + w.start) % 2 ^ 64) w.len

/-- The most bytes a round writes. -/
abbrev maxChunk : ℕ := (MAXOPBLOCKS - 1 - 1 - 2) / 2 * BSIZE

/-- The rounds of a call for `n` bytes that has written `i`: each starts where the one before ended. -/
inductive Cut (n : ℕ) : ℕ → List (ℕ × ℕ) → Prop
  | nil : Cut n 0 []
  | snoc {i : ℕ} {l : List (ℕ × ℕ)} (h : Cut n i l) (hi : i < n) :
      Cut n (i + min (n - i) maxChunk) (l ++ [(i, min (n - i) maxChunk)])

theorem Cut.le {n i : ℕ} {l : List (ℕ × ℕ)} (h : Cut n i l) : i ≤ n := by
  induction h with
  | nil => exact Nat.zero_le n
  | snoc h hi ih => omega

/-- The rounds of a call are the buffer from front to back. -/
theorem Cut.bytes {mem : UserMem} {addr n i : ℕ} {l : List (ℕ × ℕ)} (h : Cut n i l)
    (hle : addr + i < 2 ^ 64) :
    l.flatMap (fun c => mem.load ((addr + c.1) % 2 ^ 64) c.2) = mem.load addr i := by
  induction h with
  | nil => rfl
  | snoc h hi ih =>
    rename_i i l
    rw [List.flatMap_append, ih (by omega), List.flatMap_singleton, Nat.mod_eq_of_lt (by omega),
      UserMem.load_add]

/-! ## One round -/

variable {σ τ : Sys m} {f : Fin NFILE} {N : Nodes} {H : Fin NINODE → ℕ} {ino : ℕ} {v : Node}
  {b : List UInt8}

/-- The file `f` is open on inode `ino`, which has the bytes `b`, and its offset is at the end. -/
structure Shared (f : Fin NFILE) (N : Nodes) (H : Fin NINODE → ℕ) (ino : ℕ) (v : Node)
    (σ : Sys m) (b : List UInt8) : Prop where
  rep : σ.fs.Rep (update N ino (some { v with bytes := b })) H
  holds : σ.fs.Holds H (σ.ftable f).ip ino
  type : (σ.ftable f).type = .inode
  writable : (σ.ftable f).writable = true
  off : (σ.ftable f).off = b.length

/-- **A round of `filewrite`** either fails or appends its bytes to the file. -/
theorem chunk_spec (h : Shared f N H ino v σ b) {c : WriteCall} {n i : ℕ} (hi : i < n) :
    Wp (filewriteLoop f c.src n 1 i) (fun _ => False) (fun j τ => j = i ∨
      j = i + min (n - i) maxChunk ∧
      (c.addr.toNat + i) % 2 ^ 64 + min (n - i) maxChunk ≤ MAXVA ∧
      Shared f N H ino v τ
        (b ++ c.mem.load ((c.addr.toNat + i) % 2 ^ 64) (min (n - i) maxChunk))) σ := by
  obtain ⟨n1, hn1⟩ : ∃ n1, n1 = min (n - i) maxChunk := ⟨_, rfl⟩
  have hmax : n1 ≤ 3072 := by
    rw [hn1]
    exact Nat.min_le_right _ _
  have hpos : 0 < n1 := by
    have : 0 < maxChunk := by decide
    omega
  rw [filewriteLoop, if_pos hi]
  simp only [Sys.wp_file, Sys.wp_onFs, wp_bind, beginOp, wp_modify, ← hn1]
  have hbegin : Fs.Rep { σ.fs with logged := [] } _ H := h.rep.congr rfl rfl rfl
  have hholds : Fs.Holds { σ.fs with logged := [] } H (σ.ftable f).ip ino :=
    ⟨h.holds.held, h.holds.inum⟩
  refine (Fs.ilock_rep hbegin hholds ?_).mono fun _ t ht => ?_
  · simp
  obtain ⟨hrep, hkeep, hopen⟩ := ht
  have hmod : (c.addr.toNat + i) % 2 ^ 64 < 2 ^ 64 := Nat.mod_lt _ (by decide)
  have hwrite := (Fs.writei_rep (E := fun _ => False) hrep hopen (update_self ..) (c.src i)
    (σ.ftable f).off (show n1 < 2 ^ 32 by omega)).and
    (Fs.writei_readable hrep hopen _ (by omega) hmod hpos)
  refine hwrite.mono ?_
  rintro r u ⟨⟨b', hw⟩, hread⟩
  have hopen' : u.Opened H (σ.ftable f).ip ino := hopen.keep hw.keeps
  rw [Sys.wp_modifyFile, wp_bind, Sys.wp_onFs]
  refine (Fs.iunlock_rep hw.rep hopen'.held).bind fun _ t' ht' => ?_
  subst ht'
  rw [endOp, wp_modify]
  by_cases hr : r ≠ n1
  · rw [if_pos hr, wp_pure]
    exact .inl rfl
  · rw [if_neg hr]
    obtain rfl : r = n1 := not_not.mp hr
    obtain ⟨hle, hreadable⟩ := hread rfl
    obtain ⟨hbad, -⟩ | ⟨tot, htot, htot', hoff, hfit, -, hb'⟩ := hw.result
    · omega
    obtain rfl : tot = n1 := by omega
    have hbytes : (c.src i).bytes tot = c.mem.load ((c.addr.toNat + i) % 2 ^ 64) tot := rfl
    have hlen : ((c.src i).bytes tot).length = tot := Src.length_bytes hreadable
    have hb : b' = b ++ c.mem.load ((c.addr.toNat + i) % 2 ^ 64) tot := by
      have hsplice : b' = splice b b.length (((c.src i).bytes tot).take tot) := by
        rw [← h.off]
        exact hb' hreadable
      rw [hsplice, splice, List.take_length, List.take_of_length_le hlen.le,
        List.drop_of_length_le (Nat.le_add_right _ _), List.append_nil, hbytes]
    have hfile : update σ.ftable f (if (tot : ℤ) > 0 then
        { σ.ftable f with off := ((σ.ftable f).off + (tot : ℤ).toNat) % 2 ^ 32 } else σ.ftable f) f =
        { σ.ftable f with off := (σ.ftable f).off + tot } := by
      rw [update_self, if_pos (by omega), Int.toNat_natCast, Nat.mod_eq_of_lt]
      simp only [MAXFILE, NDIRECT, NINDIRECT, BSIZE] at hfit
      omega
    refine .inr ⟨rfl, hle, ?_, ?_, ?_, ?_, ?_⟩
    · rw [← hb]
      have hrep' := hw.rep
      rw [update_idem] at hrep'
      exact hrep'.congr rfl rfl rfl
    · dsimp only [Sys.setFile]
      rw [hfile]
      exact ⟨hopen'.held, hopen'.inum⟩
    · dsimp only [Sys.setFile]
      rw [hfile]
      exact h.type
    · dsimp only [Sys.setFile]
      rw [hfile]
      exact h.writable
    · dsimp only [Sys.setFile]
      rw [hfile, List.length_append, ← hbytes, hlen, ← h.off]

/-! ## Runs -/

/-- What holds as long as no round has failed. -/
structure Inv (f : Fin NFILE) (N : Nodes) (H : Fin NINODE → ℕ) (ino : ℕ) (v : Node)
    (σ : Writers m) : Prop where
  shared : Shared f N H ino v σ.sys (v.bytes ++ σ.written.flatMap (chunkBytes σ.calls))
  known : ∀ w ∈ σ.written, w.call < σ.calls.length
  cut : ∀ (k : ℕ) (c : WriteCall), σ.calls[k]? = some c → Cut c.n.toNat c.i
    ((σ.written.filter fun w => w.call = k).map fun w => (w.start, w.len))
  near : ∀ (k : ℕ) (c : WriteCall), σ.calls[k]? = some c → c.i = 0 ∨ c.addr.toNat + c.i ≤ MAXVA
  ret : ∀ (k : ℕ) (c : WriteCall) (r : ℤ), σ.calls[k]? = some c → c.ret = some r →
    r = (if 0 ≤ c.n then c.n else -1) ∧ c.i = c.n.toNat
  sum : (σ.written.map Chunk.len).sum = (σ.calls.map WriteCall.i).sum

section step

variable {σ τ : Writers m} {k : ℕ} {c c' : WriteCall}

theorem lookup_set {l : List WriteCall} (hk : l[k]? = some c) {j : ℕ} {d : WriteCall}
    (hd : (l.set k c')[j]? = some d) : j = k ∧ d = c' ∨ j ≠ k ∧ l[j]? = some d := by
  obtain ⟨hlt, -⟩ := List.getElem?_eq_some_iff.mp hk
  rcases eq_or_ne j k with rfl | hne
  · rw [List.getElem?_set_self hlt] at hd
    exact .inl ⟨rfl, (Option.some.inj hd).symm⟩
  · rw [List.getElem?_set_ne hne.symm] at hd
    exact .inr ⟨hne, hd⟩

theorem sum_set {l : List WriteCall} (hk : l[k]? = some c) (c' : WriteCall) :
    ((l.set k c').map WriteCall.i).sum + c.i = (l.map WriteCall.i).sum + c'.i := by
  induction l generalizing k with
  | nil => cases hk
  | cons d l ih =>
    cases k with
    | zero =>
      obtain rfl : d = c := Option.some.inj hk
      simp only [List.set_cons_zero, List.map_cons, List.sum_cons]
      omega
    | succ k =>
      have := ih hk
      simp only [List.set_cons_succ, List.map_cons, List.sum_cons]
      omega

/-- The buffer of a call stays the same. -/
theorem chunkBytes_set {l : List WriteCall} (hk : l[k]? = some c) (c' : WriteCall)
    (hmem : c'.mem = c.mem) (haddr : c'.addr = c.addr) : chunkBytes (l.set k c') = chunkBytes l := by
  obtain ⟨hlt, -⟩ := List.getElem?_eq_some_iff.mp hk
  funext w
  unfold chunkBytes
  rcases eq_or_ne w.call k with heq | hne
  · rw [heq, List.getElem?_set_self hlt, hk]
    dsimp only
    rw [hmem, haddr]
  · rw [List.getElem?_set_ne hne.symm]

theorem chunkBytes_append {l : List WriteCall} {w : Chunk} (hw : w.call < l.length) :
    chunkBytes (l ++ [c]) w = chunkBytes l w := by
  unfold chunkBytes
  rw [List.getElem?_append_left hw]

theorem length_chunks {calls : List WriteCall} {l : List Chunk}
    (hknown : ∀ w ∈ l, w.call < calls.length) :
    (l.flatMap (chunkBytes calls)).length = (l.map Chunk.len).sum := by
  induction l with
  | nil => rfl
  | cons w l ih =>
    have hw := hknown w List.mem_cons_self
    rw [List.flatMap_cons, List.length_append, ih fun x hx => hknown x (List.mem_cons_of_mem w hx),
      List.map_cons, List.sum_cons, chunkBytes, List.getElem?_eq_getElem hw]
    simp [UserMem.load]

theorem Inv.call (h : Inv f N H ino v σ) {mem : UserSpace} {addr : UInt64} {n : ℤ}
    (hstep : step f σ (.call mem addr n) = some τ) : Inv f N H ino v τ := by
  have hret : (if (σ.sys.ftable f).writable = false then some (-1) else none : Option ℤ) = none := by
    rw [h.shared.writable]
    rfl
  unfold step at hstep
  dsimp only at hstep
  rw [hret] at hstep
  cases hstep
  have hcases : ∀ j d, (σ.calls ++ [⟨mem, addr, n, 0, none⟩])[j]? = some d →
      σ.calls[j]? = some d ∨ j = σ.calls.length ∧ d = ⟨mem, addr, n, 0, none⟩ := by
    intro j d hd
    rw [List.getElem?_append] at hd
    split at hd
    · exact .inl hd
    · rename_i hlt
      rw [List.getElem?_singleton] at hd
      split at hd
      · exact .inr ⟨by omega, (Option.some.inj hd).symm⟩
      · cases hd
  constructor
  case shared =>
    have hbytes : σ.written.flatMap (chunkBytes (σ.calls ++ [⟨mem, addr, n, 0, none⟩])) =
        σ.written.flatMap (chunkBytes σ.calls) :=
      List.flatMap_congr fun w hw => chunkBytes_append (h.known w hw)
    dsimp only
    rw [hbytes]
    exact h.shared
  case known =>
    intro w hw
    dsimp only
    rw [List.length_append]
    exact Nat.lt_add_right _ (h.known w hw)
  case cut =>
    intro j d hd
    rcases hcases j d hd with hd | ⟨rfl, rfl⟩
    · exact h.cut j d hd
    · -- no round belongs to the new call yet
      have hnone : σ.written.filter (fun w => w.call = σ.calls.length) = [] := by
        rw [List.filter_eq_nil_iff]
        intro w hw
        have := h.known w hw
        simp only [decide_eq_true_eq]
        omega
      dsimp only
      rw [hnone]
      exact .nil
  case near =>
    intro j d hd
    rcases hcases j d hd with hd | ⟨-, rfl⟩
    · exact h.near j d hd
    · exact .inl rfl
  case ret =>
    intro j d r hd hr
    rcases hcases j d hd with hd | ⟨-, rfl⟩
    · exact h.ret j d r hd hr
    · cases hr
  case sum =>
    dsimp only
    rw [List.map_append, List.sum_append, ← h.sum]
    rfl

/-- The call returns. -/
theorem Inv.return (h : Inv f N H ino v σ) (hk : σ.calls[k]? = some c) (hdone : ¬ (c.i : ℤ) < c.n) :
    Inv f N H ino v { σ with
      calls := σ.calls.set k { c with ret := some (if (c.i : ℤ) = c.n then c.n else -1) } } := by
  have hle := (h.cut k c hk).le
  constructor
  case shared =>
    dsimp only
    rw [chunkBytes_set hk { c with ret := some _ } rfl rfl]
    exact h.shared
  case known =>
    dsimp only
    rw [List.length_set]
    exact h.known
  case cut =>
    intro j d hd
    rcases lookup_set hk hd with ⟨rfl, rfl⟩ | ⟨-, hd⟩
    · exact h.cut j c hk
    · exact h.cut j d hd
  case near =>
    intro j d hd
    rcases lookup_set hk hd with ⟨rfl, rfl⟩ | ⟨-, hd⟩
    · exact h.near j c hk
    · exact h.near j d hd
  case ret =>
    intro j d r hd hr
    rcases lookup_set hk hd with ⟨rfl, rfl⟩ | ⟨-, hd⟩
    · cases hr
      dsimp only
      refine ⟨?_, by omega⟩
      by_cases hn : 0 ≤ c.n
      · rw [if_pos hn, if_pos (by omega)]
      · rw [if_neg hn, if_neg (by omega)]
    · exact h.ret j d r hd hr
  case sum =>
    have := sum_set hk { c with ret := some (if (c.i : ℤ) = c.n then c.n else -1) }
    dsimp only at this ⊢
    rw [h.sum]
    omega

/-- A round has succeeded. -/
theorem Inv.round (h : Inv f N H ino v σ) (hk : σ.calls[k]? = some c) (hret : c.ret = none)
    (hi : (c.i : ℤ) < c.n) {sys : Sys m} {len : ℕ} (hlen : len = min (c.n.toNat - c.i) maxChunk)
    (hle : (c.addr.toNat + c.i) % 2 ^ 64 + len ≤ MAXVA)
    (hs : Shared f N H ino v sys ((v.bytes ++ σ.written.flatMap (chunkBytes σ.calls)) ++
      c.mem.load ((c.addr.toNat + c.i) % 2 ^ 64) len)) :
    Inv f N H ino v { σ with
      sys := sys
      calls := σ.calls.set k { c with i := c.i + len }
      written := σ.written ++ [⟨k, c.i, len⟩] } := by
  have hlt : k < σ.calls.length := (List.getElem?_eq_some_iff.mp hk).1
  have hbound : (2 : ℕ) ^ 64 = 18446744073709551616 ∧ MAXVA = 274877906944 := ⟨rfl, rfl⟩
  have haddr := c.addr.toNat_lt
  constructor
  case shared =>
    dsimp only
    rw [chunkBytes_set hk { c with i := c.i + len } rfl rfl, List.flatMap_append, List.flatMap_singleton, ← List.append_assoc]
    have hbytes : chunkBytes σ.calls ⟨k, c.i, len⟩ =
        c.mem.load ((c.addr.toNat + c.i) % 2 ^ 64) len := by
      unfold chunkBytes
      dsimp only
      rw [hk]
    rw [hbytes]
    exact hs
  case known =>
    intro w hw
    dsimp only
    rw [List.length_set]
    rcases List.mem_append.mp hw with hw | hw
    · exact h.known w hw
    · rwa [List.mem_singleton.mp hw]
  case cut =>
    intro j d hd
    dsimp only
    rw [List.filter_append, List.map_append]
    rcases lookup_set hk hd with ⟨rfl, rfl⟩ | ⟨hne, hd⟩
    · have hself : (List.filter (fun w : Chunk => w.call = j) [⟨j, c.i, len⟩]) = [⟨j, c.i, len⟩] :=
        List.filter_cons_of_pos (decide_eq_true rfl)
      rw [hself, hlen]
      exact (h.cut j c hk).snoc (by omega)
    · have hother : (List.filter (fun w : Chunk => w.call = j) [⟨k, c.i, len⟩]) = [] :=
        List.filter_cons_of_neg (by simpa using hne.symm)
      rw [hother, List.map_nil, List.append_nil]
      exact h.cut j d hd
  case near =>
    intro j d hd
    rcases lookup_set hk hd with ⟨rfl, rfl⟩ | ⟨-, hd⟩
    · dsimp only
      rcases h.near j c hk with h0 | hn <;> omega
    · exact h.near j d hd
  case ret =>
    intro j d r hd hr
    rcases lookup_set hk hd with ⟨rfl, rfl⟩ | ⟨-, hd⟩
    · dsimp only at hr
      rw [hret] at hr
      cases hr
    · exact h.ret j d r hd hr
  case sum =>
    have := sum_set hk { c with i := c.i + len }
    have hsum := h.sum
    dsimp only at this ⊢
    rw [List.map_append, List.sum_append]
    show _ + List.sum [len] = _
    rw [List.sum_singleton]
    omega

/-- **Steps keep the invariant**, and no call that has not returned is stuck. -/
theorem Inv.go (h : Inv f N H ino v σ) (hk : σ.calls[k]? = some c) (hret : c.ret = none) :
    ∃ τ, step f σ (.go k) = some τ ∧ (τ.failed = false → Inv f N H ino v τ) := by
  unfold step
  simp only [hk]
  rw [if_neg (not_not.mpr hret)]
  by_cases hi : (c.i : ℤ) < c.n
  · rw [if_pos hi]
    obtain ⟨j, sys, hloop, hspec⟩ :=
      (chunk_spec (c := c) h.shared (show c.i < c.n.toNat by omega)).total
    rw [hloop]
    dsimp only
    by_cases hj : j = c.i
    · rw [if_pos hj]
      exact ⟨_, rfl, nofun⟩
    · rw [if_neg hj]
      obtain hc | ⟨rfl, hle, hs⟩ := hspec
      · exact absurd hc hj
      · refine ⟨_, rfl, fun _ => ?_⟩
        rw [Nat.add_sub_cancel_left]
        exact h.round hk hret hi rfl hle hs
  · rw [if_neg hi]
    exact ⟨_, rfl, fun _ => h.return hk hi⟩

theorem Inv.step (h : Inv f N H ino v σ) {a : WriteAction} (hstep : Writers.step f σ a = some τ)
    (hf : τ.failed = false) : Inv f N H ino v τ := by
  cases a with
  | call mem addr n => exact h.call hstep
  | go k =>
    cases hk : σ.calls[k]? with
    | none =>
      unfold Writers.step at hstep
      simp only [hk] at hstep
      cases hstep
    | some c =>
      by_cases hret : c.ret = none
      · obtain ⟨τ', hτ', hinv⟩ := h.go hk hret
        obtain rfl : τ' = τ := Option.some.inj (hτ'.symm.trans hstep)
        exact hinv hf
      · unfold Writers.step at hstep
        simp only [hk] at hstep
        rw [if_pos hret] at hstep
        cases hstep

/-- A failure is not forgotten. -/
theorem failed_of_step {a : WriteAction} (hstep : step f σ a = some τ) (hf : σ.failed = true) :
    τ.failed = true := by
  cases a with
  | call mem addr n =>
    cases hstep
    exact hf
  | go k =>
    unfold step at hstep
    dsimp only at hstep
    split at hstep
    · cases hstep
    · split at hstep
      · cases hstep
      · split at hstep
        · split at hstep
          · cases hstep
          · split at hstep <;> obtain rfl := Option.some.inj hstep
            · rfl
            · exact hf
        · cases hstep
          exact hf

end step

/-- **No update of a shared offset is lost.** Calls of `filewrite` on one file whose offset is at the
end of the file are interleaved in any way. If no round fails, the file has its first contents followed
by the bytes of the rounds in their order, and the offset is at its end; the rounds of a call are its
buffer cut from front to back; a call for `n` bytes returns `n`, with all its bytes written; when all
calls have returned the offset has advanced by the sum of all `n`; and a call that has not returned can
take its next step. -/
theorem shared_offset {sys : Sys m} (hrep : sys.fs.Rep N H) (hv : N ino = some v)
    (hholds : sys.fs.Holds H (sys.ftable f).ip ino) (htype : (sys.ftable f).type = .inode)
    (hwritable : (sys.ftable f).writable = true) (hoff : (sys.ftable f).off = v.bytes.length)
    {as : List WriteAction} {σ : Writers m}
    (hrun : runFrom (step f) ⟨sys, [], [], false⟩ as = some σ) (hfailed : σ.failed = false) :
    σ.sys.fs.Rep (update N ino
      (some { v with bytes := v.bytes ++ σ.written.flatMap (chunkBytes σ.calls) })) H ∧
    (σ.sys.ftable f).off = v.bytes.length + (σ.written.map Chunk.len).sum ∧
    (∀ (k : ℕ) (c : WriteCall), σ.calls[k]? = some c →
      Cut c.n.toNat c.i ((σ.written.filter fun w => w.call = k).map fun w => (w.start, w.len)) ∧
      (σ.written.filter fun w => w.call = k).flatMap (chunkBytes σ.calls) =
        c.mem.load c.addr.toNat c.i) ∧
    (∀ (k : ℕ) (c : WriteCall) (r : ℤ), σ.calls[k]? = some c → c.ret = some r →
      r = (if 0 ≤ c.n then c.n else -1) ∧ c.i = c.n.toNat) ∧
    ((∀ c ∈ σ.calls, c.ret ≠ none) →
      (σ.sys.ftable f).off = (sys.ftable f).off + (σ.calls.map fun c => c.n.toNat).sum) ∧
    ∀ (k : ℕ) (c : WriteCall), σ.calls[k]? = some c → c.ret = none →
      ∃ τ, step f σ (.go k) = some τ := by
  have h0 : Inv f N H ino v (⟨sys, [], [], false⟩ : Writers m) := by
    refine ⟨⟨?_, hholds, htype, hwritable, ?_⟩, nofun, nofun, nofun, nofun, rfl⟩
    · show sys.fs.Rep (update N ino (some { v with bytes := v.bytes ++ [] })) H
      rwa [List.append_nil, ← hv, update_eq_self]
    · show _ = (v.bytes ++ []).length
      rw [List.append_nil, hoff]
  have hinv : Inv f N H ino v σ := by
    refine runFrom_invariant (I := fun σ => σ.failed = false → Inv f N H ino v σ)
      (fun s a t hs hstep ht => ?_) (fun _ => h0) hrun hfailed
    have hsf : s.failed = false := by
      by_contra hc
      rw [failed_of_step hstep (by simpa using hc)] at ht
      cases ht
    exact (hs hsf).step hstep ht
  have hend : (σ.sys.ftable f).off = v.bytes.length + (σ.written.map Chunk.len).sum := by
    rw [hinv.shared.off, List.length_append, length_chunks hinv.known]
  refine ⟨hinv.shared.rep, hend, fun k c hk => ⟨hinv.cut k c hk, ?_⟩, hinv.ret, fun hall => ?_,
    fun k c hk hret => ?_⟩
  · have haddr := c.addr.toNat_lt
    have hmax : MAXVA < 2 ^ 64 := by decide
    have hle : c.addr.toNat + c.i < 2 ^ 64 := by
      rcases hinv.near k c hk with h | h <;> omega
    rw [← (hinv.cut k c hk).bytes hle, List.flatMap_map]
    refine List.flatMap_congr fun w hw => ?_
    have hcall : w.call = k := of_decide_eq_true (List.mem_filter.mp hw).2
    rw [chunkBytes, hcall, hk]
  · have hi : σ.calls.map WriteCall.i = σ.calls.map fun c => c.n.toNat := by
      refine List.map_congr_left fun c hc => ?_
      obtain ⟨k, hk⟩ := List.getElem?_of_mem hc
      obtain ⟨r, hr⟩ := Option.ne_none_iff_exists'.mp (hall c hc)
      exact (hinv.ret k c r hk hr).2
    rw [hend, hinv.sum, hi, hoff]
  · obtain ⟨τ, hτ, -⟩ := hinv.go hk hret
    exact ⟨τ, hτ⟩

/-- A disk with one file of two bytes. -/
def twoBytes : Image := Fs.hiFile

/-- The file is open at its end. -/
def openTwoBytes : Sys 1 where
  fs := twoBytes.fs 1
  ftable := fun _ => ⟨.inode, 1, true, true, 0, 2, 0⟩
  procs := fun _ => ⟨.live, none, none, fun _ => none⟩
  panicked := none

/-- A process with one page, filled with one byte. -/
def onePage (b : UInt8) : UserSpace := { Fs.onePage with byte := fun _ => b }

/-- Two writers, the second of which overtakes the first. -/
theorem shared_offset_overtaken :
    ∃ σ : Writers 1, runFrom (step 0) ⟨openTwoBytes, [], [], false⟩
        [.call (onePage 97) 0 1, .call (onePage 98) 0 2, .go 1, .go 0, .go 0, .go 1] = some σ ∧
      (σ.sys.ftable 0).off = 5 ∧
      ∃ v, σ.sys.fs.nodes 1 = some v ∧ v.bytes = [104, 105, 98, 98, 97] := by
  have hrun : ((runFrom (step 0) ⟨openTwoBytes, [], [], false⟩
      [.call (onePage 97) 0 1, .call (onePage 98) 0 2, .go 1, .go 0, .go 0, .go 1]).any fun σ =>
      decide (σ.failed = false ∧ (σ.calls.map fun c => (c.n, c.ret)) = [(1, some 1), (2, some 2)] ∧
        σ.written.flatMap (chunkBytes σ.calls) = [98, 98, 97])) = true := by
    decide +kernel
  obtain ⟨σ, hσ, hd⟩ := (Option.any_eq_true _ _).mp hrun
  obtain ⟨hfailed, hcalls, hbytes⟩ := of_decide_eq_true hd
  have hv : twoBytes.node 1 = some ⟨T_FILE, 0, 0, 1, [104, 105]⟩ := rfl
  obtain ⟨hrep, -, -, -, hoff, -⟩ :=
    shared_offset (twoBytes.rep 1) hv ⟨by decide, rfl⟩ rfl rfl rfl hσ hfailed
  have hret : ∀ x ∈ σ.calls.map (fun c => (c.n, c.ret)), x.2 ≠ none := by
    rw [hcalls]
    decide
  have hsum : (σ.calls.map fun c => c.n.toNat).sum = 3 := by
    have hmap : (σ.calls.map fun c => (c.n, c.ret)).map (fun x => x.1.toNat) = [1, 2] := by
      rw [hcalls]
      rfl
    rw [List.map_map] at hmap
    exact congrArg List.sum hmap
  refine ⟨σ, hσ, ?_, ?_⟩
  · rw [hoff fun c hc => hret _ (List.mem_map_of_mem hc), hsum]
    rfl
  · rw [hrep.nodes_eq, update_self, hbytes]
    exact ⟨_, rfl, rfl⟩

end Writers

end Xv6
