import Xv6.Lib.Update
import Xv6.Console.Basic

/-! # The line discipline

What the ring of the console stands for: the bytes readers can have, `committed`, and the bytes that
can still be edited, `pending`. The operations of the source on the ring are operations on the two
lists (`Cons.lines_consoleintr`, `Cons.lines_readLoop`), so the console with the ring runs as the
console with the lists (`Console.line_discipline`). -/

namespace Xv6

open Function

/-- The input as two lists. -/
structure Lines where
  committed : List UInt8
  pending : List UInt8

namespace Lines

/-- Characters are appended to `pending` or edit it; a newline, `^D` or a full buffer moves `pending`
to `committed`. -/
def intr (σ : Lines) (c : UInt8) : Lines × Option (List UInt8) :=
  if c = ctrlP then (σ, none)
  else if c = ctrlU then ({ σ with pending := [] }, none)
  else if c = ctrlH ∨ c = delete then ({ σ with pending := σ.pending.dropLast }, none)
  else if c ≠ 0 ∧ σ.committed.length + σ.pending.length < INPUT_BUF_SIZE then
    let c := if c = carriageReturn then newline else c
    let line := σ.pending ++ [c]
    if c = newline ∨ c = ctrlD ∨ σ.committed.length + line.length = INPUT_BUF_SIZE then
      (⟨σ.committed ++ line, []⟩, some line)
    else ({ σ with pending := line }, none)
  else (σ, none)

/-- What a reader that wants `n` more bytes does with the committed bytes. -/
def takeBytes (killed : Bool) : ℕ → ReadCall → List UInt8 → List UInt8 × ReadCall × ReadEnd
  | 0, call, cs => (cs, call, .ret call.target)
  | n + 1, call, [] => if killed then ([], call, .ret (-1)) else ([], call, .sleep (n + 1))
  | n + 1, call, c :: cs =>
    if c = ctrlD then
      if n + 1 < call.target then (c :: cs, call, .ret (call.target - (n + 1)))
      else (cs, { call with took := call.took ++ [c] }, .ret (call.target - (n + 1)))
    else if call.dst (call.target - (n + 1)) = false then
      (cs, { call with took := call.took ++ [c] }, .ret (call.target - (n + 1)))
    else
      let call' := { call with got := call.got ++ [c], took := call.took ++ [c] }
      if c = newline then (cs, call', .ret (call.target - n)) else takeBytes killed n call' cs

def read (killed : Bool) (n : ℕ) (call : ReadCall) (σ : Lines) : Lines × ReadCall × ReadEnd :=
  let (cs, call', fin) := takeBytes killed n call σ.committed
  ({ σ with committed := cs }, call', fin)

/-! ## What a reader takes -/

/-- Why a reader that got `got` stops, with `rest` still committed. -/
inductive Stops (call : ReadCall) (rest : List UInt8) : Prop
  | count (hlen : call.got.length = call.target) (htook : call.took = call.got)
  | line (hlast : call.got.getLast? = some newline) (htook : call.took = call.got)
  /-- `^D` is left for the next call. -/
  | before (hne : call.got ≠ []) (hrest : rest.head? = some ctrlD) (htook : call.took = call.got)
  /-- `^D` comes first and is taken. -/
  | eof (hgot : call.got = []) (htook : call.took = [ctrlD])

/-- A reader in the middle of its call: only ordinary bytes so far. -/
structure Reading (call : ReadCall) (n : ℕ) : Prop where
  took : call.took = call.got
  count : call.got.length + n = call.target
  bytes : ∀ c ∈ call.got, c ≠ newline ∧ c ≠ ctrlD

/-- What the loop does with the committed bytes `cs`, from a reader in the middle of its call. -/
structure Took (killed : Bool) (call : ReadCall) (cs cs' : List UInt8) (call' : ReadCall)
    (fin : ReadEnd) : Prop where
  dst : call'.dst = call.dst
  target : call'.target = call.target
  /-- The bytes it takes are the first of the committed ones. -/
  took : ∃ bytes, cs = bytes ++ cs' ∧ call'.took = call.took ++ bytes
  asleep : ∀ n, fin = .sleep n → cs' = [] ∧ Reading call' n ∧ 0 < n ∧ killed = false
  ret : ∀ v, fin = .ret v → (∀ i, call.dst i = true) →
    (v = -1 ∧ killed = true ∧ call'.took = call'.got ∨
      v = call'.got.length ∧ Stops call' cs') ∧
    call'.got.length ≤ call'.target ∧ (∀ c ∈ call'.got, c ≠ ctrlD) ∧
    ∀ c ∈ call'.got.dropLast, c ≠ newline

variable {killed : Bool} {n : ℕ} {call : ReadCall} {cs : List UInt8}

theorem Reading.not_newline (h : Reading call n) : ∀ c ∈ call.got.dropLast, c ≠ newline :=
  fun c hc => (h.bytes c (List.dropLast_subset _ hc)).1

theorem Reading.not_ctrlD (h : Reading call n) : ∀ c ∈ call.got, c ≠ ctrlD :=
  fun c hc => (h.bytes c hc).2

theorem takeBytes_took (h : Reading call n) :
    Took killed call cs (takeBytes killed n call cs).1 (takeBytes killed n call cs).2.1
      (takeBytes killed n call cs).2.2 := by
  induction n generalizing call cs with
  | zero =>
    refine ⟨rfl, rfl, ⟨[], rfl, (List.append_nil _).symm⟩, nofun, fun v hv _ => ?_⟩
    have hlen : call.got.length = call.target := h.count
    cases hv
    refine ⟨.inr ⟨?_, .count hlen h.took⟩, hlen.le, h.not_ctrlD, h.not_newline⟩
    show (call.target : ℤ) = call.got.length
    rw [hlen]
  | succ n ih =>
    have hcount : call.got.length + (n + 1) = call.target := h.count
    have hcount' : (call.target : ℤ) - (n + 1) = call.got.length := by
      omega
    cases cs with
    | nil =>
      unfold takeBytes
      split
      · rename_i hk
        refine ⟨rfl, rfl, ⟨[], rfl, (List.append_nil _).symm⟩, nofun, fun v hv _ => ?_⟩
        cases hv
        refine ⟨.inl ⟨rfl, hk, h.took⟩, ?_, h.not_ctrlD, h.not_newline⟩
        show call.got.length ≤ call.target
        omega
      · rename_i hk
        refine ⟨rfl, rfl, ⟨[], rfl, (List.append_nil _).symm⟩, fun m hm => ?_, nofun⟩
        cases hm
        exact ⟨rfl, h, Nat.succ_pos n, Bool.eq_false_iff.mpr hk⟩
    | cons c cs =>
      unfold takeBytes
      split
      · rename_i hD
        subst hD
        split
        · -- some bytes have been read: `^D` stays
          rename_i hlt
          refine ⟨rfl, rfl, ⟨[], rfl, (List.append_nil _).symm⟩, nofun, fun v hv _ => ?_⟩
          cases hv
          refine ⟨.inr ⟨hcount', .before ?_ rfl h.took⟩, ?_, h.not_ctrlD, h.not_newline⟩
          · intro hnil
            rw [hnil, List.length_nil] at hcount
            omega
          · show call.got.length ≤ call.target
            omega
        · -- the first byte of the call: `^D` is taken
          rename_i hlt
          refine ⟨rfl, rfl, ⟨[ctrlD], rfl, rfl⟩, nofun, fun v hv _ => ?_⟩
          cases hv
          have hnil : call.got = [] := List.eq_nil_of_length_eq_zero (by omega)
          have htook : call.took = [] := h.took.trans hnil
          refine ⟨.inr ⟨hcount', .eof hnil ?_⟩, ?_, h.not_ctrlD, h.not_newline⟩
          · show call.took ++ [ctrlD] = [ctrlD]
            rw [htook, List.nil_append]
          · show call.got.length ≤ call.target
            omega
      · rename_i hD
        split
        · rename_i hdst
          refine ⟨rfl, rfl, ⟨[c], rfl, rfl⟩, nofun, fun v hv hall => ?_⟩
          rw [hall] at hdst
          cases hdst
        · dsimp only
          have htook : call.took ++ [c] = call.got ++ [c] := by rw [h.took]
          split
          · rename_i hnl
            refine ⟨rfl, rfl, ⟨[c], rfl, rfl⟩, nofun, fun v hv _ => ?_⟩
            cases hv
            refine ⟨.inr ⟨?_, .line ?_ htook⟩, ?_, ?_, ?_⟩
            · show (call.target : ℤ) - n = ((call.got ++ [c]).length : ℤ)
              rw [List.length_append, List.length_singleton]
              omega
            · show (call.got ++ [c]).getLast? = some newline
              rw [List.getLast?_concat, hnl]
            · show (call.got ++ [c]).length ≤ call.target
              rw [List.length_append, List.length_singleton]
              omega
            · intro d hd
              rcases List.mem_append.mp hd with hd | hd
              · exact h.not_ctrlD d hd
              · rwa [List.mem_singleton.mp hd]
            · intro d hd
              have hd' : d ∈ (call.got ++ [c]).dropLast := hd
              rw [List.dropLast_concat] at hd'
              exact (h.bytes d hd').1
          · -- an ordinary byte: the loop goes on
            rename_i hnl
            have hreading : Reading { call with
                got := call.got ++ [c], took := call.took ++ [c] } n := by
              refine ⟨htook, ?_, fun d hd => ?_⟩
              · show (call.got ++ [c]).length + n = call.target
                rw [List.length_append, List.length_singleton]
                omega
              · rcases List.mem_append.mp hd with hd | hd
                · exact h.bytes d hd
                · rw [List.mem_singleton.mp hd]
                  exact ⟨hnl, hD⟩
            obtain ⟨hd, ht, ⟨bytes, hcs, hbytes⟩, hsleep, hret⟩ := ih hreading
            refine ⟨hd, ht, ⟨c :: bytes, ?_, ?_⟩, hsleep, hret⟩
            · rw [List.cons_append, ← hcs]
            · rw [hbytes, List.append_assoc, List.singleton_append]

end Lines

/-! ## The ring as two lists -/

namespace Cons

/-- The bytes readers can have: from `r` to `w`. -/
def committed (σ : Cons) : List UInt8 := Ring.contents σ.buf σ.r.toNat (σ.w - σ.r).toNat

/-- The bytes that can still be edited: from `w` to `e`. -/
def pending (σ : Cons) : List UInt8 := Ring.contents σ.buf σ.w.toNat (σ.e - σ.w).toNat

def lines (σ : Cons) : Lines := ⟨σ.committed, σ.pending⟩

/-- The indices are in order and at most the capacity apart; a full buffer is committed; and a newline
is committed at once, so that `^U` stops at `w` only. -/
structure Ok (σ : Cons) : Prop where
  order : (σ.w - σ.r).toNat + (σ.e - σ.w).toNat = (σ.e - σ.r).toNat
  room : (σ.e - σ.r).toNat ≤ INPUT_BUF_SIZE
  full : (σ.e - σ.r).toNat = INPUT_BUF_SIZE → σ.w = σ.e
  edit : ∀ c ∈ σ.pending, c ≠ newline

variable {σ : Cons} {c : UInt8}

/-- Cells do not notice that indices wrap: the capacity divides `2 ^ 32`. -/
theorem cell_eq (i j : UInt32) : cell j = Fin.ofNat INPUT_BUF_SIZE (i.toNat + (j - i).toNat) := by
  apply Fin.ext
  have hi := i.toNat_lt
  have hj := j.toNat_lt
  have h : j.toNat = (i.toNat + (j - i).toNat) % 2 ^ 32 := by
    rw [UInt32.toNat_sub]
    omega
  rw [cell, Fin.val_ofNat, Fin.val_ofNat, h, Nat.mod_mod_of_dvd _ (by decide)]

theorem toNat_sub_add_one {i j : UInt32} (h : (j - i).toNat < INPUT_BUF_SIZE) :
    (j + 1 - i).toNat = (j - i).toNat + 1 := by
  have hi := i.toNat_lt
  have hj := j.toNat_lt
  have h' : (j - i).toNat < 128 := h
  rw [UInt32.toNat_sub] at h' ⊢
  rw [UInt32.toNat_sub, UInt32.toNat_add, UInt32.toNat_one]
  omega

theorem toNat_sub_succ {i j : UInt32} (h : i ≠ j) : (j - (i + 1)).toNat + 1 = (j - i).toNat := by
  have hne : i.toNat ≠ j.toNat := fun hc => h (UInt32.toNat_inj.mp hc)
  have hi := i.toNat_lt
  have hj := j.toNat_lt
  rw [UInt32.toNat_sub, UInt32.toNat_sub, UInt32.toNat_add, UInt32.toNat_one]
  omega

theorem length_pending (σ : Cons) : σ.pending.length = (σ.e - σ.w).toNat := Ring.length_contents _ _ _

theorem length_committed (σ : Cons) : σ.committed.length = (σ.w - σ.r).toNat :=
  Ring.length_contents _ _ _

theorem pending_eq_nil_iff : σ.pending = [] ↔ σ.e = σ.w := by
  rw [← List.length_eq_zero_iff, length_pending]
  have he := σ.e.toNat_lt
  have hw := σ.w.toNat_lt
  rw [UInt32.toNat_sub, ← UInt32.toNat_inj]
  omega

theorem committed_eq_nil_iff : σ.committed = [] ↔ σ.r = σ.w := by
  rw [← List.length_eq_zero_iff, length_committed]
  have hr := σ.r.toNat_lt
  have hw := σ.w.toNat_lt
  rw [UInt32.toNat_sub, ← UInt32.toNat_inj]
  omega

/-! ### Editing -/

/-- `cons.e--`. -/
def erase (σ : Cons) : Cons := { σ with e := σ.e - 1 }

theorem pending_eq_concat (h : σ.e ≠ σ.w) :
    σ.pending = σ.erase.pending ++ [σ.buf (cell (σ.e - 1))] := by
  rw [pending, ← toNat_sub_one_sub h, Ring.contents_concat, ← cell_eq]
  rfl

theorem pending_erase (h : σ.e ≠ σ.w) : σ.erase.pending = σ.pending.dropLast := by
  rw [pending_eq_concat h, List.dropLast_concat]

theorem Ok.erase (h : σ.Ok) (hne : σ.e ≠ σ.w) : σ.erase.Ok := by
  have hlast := toNat_sub_one_sub hne
  have her : σ.e ≠ σ.r := by
    intro hc
    have horder := h.order
    rw [hc, UInt32.sub_self, ← hc] at horder
    have : (σ.e - σ.w).toNat = 0 := by
      have h0 : (0 : UInt32).toNat = 0 := rfl
      omega
    rw [← length_pending, List.length_eq_zero_iff, pending_eq_nil_iff] at this
    exact hne this
  have hfirst := toNat_sub_one_sub her
  have horder := h.order
  have hroom := h.room
  constructor
  case order =>
    show (σ.w - σ.r).toNat + (σ.e - 1 - σ.w).toNat = (σ.e - 1 - σ.r).toNat
    omega
  case room =>
    show (σ.e - 1 - σ.r).toNat ≤ INPUT_BUF_SIZE
    omega
  case full =>
    intro hfull
    have hfull' : (σ.e - 1 - σ.r).toNat = INPUT_BUF_SIZE := hfull
    omega
  case edit =>
    rw [pending_erase hne]
    exact fun c hc => h.edit c (List.dropLast_subset _ hc)

/-- `^U` erases all that is pending: there is no newline to stop it earlier. -/
theorem killLine_spec (h : σ.Ok) :
    σ.killLine.Ok ∧ σ.killLine.committed = σ.committed ∧ σ.killLine.pending = [] := by
  induction hn : (σ.e - σ.w).toNat generalizing σ with
  | zero =>
    have hnil : σ.pending = [] := List.eq_nil_of_length_eq_zero (by rw [length_pending, hn])
    rw [killLine, dif_neg fun hc => hc.1 (pending_eq_nil_iff.mp hnil)]
    exact ⟨h, rfl, hnil⟩
  | succ n ih =>
    have hne : σ.e ≠ σ.w := by
      intro hc
      rw [hc, UInt32.sub_self] at hn
      cases hn
    have hlast := toNat_sub_one_sub hne
    have hchar : σ.buf (cell (σ.e - 1)) ≠ newline := by
      apply h.edit
      rw [pending_eq_concat hne]
      exact List.mem_concat_self
    rw [killLine, dif_pos ⟨hne, hchar⟩]
    have hn' : (σ.erase.e - σ.erase.w).toNat = n := by
      show (σ.e - 1 - σ.w).toNat = n
      omega
    exact ih (h.erase hne) hn'

/-! ### Appending -/

/-- `cons.buf[cons.e++ % INPUT_BUF_SIZE] = c`. -/
def push (σ : Cons) (c : UInt8) : Cons :=
  { σ with buf := update σ.buf (cell σ.e) c, e := σ.e + 1 }

section push

variable (h : σ.Ok) (hroom : (σ.e - σ.r).toNat < INPUT_BUF_SIZE)
include h hroom

theorem pending_lt : (σ.e - σ.w).toNat < INPUT_BUF_SIZE := by
  have := h.order
  omega

theorem pending_push : (σ.push c).pending = σ.pending ++ [c] := by
  have hlt := pending_lt h hroom
  show Ring.contents (update σ.buf (cell σ.e) c) σ.w.toNat (σ.e + 1 - σ.w).toNat = _
  rw [toNat_sub_add_one hlt, cell_eq σ.w, Ring.contents_push hlt]
  rfl

theorem committed_push : (σ.push c).committed = σ.committed := by
  have horder := h.order
  show Ring.contents (update σ.buf (cell σ.e) c) σ.r.toNat (σ.w - σ.r).toNat = _
  rw [cell_eq σ.r, Ring.contents_update (by omega) hroom]
  rfl

theorem order_push :
    ((σ.push c).w - (σ.push c).r).toNat + ((σ.push c).e - (σ.push c).w).toNat =
      ((σ.push c).e - (σ.push c).r).toNat := by
  show (σ.w - σ.r).toNat + (σ.e + 1 - σ.w).toNat = (σ.e + 1 - σ.r).toNat
  have horder := h.order
  rw [toNat_sub_add_one (pending_lt h hroom), toNat_sub_add_one hroom]
  omega

theorem Ok.push (hc : c ≠ newline) (hfull : (σ.push c).e - (σ.push c).r ≠ 128) : (σ.push c).Ok := by
  have hdist : ((σ.push c).e - (σ.push c).r).toNat = (σ.e - σ.r).toNat + 1 :=
    toNat_sub_add_one hroom
  constructor
  case order => exact order_push h hroom
  case room =>
    rw [hdist]
    exact hroom
  case full => exact fun hc => absurd (UInt32.toNat_inj.mp hc) hfull
  case edit =>
    rw [pending_push h hroom]
    intro d hd
    rcases List.mem_append.mp hd with hd | hd
    · exact h.edit d hd
    · rwa [List.mem_singleton.mp hd]

end push

/-- `cons.w = cons.e`. -/
def commit (σ : Cons) : Cons := { σ with w := σ.e }

theorem committed_commit
    (horder : (σ.w - σ.r).toNat + (σ.e - σ.w).toNat = (σ.e - σ.r).toNat) :
    σ.commit.committed = σ.committed ++ σ.pending := by
  show Ring.contents σ.buf σ.r.toNat (σ.e - σ.r).toNat = _
  rw [← horder, Ring.contents_add, committed, pending]
  congr 1
  apply Ring.contents_congr
  exact (congrArg Fin.val (cell_eq σ.r σ.w)).symm

theorem pending_commit (σ : Cons) : σ.commit.pending = [] := pending_eq_nil_iff.mpr rfl

theorem Ok.commit (hroom : (σ.e - σ.r).toNat ≤ INPUT_BUF_SIZE) : σ.commit.Ok := by
  constructor
  case order =>
    show (σ.e - σ.r).toNat + (σ.e - σ.e).toNat = (σ.e - σ.r).toNat
    rw [UInt32.sub_self]
    rfl
  case room => exact hroom
  case full => exact fun _ => rfl
  case edit =>
    rw [pending_commit]
    nofun

theorem length_lines (h : σ.Ok) :
    σ.lines.committed.length + σ.lines.pending.length = (σ.e - σ.r).toNat := by
  rw [← h.order, ← length_committed, ← length_pending]
  rfl

/-- An accepted character, on the ring and on the lists. -/
theorem lines_append (h : σ.Ok) (hroom : (σ.e - σ.r).toNat < INPUT_BUF_SIZE) (d : UInt8) :
    let s : Cons × Option (List UInt8) :=
      if d = newline ∨ d = ctrlD ∨ (σ.push d).e - (σ.push d).r = 128 then
        ((σ.push d).commit, some (σ.push d).pending)
      else (σ.push d, none)
    let t : Lines × Option (List UInt8) :=
      if d = newline ∨ d = ctrlD ∨
          σ.lines.committed.length + (σ.lines.pending ++ [d]).length = INPUT_BUF_SIZE then
        (⟨σ.lines.committed ++ (σ.lines.pending ++ [d]), []⟩, some (σ.lines.pending ++ [d]))
      else ({ σ.lines with pending := σ.lines.pending ++ [d] }, none)
    s.1.Ok ∧ s.1.lines = t.1 ∧ s.2 = t.2 := by
  have hdist : ((σ.push d).e - (σ.push d).r).toNat = (σ.e - σ.r).toNat + 1 :=
    toNat_sub_add_one hroom
  have hfull : (σ.push d).e - (σ.push d).r = 128 ↔
      σ.lines.committed.length + (σ.lines.pending ++ [d]).length = INPUT_BUF_SIZE := by
    rw [List.length_append, ← Nat.add_assoc, length_lines h, List.length_singleton, ← hdist,
      ← UInt32.toNat_inj]
    rfl
  have hpush : (σ.push d).pending = σ.lines.pending ++ [d] := pending_push h hroom
  have hcomm : (σ.push d).committed = σ.lines.committed := committed_push h hroom
  simp only [← hfull]
  split
  · refine ⟨Ok.commit ?_, ?_, congrArg some hpush⟩
    · rw [hdist]
      exact hroom
    · show Lines.mk (σ.push d).commit.committed (σ.push d).commit.pending = _
      rw [committed_commit (order_push h hroom), pending_commit, hpush, hcomm]
  · rename_i hcommit
    obtain ⟨hnl, -, hnf⟩ : d ≠ newline ∧ d ≠ ctrlD ∧ (σ.push d).e - (σ.push d).r ≠ 128 := by
      simpa only [not_or] using hcommit
    refine ⟨h.push hroom hnl hnf, ?_, rfl⟩
    show Lines.mk (σ.push d).committed (σ.push d).pending = _
    rw [hpush, hcomm]

/-- **`consoleintr` on the ring is `intr` on the lists.** -/
theorem lines_consoleintr (h : σ.Ok) (c : UInt8) :
    (σ.consoleintr c).1.Ok ∧ (σ.consoleintr c).1.lines = (σ.lines.intr c).1 ∧
      (σ.consoleintr c).2 = (σ.lines.intr c).2 := by
  unfold consoleintr Lines.intr
  split
  · exact ⟨h, rfl, rfl⟩
  · split
    · obtain ⟨hok, hcom, hpend⟩ := killLine_spec h
      refine ⟨hok, ?_, rfl⟩
      show Lines.mk _ _ = Lines.mk _ _
      rw [hcom, hpend]
      rfl
    · split
      · split
        · rename_i hne
          refine ⟨h.erase hne, ?_, rfl⟩
          show Lines.mk σ.committed σ.erase.pending = _
          rw [pending_erase hne]
          rfl
        · rename_i hne
          have hnil : σ.pending = [] := pending_eq_nil_iff.mpr (not_not.mp hne)
          refine ⟨h, ?_, rfl⟩
          show Lines.mk σ.committed σ.pending = Lines.mk σ.committed σ.pending.dropLast
          rw [hnil]
          rfl
      · have hiff : σ.e - σ.r < 128 ↔
            σ.lines.committed.length + σ.lines.pending.length < INPUT_BUF_SIZE := by
          rw [length_lines h]
          exact UInt32.lt_iff_toNat_lt
        by_cases hacc : c ≠ 0 ∧ σ.e - σ.r < 128
        · have hacc' : c ≠ 0 ∧
              σ.lines.committed.length + σ.lines.pending.length < INPUT_BUF_SIZE :=
            ⟨hacc.1, hiff.mp hacc.2⟩
          rw [if_pos hacc, if_pos hacc']
          exact lines_append h (UInt32.lt_iff_toNat_lt.mp hacc.2) _
        · rw [if_neg hacc, if_neg (by rwa [← hiff])]
          exact ⟨h, rfl, rfl⟩

/-! ### Reading -/

/-- The ring after `cons.r++`. -/
def next (σ : Cons) : Cons := { σ with r := σ.r + 1 }

theorem committed_eq_cons (h : σ.r ≠ σ.w) :
    σ.committed = σ.buf (cell σ.r) :: σ.next.committed := by
  rw [committed, ← toNat_sub_succ h, Ring.contents_succ]
  congr 1
  show _ = Ring.contents σ.buf (σ.r + 1).toNat (σ.w - (σ.r + 1)).toNat
  apply Ring.contents_congr
  rw [UInt32.toNat_add, UInt32.toNat_one, Nat.mod_mod_of_dvd _ (by decide)]

theorem Ok.next (h : σ.Ok) (hne : σ.r ≠ σ.w) : σ.next.Ok := by
  have hw := toNat_sub_succ hne
  have horder := h.order
  have hroom := h.room
  have her : σ.r ≠ σ.e := by
    intro hc
    rw [hc, UInt32.sub_self, ← hc] at horder
    have h0 : (0 : UInt32).toNat = 0 := rfl
    omega
  have he := toNat_sub_succ her
  constructor
  case order =>
    show (σ.w - (σ.r + 1)).toNat + (σ.e - σ.w).toNat = (σ.e - (σ.r + 1)).toNat
    omega
  case room =>
    show (σ.e - (σ.r + 1)).toNat ≤ INPUT_BUF_SIZE
    omega
  case full =>
    intro hc
    have hc' : (σ.e - (σ.r + 1)).toNat = INPUT_BUF_SIZE := hc
    omega
  case edit => exact h.edit

/-- **The loop of `consoleread` on the ring is `takeBytes` on the committed bytes.** -/
theorem lines_readLoop (h : σ.Ok) (killed : Bool) (n : ℕ) (call : ReadCall) :
    (readLoop killed n call σ).1.Ok ∧
      (readLoop killed n call σ).1.lines = (Lines.read killed n call σ.lines).1 ∧
      (readLoop killed n call σ).2 = (Lines.read killed n call σ.lines).2 := by
  induction n generalizing call σ with
  | zero => exact ⟨h, rfl, rfl⟩
  | succ n ih =>
    unfold readLoop Lines.read
    by_cases hne : σ.r = σ.w
    · have hnil : σ.lines.committed = [] := committed_eq_nil_iff.mpr hne
      rw [if_pos hne, hnil, Lines.takeBytes]
      split <;> exact ⟨h, by rw [← hnil], rfl⟩
    · have hcons : σ.lines.committed = σ.buf (cell σ.r) :: σ.next.lines.committed :=
        committed_eq_cons hne
      rw [if_neg hne, hcons, Lines.takeBytes]
      dsimp only
      split
      · split
        · -- `r` is moved back
          have hback : ({ σ.next with r := σ.next.r - 1 } : Cons) = σ := by
            show ({ σ with r := σ.r + 1 - 1 } : Cons) = σ
            rw [UInt32.add_sub_cancel]
          refine ⟨?_, ?_, rfl⟩
          · exact (congrArg Ok hback).mpr h
          · rw [← hcons]
            exact congrArg lines hback
        · exact ⟨h.next hne, rfl, rfl⟩
      · split
        · exact ⟨h.next hne, rfl, rfl⟩
        · split
          · exact ⟨h.next hne, rfl, rfl⟩
          · exact ih (h.next hne) _

end Cons

/-! ## Runs -/

namespace Console

variable {P S S' : Type*} [DecidableEq P]

/-- The same console with another representation of its input. -/
def mapCons (f : S → S') (σ : Console P S) : Console P S' :=
  ⟨f σ.cons, σ.pc, σ.killed, σ.typed, σ.taken, σ.returned⟩

/-- Operations that agree under `f` give steps that agree. -/
theorem stepWith_mapCons {f : S → S'} {I : S → Prop}
    {intr : S → UInt8 → S × Option (List UInt8)} {intr' : S' → UInt8 → S' × Option (List UInt8)}
    {read : Bool → ℕ → ReadCall → S → S × ReadCall × ReadEnd}
    {read' : Bool → ℕ → ReadCall → S' → S' × ReadCall × ReadEnd}
    (hintr : ∀ s c, I s →
      I (intr s c).1 ∧ f (intr s c).1 = (intr' (f s) c).1 ∧ (intr s c).2 = (intr' (f s) c).2)
    (hread : ∀ s k n call, I s → I (read k n call s).1 ∧
      f (read k n call s).1 = (read' k n call (f s)).1 ∧ (read k n call s).2 = (read' k n call (f s)).2)
    {σ τ : Console P S} {a : ConsoleAction P} (hok : I σ.cons)
    (hstep : stepWith intr read σ a = some τ) :
    I τ.cons ∧ stepWith intr' read' (σ.mapCons f) a = some (τ.mapCons f) := by
  cases a with
  | intr c =>
    obtain ⟨hok', hs, hb⟩ := hintr σ.cons c hok
    have heq : intr' (f σ.cons) c = (f (intr σ.cons c).1, (intr σ.cons c).2) := by
      rw [hs, hb]
    unfold stepWith at hstep ⊢
    dsimp only [mapCons] at hstep ⊢
    rw [heq]
    split at hstep <;> rename_i s _ hi <;> rw [hi] at hok' ⊢ <;>
      obtain rfl := Option.some.inj hstep <;> exact ⟨hok', rfl⟩
  | read p n dst =>
    unfold stepWith at hstep ⊢
    dsimp only [mapCons] at hstep ⊢
    split at hstep
    · cases hstep
      exact ⟨hok, rfl⟩
    · cases hstep
  | go p =>
    unfold stepWith at hstep ⊢
    dsimp only [mapCons] at hstep ⊢
    split at hstep
    · rename_i call n _
      obtain ⟨hok', hs, hb⟩ := hread σ.cons (σ.killed p) n call hok
      have heq : read' (σ.killed p) n call (f σ.cons) =
          (f (read (σ.killed p) n call σ.cons).1, (read (σ.killed p) n call σ.cons).2) := by
        rw [hs, hb]
      rw [heq]
      generalize read (σ.killed p) n call σ.cons = res at hstep hok'
      obtain ⟨s, call', fin⟩ := res
      cases fin <;> obtain rfl := Option.some.inj hstep <;> exact ⟨hok', rfl⟩
    · cases hstep
  | kill p =>
    cases hstep
    exact ⟨hok, rfl⟩

/-- One step of the console with two lists. -/
def lineStep : Console P Lines → ConsoleAction P → Option (Console P Lines) :=
  stepWith Lines.intr Lines.read

/-- What holds of the console with two lists. -/
structure Sound (σ : Console P Lines) : Prop where
  acquire : ∀ p call n, σ.pc p = .acquire call n → Lines.Reading call n
  /-- Nobody sleeps while there is something to read. -/
  asleep : ∀ p call n, σ.pc p = .asleep call n → Lines.Reading call n ∧ σ.cons.committed = []
  /-- No byte is lost, duplicated or taken out of order. -/
  history : σ.typed = σ.taken.map Prod.snd ++ σ.cons.committed
  /-- Each reader has taken what its calls have taken. -/
  readers : ∀ p, (σ.taken.filter fun x => x.1 = p).map Prod.snd =
    ((σ.returned.filter fun x => x.who = p).map fun x => x.call.took).flatten ++ (σ.pc p).took

variable {σ τ : Console P Lines} {p : P}

@[simp] theorem took_wake (pc : ConsolePc) : pc.wake.took = pc.took := by
  cases pc <;> rfl

theorem wake_ne_asleep (pc : ConsolePc) (call : ReadCall) (n : ℕ) : pc.wake ≠ .asleep call n := by
  cases pc <;> nofun

theorem Sound.wake_acquire (h : σ.Sound) {q : P} {call : ReadCall} {n : ℕ}
    (hq : (σ.pc q).wake = .acquire call n) : Lines.Reading call n := by
  cases hpc : σ.pc q with
  | idle =>
    rw [hpc] at hq
    cases hq
  | acquire call' n' =>
    rw [hpc] at hq
    cases hq
    exact h.acquire q _ _ hpc
  | asleep call' n' =>
    rw [hpc] at hq
    cases hq
    exact (h.asleep q _ _ hpc).1

/-- A step that moves one process. -/
theorem Sound.place {c : ConsolePc} (h : σ.Sound) (hpc : τ.pc = update σ.pc p c)
    (hnil : σ.cons.committed = [] → τ.cons.committed = [])
    (hacquire : ∀ call n, c = .acquire call n → Lines.Reading call n)
    (hasleep : ∀ call n, c = .asleep call n → Lines.Reading call n ∧ τ.cons.committed = [])
    (history : τ.typed = τ.taken.map Prod.snd ++ τ.cons.committed)
    (readers : ∀ p, (τ.taken.filter fun x => x.1 = p).map Prod.snd =
      ((τ.returned.filter fun x => x.who = p).map fun x => x.call.took).flatten ++ (τ.pc p).took) :
    τ.Sound := by
  refine ⟨fun q call n hq => ?_, fun q call n hq => ?_, history, readers⟩ <;> rw [hpc] at hq <;>
    rcases eq_or_ne q p with rfl | hne
  · rw [update_self] at hq
    exact hacquire call n hq
  · rw [update_of_ne hne] at hq
    exact h.acquire q call n hq
  · rw [update_self] at hq
    exact hasleep call n hq
  · rw [update_of_ne hne] at hq
    exact ⟨(h.asleep q call n hq).1, hnil (h.asleep q call n hq).2⟩

/-- A character commits what it says, or nothing. -/
theorem committed_intr (s : Lines) (c : UInt8) :
    (s.intr c).1.committed = s.committed ++ (s.intr c).2.getD [] := by
  unfold Lines.intr
  dsimp only
  split_ifs <;> simp

theorem Sound.intr (h : σ.Sound) {c : UInt8} (hstep : lineStep σ (.intr c) = some τ) : τ.Sound := by
  have hcomm := committed_intr σ.cons c
  unfold lineStep stepWith at hstep
  dsimp only at hstep
  split at hstep
  · rename_i s hi
    rw [hi] at hcomm
    cases hstep
    have hcomm' : s.committed = σ.cons.committed := by simpa using hcomm
    exact ⟨h.acquire, fun q call n hq => ⟨(h.asleep q call n hq).1,
      hcomm'.trans (h.asleep q call n hq).2⟩, by rw [hcomm']; exact h.history, h.readers⟩
  · rename_i s bytes hi
    rw [hi] at hcomm
    cases hstep
    have hcomm' : s.committed = σ.cons.committed ++ bytes := hcomm
    constructor
    case acquire => exact fun q call n hq => h.wake_acquire hq
    case asleep => exact fun q call n hq => absurd hq (wake_ne_asleep _ _ _)
    case history =>
      show σ.typed ++ bytes = σ.taken.map Prod.snd ++ s.committed
      rw [hcomm', ← List.append_assoc, ← h.history]
    case readers =>
      intro q
      show _ = _ ++ ((σ.pc q).wake).took
      rw [took_wake]
      exact h.readers q

/-- What a stretch of `consoleread` does with the lists. -/
theorem go_spec (h : σ.Sound) (hstep : lineStep σ (.go p) = some τ) :
    ∃ call n call' fin, σ.pc p = .acquire call n ∧
      Lines.Took (σ.killed p) call σ.cons.committed τ.cons.committed call' fin ∧
      τ.cons.pending = σ.cons.pending ∧ τ.typed = σ.typed ∧
      τ.taken = σ.taken ++ (call'.took.drop call.took.length).map (fun c => (p, c)) ∧
      ((∃ m, fin = .sleep m ∧ τ.pc = update σ.pc p (.asleep call' m) ∧
          τ.returned = σ.returned) ∨
        ∃ v, fin = .ret v ∧ τ.pc = update σ.pc p .idle ∧
          τ.returned = σ.returned ++ [⟨p, call', v⟩]) := by
  unfold lineStep stepWith at hstep
  dsimp only at hstep
  split at hstep
  · rename_i call n hpc
    have htook : Lines.Took (σ.killed p) call σ.cons.committed
        (Lines.read (σ.killed p) n call σ.cons).1.committed
        (Lines.read (σ.killed p) n call σ.cons).2.1 (Lines.read (σ.killed p) n call σ.cons).2.2 :=
      Lines.takeBytes_took (h.acquire p call n hpc)
    have hpend : (Lines.read (σ.killed p) n call σ.cons).1.pending = σ.cons.pending := rfl
    generalize Lines.read (σ.killed p) n call σ.cons = res at hstep htook hpend
    obtain ⟨s, call', fin⟩ := res
    refine ⟨call, n, call', fin, hpc, ?_⟩
    cases fin with
    | sleep m =>
      cases hstep
      exact ⟨htook, hpend, rfl, rfl, .inl ⟨m, rfl, rfl, rfl⟩⟩
    | ret v =>
      cases hstep
      exact ⟨htook, hpend, rfl, rfl, .inr ⟨v, rfl, rfl, rfl⟩⟩
  · cases hstep

theorem Sound.go (h : σ.Sound) (hstep : lineStep σ (.go p) = some τ) : τ.Sound := by
  obtain ⟨call, n, call', fin, hpc, htook, -, htyped, htaken, hend⟩ := go_spec h hstep
  obtain ⟨bytes, hbytes, htook'⟩ := htook.took
  have hdrop : call'.took.drop call.took.length = bytes := by
    rw [htook', List.drop_left]
  rw [hdrop] at htaken
  have hreader := h.readers p
  rw [hpc] at hreader
  have hbefore : (σ.pc p).took ++ bytes = call'.took := by
    rw [hpc, htook']
    rfl
  have hothers : ∀ q, q ≠ p → (τ.taken.filter fun x => x.1 = q) = σ.taken.filter fun x => x.1 = q := by
    intro q hq
    have hnone : (bytes.map fun c => (p, c)).filter (fun x => x.1 = q) = [] := by
      rw [List.filter_eq_nil_iff]
      intro x hx
      obtain ⟨c, -, rfl⟩ := List.mem_map.mp hx
      simpa using hq.symm
    rw [htaken, List.filter_append, hnone, List.append_nil]
  have hself : (τ.taken.filter fun x => x.1 = p).map Prod.snd =
      (σ.taken.filter fun x => x.1 = p).map Prod.snd ++ bytes := by
    have hall : (bytes.map fun c => (p, c)).filter (fun x => x.1 = p) = bytes.map fun c => (p, c) := by
      rw [List.filter_eq_self]
      intro x hx
      obtain ⟨c, -, rfl⟩ := List.mem_map.mp hx
      simp
    rw [htaken, List.filter_append, List.map_append, hall, List.map_map]
    simp [comp_def]
  -- an earlier sleeper found nothing to read, and still does
  have hnil : σ.cons.committed = [] → τ.cons.committed = [] := by
    intro hc
    rw [hc] at hbytes
    exact (List.append_eq_nil_iff.mp hbytes.symm).2
  have hhistory : τ.typed = τ.taken.map Prod.snd ++ τ.cons.committed := by
    rw [htyped, h.history, hbytes, htaken, List.map_append, List.map_map, List.append_assoc]
    simp [comp_def]
  rcases hend with ⟨m, rfl, hpc', hret⟩ | ⟨v, rfl, hpc', hret⟩
  · refine h.place hpc' hnil nofun (fun call₁ n₁ hc => ?_) hhistory fun q => ?_
    · cases hc
      obtain ⟨hcomm, hreading, -⟩ := htook.asleep m rfl
      exact ⟨hreading, hcomm⟩
    · rw [hret, hpc']
      rcases eq_or_ne q p with rfl | hne
      · rw [update_self, hself, h.readers q, List.append_assoc, hbefore]
        rfl
      · rw [update_of_ne hne, hothers q hne]
        exact h.readers q
  · refine h.place hpc' hnil nofun nofun hhistory fun q => ?_
    rw [hret, hpc', List.filter_append]
    rcases eq_or_ne q p with rfl | hne
    · rw [update_self, hself, h.readers q, List.append_assoc, hbefore]
      simp [ConsolePc.took]
    · rw [update_of_ne hne, hothers q hne, h.readers q]
      simp [hne.symm]

theorem Sound.step (h : σ.Sound) {a : ConsoleAction P} (hstep : lineStep σ a = some τ) : τ.Sound := by
  cases a with
  | intr c => exact h.intr hstep
  | go p => exact h.go hstep
  | read p n dst =>
    unfold lineStep stepWith at hstep
    dsimp only at hstep
    split at hstep
    · rename_i hpc
      cases hstep
      apply h.place
      case hpc => rfl
      case hnil => exact id
      case hacquire =>
        intro call m hc
        cases hc
        exact ⟨rfl, Nat.zero_add _, nofun⟩
      case hasleep => exact fun _ _ hc => ConsolePc.noConfusion hc
      case history => exact h.history
      case readers =>
        intro q
        rcases eq_or_ne q p with rfl | hne
        · dsimp only
          rw [update_self, h.readers q, hpc]
          rfl
        · dsimp only
          rw [update_of_ne hne]
          exact h.readers q
    · cases hstep
  | kill p =>
    cases hstep
    apply h.place
    case hpc => rfl
    case hnil => exact id
    case hacquire => exact fun call n hc => h.wake_acquire hc
    case hasleep => exact fun call n hc => absurd hc (wake_ne_asleep _ _ _)
    case history => exact h.history
    case readers =>
      intro q
      rcases eq_or_ne q p with rfl | hne
      · dsimp only
        rw [update_self, took_wake]
        exact h.readers q
      · dsimp only
        rw [update_of_ne hne]
        exact h.readers q

/-- The console with two lists before the first character. -/
def lineBoot : Console P Lines := ⟨⟨[], []⟩, fun _ => .idle, fun _ => false, [], [], []⟩

theorem lineBoot_sound : (lineBoot : Console P Lines).Sound := by
  constructor
  case acquire => nofun
  case asleep => nofun
  case history => rfl
  case readers => exact fun _ => rfl

omit [DecidableEq P] in
theorem boot_ok (buf : Fin INPUT_BUF_SIZE → UInt8) : (boot buf : Console P Cons).cons.Ok := by
  have hzero : ((0 : UInt32) - 0).toNat = 0 := by decide
  have hnil : (boot buf : Console P Cons).cons.pending = [] := Cons.pending_eq_nil_iff.mpr rfl
  constructor
  case order =>
    show ((0 : UInt32) - 0).toNat + ((0 : UInt32) - 0).toNat = ((0 : UInt32) - 0).toNat
    rw [hzero]
  case room =>
    show ((0 : UInt32) - 0).toNat ≤ INPUT_BUF_SIZE
    rw [hzero]
    exact Nat.zero_le _
  case full => exact fun _ => rfl
  case edit =>
    rw [hnil]
    nofun

omit [DecidableEq P] in
theorem boot_lines (buf : Fin INPUT_BUF_SIZE → UInt8) :
    (boot buf : Console P Cons).mapCons Cons.lines = lineBoot := by
  have hcomm : (⟨buf, 0, 0, 0⟩ : Cons).committed = [] := Cons.committed_eq_nil_iff.mpr rfl
  have hpend : (⟨buf, 0, 0, 0⟩ : Cons).pending = [] := Cons.pending_eq_nil_iff.mpr rfl
  rw [mapCons, boot, Cons.lines, hcomm, hpend, lineBoot]

/-- **The line discipline of the console.** In every run the indices are in order and at most the
capacity apart, and a full buffer is committed; the ring does what two lists do; the bytes made
available are those taken, in order, followed by those still committed, and what a process took is what
its calls took; a reader sleeps only if nothing is committed; and a call returns after a newline, before
a `^D` that is not its first byte, at a `^D` that is, or after as many bytes as were asked for. -/
theorem line_discipline {buf : Fin INPUT_BUF_SIZE → UInt8} {as : List (ConsoleAction P)}
    {σ : Console P Cons} (hrun : runFrom step (boot buf) as = some σ) :
    ((σ.cons.w - σ.cons.r).toNat ≤ (σ.cons.e - σ.cons.r).toNat ∧
      (σ.cons.e - σ.cons.r).toNat ≤ INPUT_BUF_SIZE ∧
      ((σ.cons.e - σ.cons.r).toNat = INPUT_BUF_SIZE → σ.cons.w = σ.cons.e)) ∧
    runFrom lineStep lineBoot as = some (σ.mapCons Cons.lines) ∧
    σ.typed = σ.taken.map Prod.snd ++ σ.cons.committed ∧
    (∀ p, (σ.taken.filter fun x => x.1 = p).map Prod.snd =
      ((σ.returned.filter fun x => x.who = p).map fun x => x.call.took).flatten ++ (σ.pc p).took) ∧
    (∀ p call n, σ.pc p = .asleep call n → σ.cons.committed = []) ∧
    ∀ p τ, step σ (.go p) = some τ →
      ∃ call n call' bytes, σ.pc p = .acquire call n ∧ call'.target = call.target ∧
        σ.cons.committed = bytes ++ τ.cons.committed ∧ call'.took = call.took ++ bytes ∧
        τ.cons.pending = σ.cons.pending ∧
        ((∃ m, τ.pc p = .asleep call' m ∧ call'.took = call'.got ∧ τ.cons.committed = []) ∨
          ∃ v : ℤ, τ.pc p = .idle ∧ τ.returned = σ.returned ++ [⟨p, call', v⟩] ∧
            ((∀ i, call.dst i = true) →
              (v = -1 ∧ σ.killed p = true ∧ call'.took = call'.got ∨
                v = call'.got.length ∧ Lines.Stops call' τ.cons.committed) ∧
              call'.got.length ≤ call'.target ∧ (∀ c ∈ call'.got, c ≠ ctrlD) ∧
              ∀ c ∈ call'.got.dropLast, c ≠ newline)) := by
  have hsim : ∀ (s : Console P Cons) a t, s.cons.Ok → step s a = some t →
      t.cons.Ok ∧ lineStep (s.mapCons Cons.lines) a = some (t.mapCons Cons.lines) :=
    fun s a t hok hs => stepWith_mapCons (I := Cons.Ok) (fun _ c h => Cons.lines_consoleintr h c)
      (fun _ k n call h => Cons.lines_readLoop h k n call) hok hs
  have hok : σ.cons.Ok :=
    runFrom_invariant (I := fun s : Console P Cons => s.cons.Ok)
      (fun s a t hs hst => (hsim s a t hs hst).1) (boot_ok buf) hrun
  have hlines : runFrom lineStep lineBoot as = some (σ.mapCons Cons.lines) := by
    rw [← boot_lines buf]
    exact runFrom_map (I := fun s : Console P Cons => s.cons.Ok)
      (fun s a t hs hst => (hsim s a t hs hst).1) (fun s a t hs hst => (hsim s a t hs hst).2)
      (boot_ok buf) hrun
  have hsound : (σ.mapCons Cons.lines).Sound :=
    runFrom_invariant (I := Sound) (fun s a t hs hst => hs.step hst) lineBoot_sound hlines
  refine ⟨⟨?_, hok.room, hok.full⟩, hlines, hsound.history, hsound.readers,
    fun p call n hp => (hsound.asleep p call n hp).2, fun p τ hstep => ?_⟩
  · have := hok.order
    omega
  · obtain ⟨call, n, call', fin, hpc, htook, hpend, -, -, hend⟩ :=
      go_spec hsound (hsim σ (.go p) τ hok hstep).2
    obtain ⟨bytes, hbytes, htook'⟩ := htook.took
    refine ⟨call, n, call', bytes, hpc, htook.target, hbytes, htook', hpend, ?_⟩
    rcases hend with ⟨m, rfl, hpc', hret⟩ | ⟨v, rfl, hpc', hret⟩
    · obtain ⟨hnil, hreading, -⟩ := htook.asleep m rfl
      exact .inl ⟨m, (congrFun hpc' p).trans (update_self ..), hreading.took, hnil⟩
    · exact .inr ⟨v, (congrFun hpc' p).trans (update_self ..), hret, htook.ret v rfl⟩

/-- Two readers: one asks for five bytes, one for one. `ab`, a backspace, `c` and a newline are typed;
the first reader gets the line `ac`. -/
theorem line_discipline_backspace :
    ∃ σ : Console (Fin 2) Cons,
      runFrom step (boot fun _ => 0)
        [.read 0 5 fun _ => true, .go 0, .read 1 1 fun _ => true, .intr 97, .intr 98, .intr 127,
          .intr 99, .intr 13, .go 0] = some σ ∧
      σ.taken.map Prod.snd = [97, 99, 10] ∧ σ.typed = [97, 99, 10] ++ σ.cons.committed := by
  have hrun : ((runFrom step (boot fun _ => 0)
      [.read (0 : Fin 2) 5 fun _ => true, .go 0, .read 1 1 fun _ => true, .intr 97, .intr 98, .intr 127,
        .intr 99, .intr 13, .go 0]).any fun σ => decide (σ.taken.map Prod.snd = [97, 99, 10])) =
      true := by
    decide +kernel
  obtain ⟨σ, hσ, hd⟩ := (Option.any_eq_true _ _).mp hrun
  have htaken := of_decide_eq_true hd
  have htyped := (line_discipline hσ).2.2.1
  rw [htaken] at htyped
  exact ⟨σ, hσ, htaken, htyped⟩

end Console

end Xv6
