import Xv6.Lib.Run
import Xv6.Lib.Tokens
import Xv6.Fs.Itable

/-! # The inode table under concurrency

`kernel/fs.c` between the locks: a step is a stretch of `iget`, `idup`, `ilock`, `iunlock`, `iput`,
`ialloc` or `iupdate` under `itable.lock`, under the sleep-lock of an inode or, in `ialloc`, under that of
the block of inodes. Where `iput` frees an inode it releases `itable.lock`, and other processes go on
between its steps. Processes use references they own, and a process that holds the sleep-lock of an
inode keeps a reference to it; a reference may be handed to another process, as `fork` does with the
current directory and processes do that take turns with an open file. -/

namespace Xv6

open Function

/-- Where a process is in the inode layer. -/
inductive InodePc
  /-- Between calls. -/
  | idle
  /-- In `ilock`: `acquiresleep` has returned. -/
  | locking (ip : Fin NINODE)
  /-- In `iput`: `acquiresleep` has returned and `itable.lock` is released. -/
  | freeing (ip : Fin NINODE)
  /-- In `iput` after `itrunc`. -/
  | truncated (ip : Fin NINODE)
  /-- In `iput` after `ip->type = 0` and `iupdate`. -/
  | freed (ip : Fin NINODE)
  /-- In `iput` after `releasesleep`. -/
  | dropping (ip : Fin NINODE)
  /-- At `panic("ilock: no type")`, with the sleep-lock. -/
  | noType (ip : Fin NINODE)
  /-- At `panic("iget: no inodes")`. -/
  | noInodes
  deriving DecidableEq

/-- The inode whose sleep-lock the process holds for the call it is in. -/
def InodePc.locked : InodePc → Option (Fin NINODE)
  | locking ip | freeing ip | truncated ip | freed ip | noType ip => some ip
  | idle | dropping _ | noInodes => none

/-- An entry of the inode table. `lock` is the process that holds the sleep-lock, and `dirty` says that
it has changed the valid copy since it last called `iupdate`. -/
structure InodeEntry (P : Type*) where
  dev : ℕ
  inum : ℕ
  ref : ℕ
  valid : Bool
  lock : Option P
  dirty : Bool
  copy : Dinode

/-- The inode table, the inodes on disk by device and number, the references each process owns, and
where the processes are. -/
structure InodeTable (P : Type*) where
  entry : Fin NINODE → InodeEntry P
  dinode : ℕ × ℕ → Dinode
  own : P → Fin NINODE → ℕ
  pc : P → InodePc

/-- What a process does next. -/
inductive InodeAction (P : Type*)
  | iget (p : P) (dev inum : ℕ)
  | idup (p : P) (ip : Fin NINODE)
  /-- Process `p` hands a reference to process `q`. -/
  | pass (p q : P) (ip : Fin NINODE)
  /-- `ilock` up to the return of `acquiresleep`. -/
  | ilock (p : P) (ip : Fin NINODE)
  /-- The rest of `ilock`. -/
  | readInode (p : P)
  /-- The process changes the copy; the type stays. -/
  | modify (p : P) (ip : Fin NINODE) (d : Dinode)
  | iupdate (p : P) (ip : Fin NINODE)
  | iunlock (p : P) (ip : Fin NINODE)
  /-- `iput` up to its first release of `itable.lock`. -/
  | iput (p : P) (ip : Fin NINODE)
  /-- The next stretch of an `iput` that frees the inode. -/
  | iputNext (p : P)
  /-- `ialloc` finds inode `inum` free and marks it. Its call of `iget` is a step of its own. -/
  | ialloc (p : P) (dev inum : ℕ) (type : Int16)

namespace InodeEntry

variable {P : Type*}

/-- The key of the inode on disk. -/
def key (e : InodeEntry P) : ℕ × ℕ := (e.dev, e.inum)

/-- The test in `iput`. -/
def Unused (e : InodeEntry P) : Prop := e.ref = 1 ∧ e.valid = true ∧ e.copy.nlink = 0

instance (e : InodeEntry P) : Decidable e.Unused := inferInstanceAs (Decidable (_ ∧ _ ∧ _))

end InodeEntry

namespace InodeTable

variable {P : Type*} [DecidableEq P]

/-- `iinit`: nothing is in use. -/
def init (dinode : ℕ × ℕ → Dinode) : InodeTable P where
  entry := fun _ => ⟨0, 0, 0, false, none, false, ⟨0, 0, 0, 0, 0, fun _ => 0⟩⟩
  dinode := dinode
  own := fun _ _ => 0
  pc := fun _ => .idle

/-- The process may give up a reference: it owns one, and another one if it holds the sleep-lock. -/
def Spare (σ : InodeTable P) (p : P) (ip : Fin NINODE) : Prop :=
  0 < σ.own p ip ∧ ((σ.entry ip).lock = some p → 1 < σ.own p ip)

instance (σ : InodeTable P) (p : P) (ip : Fin NINODE) : Decidable (σ.Spare p ip) :=
  inferInstanceAs (Decidable (_ ∧ _))

/-- `iget`. -/
def iget (σ : InodeTable P) (p : P) (dev inum : ℕ) : InodeTable P :=
  -- is the inode already in the table?
  match (List.finRange NINODE).find? fun ip =>
      0 < (σ.entry ip).ref ∧ (σ.entry ip).dev = dev ∧ (σ.entry ip).inum = inum with
  | some ip => { σ with
      entry := update σ.entry ip { σ.entry ip with ref := (σ.entry ip).ref + 1 }
      own := Tokens.gain σ.own p ip }
  | none =>
    -- recycle an entry
    match (List.finRange NINODE).find? fun ip => (σ.entry ip).ref = 0 with
    | some ip => { σ with
        entry := update σ.entry ip
          { σ.entry ip with dev := dev, inum := inum, ref := 1, valid := false }
        own := Tokens.gain σ.own p ip }
    | none => { σ with pc := update σ.pc p .noInodes }

/-- `ilock` after `acquiresleep`: read the inode if that has not been done. -/
def readInode (σ : InodeTable P) (p : P) (ip : Fin NINODE) : InodeTable P :=
  if (σ.entry ip).valid then { σ with pc := update σ.pc p .idle }
  else
    let d := σ.dinode (σ.entry ip).key
    { σ with
      entry := update σ.entry ip { σ.entry ip with copy := d, valid := true, dirty := false }
      pc := update σ.pc p (if d.type = 0 then .noType ip else .idle) }

/-- `iput` up to its first release of `itable.lock`; it goes no further while `acquiresleep` waits. -/
def iput (σ : InodeTable P) (p : P) (ip : Fin NINODE) : Option (InodeTable P) :=
  if (σ.entry ip).Unused then
    if (σ.entry ip).lock = none then
      some { σ with
        entry := update σ.entry ip { σ.entry ip with lock := some p }
        pc := update σ.pc p (.freeing ip) }
    else none
  else some { σ with
    entry := update σ.entry ip { σ.entry ip with ref := (σ.entry ip).ref - 1 }
    own := Tokens.lose σ.own p ip }

/-- The stretches of an `iput` that frees the inode. -/
def iputNext (σ : InodeTable P) (p : P) : Option (InodeTable P) :=
  match σ.pc p with
  | .freeing ip =>
    -- itrunc(ip)
    let d := (σ.entry ip).copy.emptied
    some { σ with
      entry := update σ.entry ip { σ.entry ip with copy := d }
      dinode := update σ.dinode (σ.entry ip).key d
      pc := update σ.pc p (.truncated ip) }
  | .truncated ip =>
    -- ip->type = 0; iupdate(ip)
    let d := { (σ.entry ip).copy with type := 0 }
    some { σ with
      entry := update σ.entry ip { σ.entry ip with copy := d }
      dinode := update σ.dinode (σ.entry ip).key d
      pc := update σ.pc p (.freed ip) }
  | .freed ip =>
    -- ip->valid = 0; releasesleep(&ip->lock)
    some { σ with
      entry := update σ.entry ip
        { σ.entry ip with valid := false, dirty := false, lock := none }
      pc := update σ.pc p (.dropping ip) }
  | .dropping ip =>
    -- ip->ref--
    some { σ with
      entry := update σ.entry ip { σ.entry ip with ref := (σ.entry ip).ref - 1 }
      own := Tokens.lose σ.own p ip
      pc := update σ.pc p .idle }
  | _ => none

/-- The steps. Those that begin a call are for a process between calls. -/
def step (σ : InodeTable P) : InodeAction P → Option (InodeTable P)
  | .iget p dev inum => if σ.pc p = .idle then some (σ.iget p dev inum) else none
  | .idup p ip =>
    if σ.pc p = .idle ∧ 0 < σ.own p ip then some { σ with
      entry := update σ.entry ip { σ.entry ip with ref := (σ.entry ip).ref + 1 }
      own := Tokens.gain σ.own p ip }
    else none
  | .pass p q ip =>
    if σ.pc p = .idle ∧ σ.Spare p ip then some { σ with own := Tokens.gain (Tokens.lose σ.own p ip) q ip } else none
  | .ilock p ip =>
    if σ.pc p = .idle ∧ 0 < σ.own p ip ∧ (σ.entry ip).lock = none then some { σ with
      entry := update σ.entry ip { σ.entry ip with lock := some p }
      pc := update σ.pc p (.locking ip) }
    else none
  | .readInode p =>
    match σ.pc p with
    | .locking ip => some (σ.readInode p ip)
    | _ => none
  | .modify p ip d =>
    if σ.pc p = .idle ∧ (σ.entry ip).lock = some p ∧ d.type = (σ.entry ip).copy.type then some { σ with
      entry := update σ.entry ip { σ.entry ip with copy := d, dirty := true } }
    else none
  | .iupdate p ip =>
    if σ.pc p = .idle ∧ (σ.entry ip).lock = some p then some { σ with
      entry := update σ.entry ip { σ.entry ip with dirty := false }
      dinode := update σ.dinode (σ.entry ip).key (σ.entry ip).copy }
    else none
  | .iunlock p ip =>
    if σ.pc p = .idle ∧ (σ.entry ip).lock = some p ∧ (σ.entry ip).dirty = false then some { σ with
      entry := update σ.entry ip { σ.entry ip with lock := none } }
    else none
  | .iput p ip => if σ.pc p = .idle ∧ σ.Spare p ip then σ.iput p ip else none
  | .iputNext p => σ.iputNext p
  | .ialloc p dev inum type =>
    if σ.pc p = .idle ∧ (σ.dinode (dev, inum)).type = 0 ∧ type ≠ 0 then some { σ with
      dinode := update σ.dinode (dev, inum) ⟨type, 0, 0, 0, 0, fun _ => 0⟩ }
    else none

end InodeTable

end Xv6
