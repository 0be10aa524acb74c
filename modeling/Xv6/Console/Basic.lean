import Xv6.Lib.Run
import Xv6.Lib.Ring

/-! # The console

`consoleread` and `consoleintr` of `kernel/console.c`, with any processes `P` as readers. All of
`cons` is accessed under `cons.lock`, so a step is a whole `consoleintr`, or what a `consoleread` does
from `acquire` until it sleeps or returns. `sleep` gives up the lock and goes to sleep in one step.

The readers are the same whether the input is kept in the ring of the source or in two lists; the step
function takes the two operations on the input as arguments. -/

namespace Xv6

open Function

/-- The capacity of the input buffer. -/
abbrev INPUT_BUF_SIZE : ℕ := 128

instance neZero_INPUT_BUF_SIZE : NeZero INPUT_BUF_SIZE := ⟨by decide⟩

/-- `C('P')`, and the other characters with a meaning. -/
abbrev ctrlP : UInt8 := 16
abbrev ctrlU : UInt8 := 21
abbrev ctrlH : UInt8 := 8
abbrev ctrlD : UInt8 := 4
abbrev delete : UInt8 := 127
abbrev newline : UInt8 := 10
abbrev carriageReturn : UInt8 := 13

/-- A `consoleread` in progress. `dst i` tells whether `either_copyout` succeeds at `dst + i`. -/
structure ReadCall where
  dst : ℕ → Bool
  target : ℕ
  /-- The bytes copied out so far. -/
  got : List UInt8
  /-- The bytes taken from the input so far. -/
  took : List UInt8

/-- How a stretch of `consoleread` under the lock ends. -/
inductive ReadEnd
  /-- With `n` bytes still to read. -/
  | sleep (n : ℕ)
  | ret (value : ℤ)
  deriving DecidableEq

/-- The variable `cons` without its lock. -/
structure Cons where
  buf : Fin INPUT_BUF_SIZE → UInt8
  /-- Read index. -/
  r : UInt32
  /-- Write index. -/
  w : UInt32
  /-- Edit index. -/
  e : UInt32

namespace Cons

/-- The cell of an index. -/
def cell (i : UInt32) : Fin INPUT_BUF_SIZE := Fin.ofNat INPUT_BUF_SIZE i.toNat

/-- The distances from an index get smaller as long as it has not been reached. -/
theorem toNat_sub_one_sub {e w : UInt32} (h : e ≠ w) : (e - 1 - w).toNat + 1 = (e - w).toNat := by
  have hne : e.toNat ≠ w.toNat := fun hc => h (UInt32.toNat_inj.mp hc)
  have he := e.toNat_lt
  have hw := w.toNat_lt
  rw [UInt32.toNat_sub, UInt32.toNat_sub, UInt32.toNat_sub, UInt32.toNat_one]
  omega

/-- The loop of `^U`. -/
def killLine (σ : Cons) : Cons :=
  if _h : σ.e ≠ σ.w ∧ σ.buf (cell (σ.e - 1)) ≠ newline then killLine { σ with e := σ.e - 1 } else σ
termination_by (σ.e - σ.w).toNat
decreasing_by
  have := toNat_sub_one_sub _h.1
  omega

/-- `consoleintr(c)`, with the bytes between the old and the new `cons.w` when it wakes the readers. -/
def consoleintr (σ : Cons) (c : UInt8) : Cons × Option (List UInt8) :=
  if c = ctrlP then (σ, none)
  else if c = ctrlU then (σ.killLine, none)
  else if c = ctrlH ∨ c = delete then
    if σ.e ≠ σ.w then ({ σ with e := σ.e - 1 }, none) else (σ, none)
  else if c ≠ 0 ∧ σ.e - σ.r < 128 then
    let c := if c = carriageReturn then newline else c
    let σ' := { σ with buf := update σ.buf (cell σ.e) c, e := σ.e + 1 }
    if c = newline ∨ c = ctrlD ∨ σ'.e - σ'.r = 128 then
      ({ σ' with w := σ'.e }, some (Ring.contents σ'.buf σ'.w.toNat (σ'.e - σ'.w).toNat))
    else (σ', none)
  else (σ, none)

/-- The loop of `consoleread`, with `n` bytes still to read. A count that is not positive makes no
round and returns 0. -/
def readLoop (killed : Bool) : ℕ → ReadCall → Cons → Cons × ReadCall × ReadEnd
  | 0, call, σ => (σ, call, .ret call.target)
  | n + 1, call, σ =>
    if σ.r = σ.w then
      if killed then (σ, call, .ret (-1)) else (σ, call, .sleep (n + 1))
    else
      let c := σ.buf (cell σ.r)
      let σ' := { σ with r := σ.r + 1 }
      if c = ctrlD then
        if n + 1 < call.target then
          -- save `^D` for next time
          ({ σ' with r := σ'.r - 1 }, call, .ret (call.target - (n + 1)))
        else (σ', { call with took := call.took ++ [c] }, .ret (call.target - (n + 1)))
      else if call.dst (call.target - (n + 1)) = false then
        (σ', { call with took := call.took ++ [c] }, .ret (call.target - (n + 1)))
      else
        let call' := { call with got := call.got ++ [c], took := call.took ++ [c] }
        if c = newline then (σ', call', .ret (call.target - n)) else readLoop killed n call' σ'

end Cons

/-- Where a process is with respect to the console. -/
inductive ConsolePc
  | idle
  /-- About to acquire `cons.lock`, at the start of the call or on the way out of `sleep`. -/
  | acquire (call : ReadCall) (n : ℕ)
  /-- `SLEEPING` on `&cons.r`. -/
  | asleep (call : ReadCall) (n : ℕ)

namespace ConsolePc

/-- The process is woken. -/
def wake : ConsolePc → ConsolePc
  | .asleep call n => .acquire call n
  | pc => pc

/-- What the process has taken in the call it is in. -/
def took : ConsolePc → List UInt8
  | .idle => []
  | .acquire call _ => call.took
  | .asleep call _ => call.took

end ConsolePc

/-- A `consoleread` that has returned. -/
structure Returned (P : Type*) where
  who : P
  call : ReadCall
  value : ℤ

/-- The console with its readers, and what went through it. -/
structure Console (P S : Type*) where
  cons : S
  pc : P → ConsolePc
  killed : P → Bool
  /-- The bytes made available to readers, in order. -/
  typed : List UInt8
  /-- The bytes taken by readers, in order. -/
  taken : List (P × UInt8)
  /-- The calls that returned, in order. -/
  returned : List (Returned P)

inductive ConsoleAction (P : Type*)
  | intr (c : UInt8)
  /-- A call of `consoleread` for `n` bytes. -/
  | read (p : P) (n : ℤ) (dst : ℕ → Bool)
  /-- The reader acquires `cons.lock` and goes on until it sleeps or returns. -/
  | go (p : P)
  | kill (p : P)

namespace Console

variable {P S : Type*} [DecidableEq P]

/-- One step of a console with the operations `intr` and `read` on its input. -/
def stepWith (intr : S → UInt8 → S × Option (List UInt8))
    (read : Bool → ℕ → ReadCall → S → S × ReadCall × ReadEnd) (σ : Console P S) :
    ConsoleAction P → Option (Console P S)
  | .intr c =>
    match intr σ.cons c with
    | (s, none) => some { σ with cons := s }
    | (s, some bytes) =>
      some { σ with cons := s, pc := fun p => (σ.pc p).wake, typed := σ.typed ++ bytes }
  | .read p n dst =>
    match σ.pc p with
    | .idle =>
      some { σ with pc := update σ.pc p (.acquire ⟨dst, n.toNat, [], []⟩ n.toNat) }
    | _ => none
  | .go p =>
    match σ.pc p with
    | .acquire call n =>
      let (s, call', fin) := read (σ.killed p) n call σ.cons
      let σ' := { σ with
        cons := s
        taken := σ.taken ++ (call'.took.drop call.took.length).map fun c => (p, c) }
      match fin with
      | .sleep n' => some { σ' with pc := update σ.pc p (.asleep call' n') }
      | .ret v =>
        some { σ' with
          pc := update σ.pc p .idle
          returned := σ.returned ++ [⟨p, call', v⟩] }
    | _ => none
  | .kill p =>
    some { σ with
      killed := update σ.killed p true
      pc := update σ.pc p (σ.pc p).wake }

/-- One step of the console as the source has it. -/
def step : Console P Cons → ConsoleAction P → Option (Console P Cons) :=
  stepWith Cons.consoleintr Cons.readLoop

/-- Before the first character and the first call; the buffer can hold anything. -/
def boot (buf : Fin INPUT_BUF_SIZE → UInt8) : Console P Cons where
  cons := ⟨buf, 0, 0, 0⟩
  pc := fun _ => .idle
  killed := fun _ => false
  typed := []
  taken := []
  returned := []

end Console

end Xv6
