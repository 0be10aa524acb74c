import Xv6.Pipe.Fifo

/-! # What a read takes and what it returns

`piperead` takes a byte out of the ring before it knows whether the byte can be stored. What it returns
is the number of bytes it stored, which is the number it took as long as the user's buffer is mapped. -/

namespace Xv6.Pipe

variable {pi pi' : Pipe} {dst : ℕ → Bool} {m i ret : ℕ} {stored : List UInt8}

/-- The second loop of `piperead` from round `i` on, with `m` rounds to go: what it returns, the pipe, and
the bytes it stored. -/
def readLoop (dst : ℕ → Bool) : ℕ → ℕ → Pipe → ℕ × Pipe × List UInt8
  | 0, i, pi => (i, pi, [])
  | m + 1, i, pi =>
    if pi.empty then (i, pi, [])
    else if dst i then
      let (ret, pi', stored) := readLoop dst m (i + 1) pi.drop
      (ret, pi', pi.head :: stored)
    else (i, pi.drop, [])

/-- How `piperead` goes on with `pi->lock` held. -/
inductive ReadOutcome
  /-- It sleeps on `&pi->nread`. -/
  | sleeps
  | returns (ret : ℤ) (pi : Pipe) (stored : List UInt8)

/-- `piperead` from the top of its first loop. -/
def piperead (killed : Bool) (dst : ℕ → Bool) (n : ℤ) (pi : Pipe) : ReadOutcome :=
  if pi.empty ∧ pi.writeopen then
    if killed then .returns (-1) pi [] else .sleeps
  else
    let (ret, pi', stored) := readLoop dst n.toNat 0 pi
    .returns ret pi' stored

/-- A pipe with one byte in it. -/
def oneByte : Pipe := (alloc fun _ => 0).put 7

end Xv6.Pipe
