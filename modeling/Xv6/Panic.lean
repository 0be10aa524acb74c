import Mathlib

/-! # Kernel panics

The `panic` calls of the modelled functions. A panic ends the run of the kernel. -/

namespace Xv6

/-- A reason for the kernel to stop. -/
inductive Panic
  | logCommitting
  | tooBigTransaction
  | logWriteOutsideTrans
  | freeingFreeBlock
  | igetNoInodes
  | ilock
  | ilockNoType
  | iunlock
  | bmapOutOfRange
  | dirlookupNotDir
  | dirlookupRead
  | dirlinkRead
  | isdiremptyReadi
  | unlinkNlink
  | unlinkWritei
  | filedup
  | fileclose
  | fileread
  | filewrite
  | initExiting
  deriving DecidableEq, Repr

end Xv6
