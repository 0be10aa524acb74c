import Xv6.Fs.Calls
import Xv6.Fs.Image

/-! # Path lookup, component by component

The components of a path are its maximal runs of bytes other than `/`, cut to `DIRSIZ` bytes. `skipelem`
finds them one after the other, `namei` is the fold of lookup over them, and `nameiparent` stops before
the last one. -/

namespace Xv6

variable {path name rest : List UInt8} {rounds : ℕ}

namespace Nodes

variable {N : Nodes} {i : ℕ}

end Nodes

namespace Fs

variable {s : Fs} {N : Nodes} {H : Fin NINODE → ℕ} {R : Set ℕ} {E : Panic → Prop} {cwd : Fin NINODE} {c : ℕ}

end Fs

end Xv6
