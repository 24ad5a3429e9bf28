import Mathlib.Algebra.BigOperators.Fin

/-!
# Constants and pointers shared by the kernel modules

The constants of `param.h` and `window.h` that several models read.  A
`struct proc *` points into `ptable.proc`, so it is an index below `nproc`, and
a pointer that may be null is an `Option`.
-/

namespace Xv6Gui

/-- `NPROC`: the number of slots of the process table. -/
def nproc : Nat := 64

/-- `MAX_WINDOW_NUM`: the number of slots of `windowLine`. -/
def maxWindowNum : Nat := 32

/-- `MAXOPBLOCKS`: the blocks an operation of the file system may write. -/
def maxOpBlocks : Nat := 10

/-- `LOGSIZE`: the data sectors in the log on disk. -/
def logSize : Nat := maxOpBlocks * 3

/-- `MAX_STRING_NUM`: the characters of a text of a widget. -/
def maxStringNum : Nat := 256

/-- The character `'/'` between the names of a path. -/
def slash : UInt8 := 47

instance : NeZero nproc := ⟨by decide⟩

instance : NeZero maxWindowNum := ⟨by decide⟩

/-- A non-null `struct proc *`. -/
abbrev ProcPtr := Fin nproc

/-- A slot of `windowLine`. -/
abbrev Slot := Fin maxWindowNum

end Xv6Gui
