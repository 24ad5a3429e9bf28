import Xv6Gui.Lib.Circle
import Xv6Gui.Lib.Runs
import Xv6Gui.Param

/-!
# The buffer cache

`bio.c`, with `iderw` as its comment has it and the part of `log_write` that
concerns the buffer.

The buffers are in a circular list through `next` and `prev`, with `bcache.head`
as the sentinel.  A loop over the list follows the pointers for at most `NBUF`
rounds.

`bget` and `brelse` hold `bcache.lock`.  `iderw` is called with a busy buffer
only, which nobody else looks at, so `bread` and `bwrite` are one step each.  A
process that finds its buffer busy sleeps and begins again, so this is no step.
What a disk does with a request it does not serve is a parameter: `memide.c`
panics unless it is for the sectors of disk 1.

`log_write` also enters the sector into the header of the log, which is modelled
with the log; here it is what it does to the flags.
-/

namespace Xv6Gui

/-- `NBUF`. -/
def nbuf : Nat := maxOpBlocks * 3

instance : NeZero nbuf := ⟨by decide⟩

/-- A `struct buf *` into `bcache.buf`. -/
abbrev BufPtr := Fin nbuf

/-- A node of the list. -/
inductive BufNode where
  | head
  | buf (i : BufPtr)
deriving DecidableEq

/-- The data of a sector. -/
abbrev SectorData := Fin 512 → UInt8

/-- `struct buf`, without the pointers.  The flags are `B_BUSY`, `B_VALID` and
`B_DIRTY`. -/
structure BufEntry where
  busy : Bool
  valid : Bool
  dirty : Bool
  dev : UInt32
  sector : UInt32
  data : SectorData

/-- `bcache`, and the disks. -/
structure Bcache where
  buf : BufPtr → BufEntry
  next : BufNode → BufNode
  prev : BufNode → BufNode
  disk : UInt32 → UInt32 → SectorData

/-- Why a call does not return. -/
inductive BufStop where
  /-- The process sleeps on a busy buffer. -/
  | sleeps
  | panics (message : String)
deriving DecidableEq

/-- What a disk says to a request for a sector it does not serve. -/
abbrev Refusal := UInt32 → UInt32 → Option String

/-- The requests `memide.c` does not serve. -/
def memide (disksize : UInt32) : Refusal := fun dev sector =>
  if dev ≠ 1 then some "iderw: request not for disk 1"
  else if disksize ≤ sector then some "iderw: sector out of range"
  else none

namespace Bcache

open Function (update)

/-- Change a buffer. -/
def modify (c : Bcache) (i : BufPtr) (f : BufEntry → BufEntry) : Bcache :=
  { c with buf := update c.buf i (f (c.buf i)) }

/-- Put a buffer behind the head. -/
def insert (c : Bcache) (b : BufNode) : Bcache :=
  { c with
    next := update (update c.next b (c.next .head)) .head b
    prev := update (update c.prev b .head) (c.next .head) b }

/-- Take a buffer out of the list. -/
def unlink (c : Bcache) (b : BufNode) : Bcache :=
  { c with
    next := update c.next (c.prev b) (c.next b)
    prev := update c.prev (c.next b) (c.prev b) }

/-- `binit`. -/
def binit (c : Bcache) : Bcache :=
  let c := { c with
    next := update c.next .head .head
    prev := update c.prev .head .head }
  (List.finRange nbuf).foldl
    (fun c i => (c.insert (.buf i)).modify i fun b => { b with dev := -1 }) c

/-- The memory before `main`, with the contents of the disks. -/
def bss (disk : UInt32 → UInt32 → SectorData) : Bcache where
  buf _ := ⟨false, false, false, 0, 0, fun _ => 0⟩
  next _ := .head
  prev _ := .head
  disk := disk

/-- A condition on the buffer a loop is at. -/
def on (c : Bcache) (P : BufEntry → Bool) : BufNode → Bool
  | .head => false
  | .buf i => P (c.buf i)

/-- `bget`. -/
def bget (c : Bcache) (dev sector : UInt32) : Except BufStop (BufPtr × Bcache) :=
  match Circular.scan c.next .head (c.on fun b => b.dev = dev ∧ b.sector = sector) nbuf
      (c.next .head) with
  | some (.buf i) =>
    if (c.buf i).busy then .error .sleeps
    else .ok (i, c.modify i fun b => { b with busy := true })
  | _ =>
    match Circular.scan c.prev .head (c.on fun b => !b.busy && !b.dirty) nbuf
        (c.prev .head) with
    | some (.buf i) =>
      .ok (i, c.modify i fun b =>
        { b with busy := true, valid := false, dirty := false, dev := dev, sector := sector })
    | _ => .error (.panics "bget: no buffers")

/-- `iderw`. -/
def iderw (refuses : Refusal) (c : Bcache) (i : BufPtr) : Except BufStop Bcache :=
  let b := c.buf i
  if !b.busy then .error (.panics "iderw: buf not busy")
  else if b.valid && !b.dirty then .error (.panics "iderw: nothing to do")
  else
    match refuses b.dev b.sector with
    | some message => .error (.panics message)
    | none =>
      if b.dirty then
        .ok { c.modify i fun b => { b with dirty := false, valid := true } with
          disk := update c.disk b.dev (update (c.disk b.dev) b.sector b.data) }
      else
        .ok (c.modify i fun b => { b with data := c.disk b.dev b.sector, valid := true })

/-- `bread`. -/
def bread (refuses : Refusal) (c : Bcache) (dev sector : UInt32) :
    Except BufStop (BufPtr × Bcache) := do
  let (i, c) ← c.bget dev sector
  if !(c.buf i).valid then
    return (i, ← c.iderw refuses i)
  return (i, c)

/-- `bwrite`. -/
def bwrite (refuses : Refusal) (c : Bcache) (i : BufPtr) : Except BufStop Bcache :=
  if !(c.buf i).busy then .error (.panics "bwrite")
  else (c.modify i fun b => { b with dirty := true }).iderw refuses i

/-- `log_write`, what it does to the buffer. -/
def logWrite (c : Bcache) (i : BufPtr) : Bcache := c.modify i fun b => { b with dirty := true }

/-- `brelse`. -/
def brelse (c : Bcache) (i : BufPtr) : Except BufStop Bcache :=
  if !(c.buf i).busy then .error (.panics "brelse")
  else
    .ok (((c.unlink (.buf i)).insert (.buf i)).modify i fun b => { b with busy := false })

/-- Store into the data of a buffer. -/
def store (c : Bcache) (i : BufPtr) (data : SectorData) : Bcache :=
  c.modify i fun b => { b with data := data }

end Bcache

/-- What the users of the cache do.  A holder changes the data in place and
then calls `bwrite` or `log_write`. -/
inductive BufOp where
  | bread (dev sector : UInt32)
  | bwrite (i : BufPtr) (data : SectorData)
  | logWrite (i : BufPtr) (data : SectorData)
  | brelse (i : BufPtr)

/-- What a call has done. -/
inductive BufDone where
  | got (i : BufPtr)
  | wrote (dev sector : UInt32) (data : SectorData)
  | released

namespace Bcache

/-- One call. -/
def step (refuses : Refusal) (c : Bcache) : BufOp → Except BufStop (Bcache × BufDone)
  | .bread dev sector => do
    let (i, c) ← c.bread refuses dev sector
    return (c, .got i)
  | .bwrite i data => do
    let c ← (c.store i data).bwrite refuses i
    return (c, .wrote (c.buf i).dev (c.buf i).sector data)
  | .logWrite i data =>
    let c := (c.store i data).logWrite i
    .ok (c, .wrote (c.buf i).dev (c.buf i).sector data)
  | .brelse i => do
    let c ← c.brelse i
    return (c, .released)

/-- A buffer is used only between `bread` and `brelse`. -/
def Uses (c : Bcache) : BufOp → Prop
  | .bread _ _ => True
  | .bwrite i _ | .logWrite i _ | .brelse i => (c.buf i).busy = true

end Bcache

end Xv6Gui
