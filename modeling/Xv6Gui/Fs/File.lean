import Xv6Gui.Fs.Inode

/-!
# Writing to files

`filewrite` of `file.c`.  It writes a part of the data in each round, and each
round is an operation of its own, from `begin_op` to `end_op`.
-/

namespace Xv6Gui

/-- `begin_op`. -/
def beginOp : FsM Unit := do
  let s ← get
  let log := s.log.log
  if log.committing ∨ log.lh.n + (log.outstanding + 1) * maxOpBlocks > logSize then
    throw .sleep
  else
    set { s with
      log := { s.log with log := { log with outstanding := log.outstanding + 1 } }
      logged := ∅ }

/-- `end_op`.  Nobody else runs while it commits. -/
def endOp : FsM Unit := do
  let s ← get
  let log := { s.log.log with outstanding := s.log.log.outstanding - 1 }
  let s := { s with logged := ∅, ops := s.ops ++ [s.logged] }
  if log.committing then
    panic "log.committing"
  else if log.outstanding = 0 then
    set { s with log := LogState.commit { s.log with log := log } }
  else
    set { s with log := { s.log with log := log } }

/-- `max` in `filewrite`. -/
def maxWrite : Int := (logSize - 1 - 1 - 2) / 2 * 512

/-- `if(r > 0) f->off += r`. -/
def advance (f : FilePtr) (r : Int) : FsM Unit :=
  modify fun s =>
    let file := s.ftable f
    let off := if r > 0 then (file.off + ofInt r) % 2 ^ 32 else file.off
    { s with ftable := Function.update s.ftable f { file with off := off } }

/-- The section of `filewrite` from `begin_op` to `end_op`. -/
def filewriteOp (f : FilePtr) (addr : Nat → UInt8) (n1 : Int) : FsM Int := do
  beginOp
  ilock ((← get).ftable f).ip
  let file := (← get).ftable f
  let r ← writei file.ip addr file.off (ofInt n1)
  advance f r
  iunlock file.ip
  endOp
  return r

/-- The loop of `filewrite`, with what is left of its rounds.  It returns `i`. -/
def filewriteLoop (f : FilePtr) (addr : Nat → UInt8) (n : Int) : Nat → Int → FsM Int
  | 0, i => return i
  | rounds + 1, i =>
    if i < n then do
      let n1 := min (n - i) maxWrite
      let r ← filewriteOp f (fun k => addr (i.toNat + k)) n1
      if r < 0 then
        return i
      else if r ≠ n1 then
        panic "short filewrite"
      else
        filewriteLoop f addr n rounds (i + r)
    else
      return i

/-- `filewrite`.  A pipe is not part of the state; `pipewrite` says how its branch
ends. -/
def filewrite (pipewrite : Except Halt Int) (f : FilePtr) (addr : Nat → UInt8) (n : Int) :
    FsM Int := do
  let file := (← get).ftable f
  if ¬ file.writable then
    return -1
  else
    match file.type with
    | .pipe => liftM pipewrite
    | .inode =>
      let i ← filewriteLoop f addr n n.toNat 0
      return if i = n then n else -1
    | .none => panic "filewrite"

end Xv6Gui
