import Xv6Gui.Lib.Runs
import Xv6Gui.Log.Commit

/-!
# File system operations

Any number of processes run `begin_op`, `log_write` and `end_op` at the same
time.

A critical section of `begin_op` and `end_op` holds `log.lock` and is one step.
`sleep` and `wakeup` move a process out of the loop of `begin_op` and back in.
`commit` runs without the lock, one loop round or store at a time, and so does
`log_write`: it never takes the lock, and a timer interrupt may come between any
two of its steps, or another processor may run the same code.

An operation is everything between a `begin_op` and the `end_op` behind it.  The
numbers of operations and the records of what was logged and committed are not
part of the machine.
-/

namespace Xv6Gui

/-- A place in `log_write`. -/
inductive LogWritePc where
  /-- `if (log.lh.n >= LOGSIZE || log.lh.n >= log.size - 1)` -/
  | checkSize
  /-- `if (log.outstanding < 1)` -/
  | checkOutstanding
  /-- The loop, before round `i`. -/
  | search (i : Nat)
  /-- `log.lh.sector[i] = b->sector` -/
  | store (i : Nat)
  /-- `if (i == log.lh.n)` -/
  | test (i : Nat)
  /-- `log.lh.n++` -/
  | increment
  /-- `b->flags |= B_DIRTY` -/
  | pin
  deriving DecidableEq

/-- Where a process is in `commit`, and behind it in `end_op`. -/
inductive CommitPc where
  /-- `if (log.lh.n > 0)` -/
  | test
  /-- `write_log`, before round `tail`. -/
  | writeLog (tail : Nat)
  | writeHead
  /-- `install_trans`, before round `tail`. -/
  | installTrans (tail : Nat)
  /-- `log.lh.n = 0` -/
  | clear
  /-- The second `write_head`. -/
  | eraseHead
  /-- The critical section behind `commit`. -/
  | done
  deriving DecidableEq

/-- A place in the code of a process. -/
inductive Pc where
  | idle
  /-- In the loop of `begin_op`. -/
  | beginOp
  /-- In `sleep(&log, &log.lock)`. -/
  | sleeping
  /-- In an operation. -/
  | running (op : Nat)
  /-- In an operation, in `log_write` of a buffer. -/
  | logWrite (op sector : Nat) (at_ : LogWritePc)
  | commit (at_ : CommitPc)
  deriving DecidableEq

namespace Pc

/-- The operation a process is in. -/
def op : Pc → Option Nat
  | .running op => some op
  | .logWrite op _ _ => some op
  | _ => none

/-- A process is in `commit` or behind it in `end_op`. -/
def isCommit : Pc → Bool
  | .commit _ => true
  | _ => false

/-- The sector and the place in `log_write`. -/
def stage : Pc → Option (Nat × LogWritePc)
  | .logWrite _ sector c => some (sector, c)
  | _ => none

end Pc

/-- A transaction whose header has been written.  A record, not part of the
machine. -/
structure Transaction where
  /-- The sectors of the header. -/
  sectors : List Nat
  /-- The operations and sectors of the calls of `log_write` since the log was
  empty. -/
  entries : Finset (Nat × Nat)
  /-- The operations that had called `end_op`. -/
  ended : Finset Nat

/-- The log, and where each process is. -/
structure Ops (P : Type*) where
  log : LogState
  pc : P → Pc
  /-- The message of the panic that stopped the machine. -/
  panicked : Option String
  /-- Ghost: the number of operations begun. -/
  begun : Nat
  /-- Ghost: the operations that have called `end_op`. -/
  ended : Finset Nat
  /-- Ghost: the operation and sector of each call of `log_write` that returned
  since the log was empty. -/
  entries : Finset (Nat × Nat)
  /-- Ghost: the transactions committed so far. -/
  committed : List Transaction

/-- What a process does next, where it has a choice. -/
inductive Action where
  | beginOp
  | logWrite (sector : Nat) (data : Block)
  | endOp
  /-- The next step of the function it is in. -/
  | next

namespace Ops

variable {P : Type*} [DecidableEq P]

/-- A process goes on. -/
def goto (s : Ops P) (p : P) (c : Pc) : Ops P := { s with pc := Function.update s.pc p c }

/-- A process panics. -/
def panic (s : Ops P) (message : String) : Ops P := { s with panicked := some message }

/-- Store the log. -/
def setLog (s : Ops P) (log : Log) : Ops P := { s with log := { s.log with log := log } }

/-- Store the header. -/
def setHeader (s : Ops P) (lh : LogHeader) : Ops P := s.setLog { s.log.log with lh := lh }

/-- `log.committing = b`. -/
def setCommitting (s : Ops P) (b : Bool) : Ops P := s.setLog { s.log.log with committing := b }

/-- `log.outstanding += 1`. -/
def addOp (s : Ops P) : Ops P :=
  { s.setLog { s.log.log with outstanding := s.log.log.outstanding + 1 } with
    begun := s.begun + 1 }

/-- `log.outstanding -= 1`, at the end of the operation `op`. -/
def dropOp (s : Ops P) (op : Nat) : Ops P :=
  { s.setLog { s.log.log with outstanding := s.log.log.outstanding - 1 } with
    ended := insert op s.ended }

/-- `wakeup(&log)`. -/
def wakeup (s : Ops P) : Ops P :=
  { s with pc := fun q => if s.pc q = .sleeping then .beginOp else s.pc q }

/-- A round of the loop of `begin_op`. -/
def beginOp (s : Ops P) (p : P) : Ops P :=
  let log := s.log.log
  if log.committing then
    s.goto p .sleeping
  else if log.lh.n + (log.outstanding + 1) * maxOpBlocks > logSize then
    s.goto p .sleeping
  else
    s.addOp.goto p (.running s.begun)

/-- The first critical section of `end_op`, for the operation `op`. -/
def endOp (s : Ops P) (p : P) (op : Nat) : Ops P :=
  let s := s.dropOp op
  if s.log.log.committing then
    s.panic "log.committing"
  else if s.log.log.outstanding = 0 then
    (s.setCommitting true).goto p (.commit .test)
  else
    s.wakeup.goto p .idle

/-- A call of `log_write` for a buffer the caller has changed to `data`. -/
def callLogWrite (s : Ops P) (p : P) (op sector : Nat) (data : Block) : Ops P :=
  let buf : Buf := ⟨data, ((s.log.bio.cache sector).map Buf.dirty).getD false⟩
  let bio := { s.log.bio with cache := Function.update s.log.bio.cache sector (some buf) }
  { s with log := { s.log with bio := bio } }.goto p (.logWrite op sector .checkSize)

/-- `B_DIRTY` in the buffer of a sector. -/
def setDirty (s : Ops P) (sector : Nat) : Ops P :=
  let cache := Function.update s.log.bio.cache sector
    ((s.log.bio.cache sector).map fun b => { b with dirty := true })
  { s with log := { s.log with bio := { s.log.bio with cache := cache } } }

/-- A step in `log_write`. -/
def logWrite (s : Ops P) (p : P) (op sector : Nat) : LogWritePc → Ops P
  | .checkSize =>
    let log := s.log.log
    if log.lh.n ≥ logSize ∨ log.lh.n ≥ (log.size : Int) - 1 then
      s.panic "too big a transaction"
    else
      s.goto p (.logWrite op sector .checkOutstanding)
  | .checkOutstanding =>
    if s.log.log.outstanding < 1 then
      s.panic "log_write outside of trans"
    else
      s.goto p (.logWrite op sector (.search 0))
  | .search i =>
    let lh := s.log.log.lh
    if (i : Int) < lh.n ∧ lh.sector i ≠ sector then
      s.goto p (.logWrite op sector (.search (i + 1)))
    else
      s.goto p (.logWrite op sector (.store i))
  | .store i =>
    let lh := s.log.log.lh
    (s.setHeader { lh with sector := Function.update lh.sector i sector }).goto p
      (.logWrite op sector (.test i))
  | .test i =>
    if (i : Int) = s.log.log.lh.n then
      s.goto p (.logWrite op sector .increment)
    else
      s.goto p (.logWrite op sector .pin)
  | .increment =>
    let lh := s.log.log.lh
    (s.setHeader { lh with n := lh.n + 1 }).goto p (.logWrite op sector .pin)
  | .pin =>
    { s.setDirty sector with entries := insert (op, sector) s.entries }.goto p (.running op)

/-- A step of `commit`, or the critical section behind it. -/
def commit (s : Ops P) (p : P) : CommitPc → Ops P
  | .test =>
    if s.log.log.lh.n > 0 then s.goto p (.commit (.writeLog 0)) else s.goto p (.commit .done)
  | .writeLog tail =>
    if (tail : Int) < s.log.log.lh.n then
      { s with log := s.log.writeLogAt tail }.goto p (.commit (.writeLog (tail + 1)))
    else
      s.goto p (.commit .writeHead)
  | .writeHead =>
    let transaction : Transaction := ⟨s.log.log.lh.sectors, s.entries, s.ended⟩
    { s with log := s.log.writeHead, committed := s.committed ++ [transaction] }.goto p
      (.commit (.installTrans 0))
  | .installTrans tail =>
    if (tail : Int) < s.log.log.lh.n then
      { s with log := s.log.installTransAt tail }.goto p (.commit (.installTrans (tail + 1)))
    else
      s.goto p (.commit .clear)
  | .clear => { s with log := s.log.clearN, entries := ∅ }.goto p (.commit .eraseHead)
  | .eraseHead => { s with log := s.log.writeHead }.goto p (.commit .done)
  | .done => (s.setCommitting false).wakeup.goto p .idle

/-- Process `p` takes a step.  After a panic nothing moves, and a process that
sleeps waits for `wakeup`. -/
def step (s : Ops P) : P × Action → Option (Ops P)
  | (p, a) =>
    if s.panicked.isSome then
      none
    else
      match s.pc p, a with
      | .idle, .beginOp => some (s.goto p .beginOp)
      | .beginOp, .next => some (s.beginOp p)
      | .running op, .logWrite sector data => some (s.callLogWrite p op sector data)
      | .running op, .endOp => some (s.endOp p op)
      | .logWrite op sector c, .next => some (s.logWrite p op sector c)
      | .commit c, .next => some (s.commit p c)
      | _, _ => none

/-- One step. -/
def Step (s : Ops P) (e : P × Action) (t : Ops P) : Prop := s.step e = some t

/-- No process is in an operation and nothing is logged. -/
structure Initial (s : Ops P) : Prop where
  pc : ∀ p, s.pc p = .idle
  panicked : s.panicked = none
  n : s.log.log.lh.n = 0
  outstanding : s.log.log.outstanding = 0
  committing : s.log.log.committing = false
  ended : s.ended = ∅
  entries : s.entries = ∅
  committed : s.committed = []

end Ops

end Xv6Gui
