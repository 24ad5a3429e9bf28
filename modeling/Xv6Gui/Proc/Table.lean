import Xv6Gui.Window.Queue

/-!
# The process table

`proc.c`, as far as processes come into being and end, next to the window
queue that keeps pointers to them.

A step is what one process does between two points where another can see it.
`exit` and `wait` change the table under `ptable.lock` and are one step each;
what `exit` does before (closing files, `iput`) does not touch the table.
`fork` holds no lock between `allocproc` and the end, so it is two steps, and
the child is an `EMBRYO` in between.

Page directories are numbers, and `allocated` has those that are not freed.
`wait` frees the directory of the child and leaves `pgdir` as it is.  Kernel
stacks, open files, trap frames, names and sizes are left out.
-/

namespace Xv6Gui

/-- `enum procstate`. -/
inductive ProcState where
  | unused
  | embryo
  | sleeping
  | runnable
  | running
  | zombie
deriving DecidableEq

/-- What a process sleeps on: a process, in `wait`, or something else. -/
inductive Chan where
  | proc (p : ProcPtr)
  | other (n : Nat)
deriving DecidableEq

/-- `struct proc`. -/
structure Proc where
  state : ProcState
  pid : Int
  parent : Option ProcPtr
  killed : Bool
  pgdir : Option Nat
  chan : Option Chan

/-- The process table, and the windows. -/
structure Kernel where
  ptable : ProcPtr → Proc
  initproc : ProcPtr
  nextpid : Int
  /-- The page directories that are not freed. -/
  allocated : List Nat
  /-- The child a process in `fork` has from `allocproc`. -/
  forking : ProcPtr → Option ProcPtr
  queue : Queue

namespace Kernel

/-- Change a slot. -/
def modify (k : Kernel) (p : ProcPtr) (f : Proc → Proc) : Kernel :=
  { k with ptable := Function.update k.ptable p (f (k.ptable p)) }

/-- `wakeup1`. -/
def wakeup1 (k : Kernel) (chan : Option Chan) : Kernel :=
  { k with ptable := fun p =>
      let e := k.ptable p
      if e.state = .sleeping ∧ e.chan = chan then { e with state := .runnable } else e }

/-- `p->parent == proc` becomes `p->parent = initproc`. -/
def reparent (k : Kernel) (p : ProcPtr) : Kernel :=
  { k with ptable := fun q =>
      let e := k.ptable q
      if e.parent = some p then { e with parent := some k.initproc } else e }

/-- The entries in the order of the loops over the table. -/
def entries : List ProcPtr := List.finRange nproc

/-- The part of `allocproc` under the lock, called by `fork` of `p`. -/
def allocproc (k : Kernel) (p : ProcPtr) : Kernel :=
  match entries.find? fun q => (k.ptable q).state = .unused with
  | none => k
  | some np =>
    let k := k.modify np fun e => { e with state := .embryo, pid := k.nextpid }
    { k with nextpid := k.nextpid + 1, forking := Function.update k.forking p (some np) }

/-- `fork` of `p` without memory: for the kernel stack, or for the copy of the
page directory, when `pgdir` has been set to null. -/
def forkFail (k : Kernel) (p np : ProcPtr) (kstack : Bool) : Kernel :=
  let k := k.modify np fun e =>
    { e with state := .unused, pgdir := if kstack then e.pgdir else none }
  { k with forking := Function.update k.forking p none }

/-- The end of `fork` of `p`, with the directory `copyuvm` returned. -/
def forkDone (k : Kernel) (p np : ProcPtr) (pgdir : Nat) : Kernel :=
  let k := k.modify np fun e =>
    { e with state := .runnable, parent := some p, pgdir := some pgdir }
  { k with
    allocated := pgdir :: k.allocated
    forking := Function.update k.forking p none }

/-- `exit` of `p`.  Waking a process up and giving it a new parent touch
different fields, so the wakeups of the loop are made behind it. -/
def exit (k : Kernel) (p : ProcPtr) : Kernel :=
  let k := k.wakeup1 ((k.ptable p).parent.map .proc)
  let abandoned := entries.any fun q =>
    (k.ptable q).parent = some p ∧ (k.ptable q).state = .zombie
  let k := k.reparent p
  let k := if abandoned then k.wakeup1 (some (.proc k.initproc)) else k
  k.modify p fun e => { e with state := .zombie }

/-- The part of `wait` for the child `c` it found. -/
def reap (k : Kernel) (c : ProcPtr) : Kernel :=
  let freed := k.allocated.filter fun d => some d ≠ (k.ptable c).pgdir
  let k := k.modify c fun e => { e with state := .unused, pid := 0, parent := none, killed := false }
  { k with allocated := freed }

/-- `wait`. -/
def wait (k : Kernel) (p : ProcPtr) : Kernel :=
  match entries.find? fun c => (k.ptable c).parent = some p ∧ (k.ptable c).state = .zombie with
  | some c => k.reap c
  | none =>
    if (entries.all fun c => (k.ptable c).parent ≠ some p) ∨ (k.ptable p).killed then k
    else k.modify p fun e => { e with state := .sleeping, chan := some (.proc p) }

/-- `kill`. -/
def kill (k : Kernel) (pid : Int) : Kernel :=
  match entries.find? fun q => (k.ptable q).pid = pid with
  | none => k
  | some q => k.modify q fun e =>
    { e with killed := true, state := if e.state = .sleeping then .runnable else e.state }

/-- After `userinit`: one process, with the directory 0. -/
def userinit : Kernel where
  ptable p :=
    if p = 0 then ⟨.runnable, 1, none, false, some 0, none⟩
    else ⟨.unused, 0, none, false, none, none⟩
  initproc := 0
  nextpid := 2
  allocated := [0]
  forking _ := none
  queue := Queue.initWindow

end Kernel

/-- What happens to processes. -/
inductive ProcEvent where
  /-- The scheduler chooses a process. -/
  | schedule (p : ProcPtr)
  | yield (p : ProcPtr)
  | sleep (p : ProcPtr) (n : Nat)
  | wakeup (n : Nat)
  | allocproc (p : ProcPtr)
  | forkFail (p : ProcPtr) (kstack : Bool)
  | forkDone (p : ProcPtr) (pgdir : Nat)
  /-- By the process itself, or on the way back to user space once killed. -/
  | exit (p : ProcPtr)
  | wait (p : ProcPtr)
  | kill (p : ProcPtr) (pid : Int)
  | createWindow (p : ProcPtr) (arg : Option Int)
  | deleteWindow (p : ProcPtr) (arg : Option Int)
  /-- The mouse raises a queued window. -/
  | reorderQueue (q : Slot)

namespace Kernel

/-- The process runs and is not in the middle of `fork`. -/
def Free (k : Kernel) (p : ProcPtr) : Prop :=
  (k.ptable p).state = .running ∧ k.forking p = none
  deriving Decidable

/-- One event.  `none` is an event that cannot happen now, or the panic of
`exit` in `initproc`. -/
def step (k : Kernel) : ProcEvent → Option Kernel
  | .schedule p =>
    if (k.ptable p).state = .runnable then
      some (k.modify p fun e => { e with state := .running })
    else none
  | .yield p =>
    if (k.ptable p).state = .running then
      some (k.modify p fun e => { e with state := .runnable })
    else none
  | .sleep p n =>
    if (k.ptable p).state = .running then
      some (k.modify p fun e => { e with state := .sleeping, chan := some (.other n) })
    else none
  | .wakeup n => some (k.wakeup1 (some (.other n)))
  | .allocproc p => if k.Free p then some (k.allocproc p) else none
  | .forkFail p kstack =>
    if (k.ptable p).state = .running then (k.forking p).map fun np => k.forkFail p np kstack
    else none
  | .forkDone p pgdir =>
    if (k.ptable p).state = .running ∧ pgdir ∉ k.allocated then
      (k.forking p).map fun np => k.forkDone p np pgdir
    else none
  | .exit p => if k.Free p ∧ p ≠ k.initproc then some (k.exit p) else none
  | .wait p => if k.Free p then some (k.wait p) else none
  | .kill p pid => if k.Free p then some (k.kill pid) else none
  | .createWindow p arg =>
    if k.Free p then (k.queue.sysCreateWindow p arg).map fun r => { k with queue := r.2 }
    else none
  | .deleteWindow p arg =>
    if k.Free p then (k.queue.sysDeleteWindow arg).map fun r => { k with queue := r.2 }
    else none
  | .reorderQueue q =>
    if (k.queue.windowLine q).proc ≠ none ∧ .windowLine q ≠ k.queue.lastWindow then
      (k.queue.reorderQueue (.windowLine q)).map fun queue => { k with queue := queue }
    else none

end Kernel

end Xv6Gui
