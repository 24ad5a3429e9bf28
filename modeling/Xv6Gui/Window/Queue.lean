import Xv6Gui.Param
import Xv6Gui.Lib.Linked

/-!
# The window queue

The queue of `window.c`: a sentinel `windowQueue`, the slots of `windowLine`,
and the tail pointer `lastWindow`.  A `WindowQueue *` points to the sentinel or
to a slot.  The links are patched one store at a time, in the order of the
source.

The loops along `next` and `prev` take fuel.  There are `maxWindowNum + 1`
nodes, so `queueFuel` is enough for a loop that visits no node twice.  A loop
that runs out of fuel and a load or store through a null pointer both give
`none`.

The system calls here end where the source releases `window_lock`.  The redraw
that follows (`updateBackWindows`) reads the queue and stores nothing in it.
-/

namespace Xv6Gui

open Function (update)

/-! ## Nodes -/

/-- Where a non-null `WindowQueue *` points. -/
inductive Node where
  /-- The sentinel. -/
  | windowQueue
  /-- A slot. -/
  | windowLine (i : Slot)
deriving DecidableEq, Repr

/-- `struct WindowQueue`.  `window` is an address in the memory of `proc`. -/
structure WindowQueue where
  proc : Option ProcPtr
  window : Int
  next : Option Node
  prev : Option Node
deriving Repr

/-- The windows of the kernel. -/
structure Queue where
  windowQueue : WindowQueue
  windowLine : Slot → WindowQueue
  lastWindow : Node

namespace Queue

/-- The entry a pointer points to. -/
def entry (s : Queue) : Node → WindowQueue
  | .windowQueue => s.windowQueue
  | .windowLine i => s.windowLine i

/-- Change an entry. -/
def modify (s : Queue) (n : Node) (f : WindowQueue → WindowQueue) : Queue :=
  match n with
  | .windowQueue => { s with windowQueue := f s.windowQueue }
  | .windowLine i => { s with windowLine := update s.windowLine i (f (s.windowLine i)) }

/-- `n->next`. -/
def next (s : Queue) (n : Node) : Option Node := (s.entry n).next

/-- `n->prev`. -/
def prev (s : Queue) (n : Node) : Option Node := (s.entry n).prev

/-- The pair `n->proc`, `n->window`. -/
def owner (s : Queue) (n : Node) : Option ProcPtr × Int :=
  ((s.entry n).proc, (s.entry n).window)

/-- `n->next = v`. -/
def setNext (s : Queue) (n : Node) (v : Option Node) : Queue :=
  s.modify n fun e => { e with next := v }

/-- `n->prev = v`. -/
def setPrev (s : Queue) (n : Node) (v : Option Node) : Queue :=
  s.modify n fun e => { e with prev := v }

/-- `n->proc = p; n->window = w`. -/
def setOwner (s : Queue) (n : Node) (p : Option ProcPtr) (w : Int) : Queue :=
  s.modify n fun e => { e with proc := p, window := w }

/-- `lastWindow = n`. -/
def setLast (s : Queue) (n : Node) : Queue := { s with lastWindow := n }

/-! ## The operations -/

/-- `initWindow`. -/
def initWindow : Queue where
  windowQueue := ⟨none, 0, none, none⟩
  windowLine := fun _ => ⟨none, 0, none, none⟩
  lastWindow := .windowQueue

/-- Enough iterations for a loop that visits every node once. -/
def queueFuel : Nat := maxWindowNum + 1

/-- `acquireWindow`: the first slot without a process.  `none` stands for the
result `-1`. -/
def acquireWindow (s : Queue) : Option Slot :=
  (List.finRange maxWindowNum).find? fun i => (s.windowLine i).proc = none

/-- The loop of `addWindow`: `while (p->next != 0) p = p->next`. -/
def endOfQueue (s : Queue) : Nat → Node → Option Node
  | 0, _ => none
  | fuel + 1, p =>
    match s.next p with
    | none => some p
    | some p => s.endOfQueue fuel p

/-- `addWindow`. -/
def addWindow (s : Queue) (x : Slot) : Option Queue := do
  let q ← s.endOfQueue queueFuel .windowQueue
  let s := s.setNext q (some (.windowLine x))
  let s := s.setPrev (.windowLine x) (some q)
  let s := s.setNext (.windowLine x) none
  return s.setLast (.windowLine x)

/-- `sys_createWindow` called by `proc`.  The argument is `none` when `argint`
fails. -/
def sysCreateWindow (s : Queue) (proc : ProcPtr) (arg : Option Int) : Option (Int × Queue) :=
  match arg with
  | none => some (-1, s)
  | some window =>
    match s.acquireWindow with
    | none => some (-1, s)
    | some hWind => do
      let s := s.setOwner (.windowLine hWind) (some proc) window
      let s ← s.addWindow hWind
      return ((hWind : Nat), s)

/-- `windowLine + hWind`.  `none` is an address that is no slot. -/
def windowLineAt (hWind : Int) : Option Slot :=
  if h : 0 ≤ hWind ∧ hWind < maxWindowNum then
    some ⟨hWind.toNat, by omega⟩
  else
    none

/-- `if (d == lastWindow) lastWindow = p`. -/
def retreatLast (s : Queue) (p d : Node) : Queue :=
  if d = s.lastWindow then s.setLast p else s

/-- The body of the loop of `sys_deleteWindow` once the entry `d` behind `p`
is the one to delete. -/
def deleteAfter (s : Queue) (p d : Node) : Queue :=
  let s := s.setOwner d none 0
  let s := s.retreatLast p d
  let s := s.setNext p (s.next d)
  match s.next p with
  | none => s
  | some b => s.setPrev b (some p)

/-- The loop of `sys_deleteWindow`, from the node `p`. -/
def deleteFrom (s : Queue) (hWind : Int) : Nat → Node → Option (Int × Queue)
  | 0, _ => none
  | fuel + 1, p =>
    match s.next p with
    | none => some (-1, s)
    | some d =>
      if some d = (windowLineAt hWind).map .windowLine then
        some (0, s.deleteAfter p d)
      else
        s.deleteFrom hWind fuel d

/-- `sys_deleteWindow`.  The argument is `none` when `argint` fails. -/
def sysDeleteWindow (s : Queue) (arg : Option Int) : Option (Int × Queue) :=
  match arg with
  | none => some (-1, s)
  | some hWind => s.deleteFrom hWind queueFuel .windowQueue

/-- The loop of `reorderQueue`: walk back from `p` to `q`.  The result is `p`
after the loop, null when `q` was not met. -/
def findBack (s : Queue) (q : Node) : Nat → Option Node → Option (Option Node)
  | _, none => some none
  | 0, some _ => none
  | fuel + 1, some p => if p = q then some (some p) else s.findBack q fuel (s.prev p)

/-- `reorderQueue`. -/
def reorderQueue (s : Queue) (q : Node) : Option Queue := do
  let found ← s.findBack q queueFuel (some s.lastWindow)
  let p ← found
  let before ← s.prev p
  let s := s.setNext before (s.next p)
  let after ← s.next p
  let s := s.setPrev after (s.prev p)
  let s := s.setNext s.lastWindow (some q)
  let s := s.setPrev q (some s.lastWindow)
  let s := s.setNext q none
  return s.setLast q

/-! ## What a store changes -/

section Stores

variable (s : Queue) (n m : Node) (f : WindowQueue → WindowQueue)

theorem entry_modify :
    (s.modify n f).entry m = if m = n then f (s.entry n) else s.entry m := by
  cases n with
  | windowQueue => cases m <;> simp [modify, entry]
  | windowLine i =>
    cases m with
    | windowQueue => simp [modify, entry]
    | windowLine j =>
      by_cases h : j = i
      · subst h
        simp [modify, entry]
      · simp [modify, entry, h]

@[simp] theorem lastWindow_modify : (s.modify n f).lastWindow = s.lastWindow := by
  cases n <;> rfl

@[simp] theorem next_setNext (v : Option Node) :
    (s.setNext n v).next = update s.next n v := by
  funext m
  by_cases h : m = n <;> simp [setNext, next, entry_modify, update, h]

@[simp] theorem prev_setNext (v : Option Node) : (s.setNext n v).prev = s.prev := by
  funext m
  by_cases h : m = n <;> simp [setNext, prev, entry_modify, h]

@[simp] theorem owner_setNext (v : Option Node) : (s.setNext n v).owner = s.owner := by
  funext m
  by_cases h : m = n <;> simp [setNext, owner, entry_modify, h]

@[simp] theorem lastWindow_setNext (v : Option Node) :
    (s.setNext n v).lastWindow = s.lastWindow := lastWindow_modify s n _

@[simp] theorem next_setPrev (v : Option Node) : (s.setPrev n v).next = s.next := by
  funext m
  by_cases h : m = n <;> simp [setPrev, next, entry_modify, h]

@[simp] theorem prev_setPrev (v : Option Node) :
    (s.setPrev n v).prev = update s.prev n v := by
  funext m
  by_cases h : m = n <;> simp [setPrev, prev, entry_modify, update, h]

@[simp] theorem owner_setPrev (v : Option Node) : (s.setPrev n v).owner = s.owner := by
  funext m
  by_cases h : m = n <;> simp [setPrev, owner, entry_modify, h]

@[simp] theorem lastWindow_setPrev (v : Option Node) :
    (s.setPrev n v).lastWindow = s.lastWindow := lastWindow_modify s n _

@[simp] theorem next_setOwner (p : Option ProcPtr) (w : Int) :
    (s.setOwner n p w).next = s.next := by
  funext m
  by_cases h : m = n <;> simp [setOwner, next, entry_modify, h]

@[simp] theorem prev_setOwner (p : Option ProcPtr) (w : Int) :
    (s.setOwner n p w).prev = s.prev := by
  funext m
  by_cases h : m = n <;> simp [setOwner, prev, entry_modify, h]

@[simp] theorem owner_setOwner (p : Option ProcPtr) (w : Int) :
    (s.setOwner n p w).owner = update s.owner n (p, w) := by
  funext m
  by_cases h : m = n <;> simp [setOwner, owner, entry_modify, update, h]

@[simp] theorem lastWindow_setOwner (p : Option ProcPtr) (w : Int) :
    (s.setOwner n p w).lastWindow = s.lastWindow := lastWindow_modify s n _

@[simp] theorem next_setLast : (s.setLast n).next = s.next := rfl

@[simp] theorem prev_setLast : (s.setLast n).prev = s.prev := rfl

@[simp] theorem owner_setLast : (s.setLast n).owner = s.owner := rfl

@[simp] theorem lastWindow_setLast : (s.setLast n).lastWindow = n := rfl

@[simp] theorem next_retreatLast : (s.retreatLast n m).next = s.next := by
  unfold retreatLast
  split <;> rfl

@[simp] theorem prev_retreatLast : (s.retreatLast n m).prev = s.prev := by
  unfold retreatLast
  split <;> rfl

@[simp] theorem owner_retreatLast : (s.retreatLast n m).owner = s.owner := by
  unfold retreatLast
  split <;> rfl

@[simp] theorem lastWindow_retreatLast :
    (s.retreatLast n m).lastWindow = if m = s.lastWindow then n else s.lastWindow := by
  unfold retreatLast
  split <;> rfl

end Stores

end Queue

end Xv6Gui
