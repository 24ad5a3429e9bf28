import Xv6Gui.App.TextBox
import Xv6Gui.Kbd.Scan
import Xv6Gui.Mouse.Packets
import Xv6Gui.Window.RedrawSafety

/-!
# Page tables in interrupts

The handlers of the keyboard and of the mouse load the page tables of other processes and end
with `if (proc == 0) switchkvm(); else switchuvm(proc);`.

An interrupt comes only while the page table of the current process is loaded, or that of the kernel
if there is none: the calls that draw the windows of other processes hold `gui_lock` meanwhile, and
`sys_fileSystemChanged` calls `cli`.  So the end of a handler loads the page table that was loaded
before.  But `switchuvm` takes the kernel stack from `proc`, not from its argument, so every call of it
reads through a null pointer while the scheduler looks for a process.
-/

namespace Xv6Gui

open Runs

/-- An interrupt, with what the controller returns. -/
inductive Interrupt where
  | kbd (st data : UInt8)
  | mouse (tick : UInt32) (status ch : UInt8)

/-- The graphical part with the variables of `mouse.c` and of `kbd.c` when an interrupt comes. -/
structure Input where
  mouse : Mouse
  shift : UInt8
  /-- While another page table is loaded, interrupts are off. -/
  current : mouse.gui.loaded = mouse.gui.proc

/-! ## Handlers -/

/-- The part of a text box that the keyboard edits. -/
def TextBox.document (box : TextBox) : App.TextBox := ⟨box.cursor, box.textLength, box.text⟩

/-- What `insertCharacter`, `deleteCharacter` and `moveCursor` do to a text box for a character, and
whether they draw the window again.  A text box with an access outside of its text is left as it
is. -/
def editKey (c : UInt8) (box : TextBox) : TextBox × Bool :=
  match (App.keyboardHandler c).run box.document with
  | .error _ => (box, false)
  | .ok (_, doc) =>
    ({ box with cursor := doc.cursor, textLength := doc.textLength, text := doc.text },
      c < 225 ∧ c ≠ 8 ∨ doc.cursor ≠ box.cursor ∨ c = App.keyLf ∧ box.textLength ≠ 0)

/-- `kbdintr`, with the new value of `shift`. -/
def Input.kbdintr (s : Input) (st data : UInt8) : Option (Mouse × UInt8) :=
  if st &&& 0x01 = 0 then
    some (s.mouse, s.shift)
  else
    let (shift, c) := Kbd.scan s.shift data
    if c = 0 then
      some (s.mouse, shift)
    else
      (s.mouse.gui.keyboardHandler (editKey c)).map fun g => ({ s.mouse with gui := g }, shift)

/-- The handler of an interrupt. -/
def Input.interrupt (s : Input) : Interrupt → Option (Mouse × UInt8)
  | .kbd st data => s.kbdintr st data
  | .mouse tick status ch => (s.mouse.mouseint tick status ch).map (·, s.shift)

/-- The handler of an event loads the page table of another process.  A drag that starts at a
position with a coordinate 0 looks no window up, and a drag of no window does nothing. -/
def Mouse.SwitchesOn (s : Mouse) (event : Int) : Prop :=
  event = leftClick ∨ event = leftDoubleClick ∨ event = rightClick ∨
    (event = 0 ∧ s.dragState = 1) ∨
    (event = mouseDragging ∧
      (s.dragState = 1 ∨ (s.dragState = 0 ∧ s.downPosX ≠ 0 ∧ s.downPosY ≠ 0)))
  deriving Decidable

namespace Input

/-- The handler of an interrupt loads the page table of another process: for a key with a character,
and for the last byte of a packet with such an event. -/
def Switches (s : Input) : Interrupt → Prop
  | .kbd st data => st &&& 0x01 ≠ 0 ∧ (Kbd.scan s.shift data).2 ≠ 0
  | .mouse tick status ch => status &&& 0x01 ≠ 0 ∧ s.mouse.toRead = .yMovement ∧
      (s.mouse.packetEvent tick ch).1.SwitchesOn (s.mouse.packetEvent tick ch).2

/-- Without a current process the handler does not come to a `switchuvm`, which has no meaning
then.  When it returns, the page table is the one that was loaded before. -/
def Safe (s : Input) (i : Interrupt) : Prop :=
  (s.mouse.gui.proc = none → (s.interrupt i).isSome) ∧
    ∀ t, s.interrupt i = some t → t.1.gui.loaded = s.mouse.gui.loaded

end Input

/-! ## The page table at the end -/

namespace Gui

variable {s t : Gui}

theorem switchBack_loaded (h : s.switchBack = some t) : t.loaded = t.proc := by
  rw [switchBack_eq_some h]

theorem drawLastWindow_loaded (h : s.drawLastWindow = some t) : t.loaded = t.proc := by
  simp only [drawLastWindow, Runs.bind_some] at h
  obtain ⟨s₁, -, owner, -, w, -, s₂, -, back⟩ := h
  exact switchBack_loaded back

theorem updateLastWindow_loaded (h : s.updateLastWindow = some t) : t.loaded = t.proc := by
  simp only [updateLastWindow, Runs.bind_some] at h
  obtain ⟨s₁, -, s₂, drawn, h⟩ := h
  cases h
  have loaded := drawLastWindow_loaded drawn
  exact loaded

theorem updateBackWindows_loaded (h : s.updateBackWindows = some t) : t.loaded = t.proc := by
  simp only [updateBackWindows, Runs.bind_some] at h
  obtain ⟨s₁, -, s₂, drawn, h⟩ := h
  cases h
  have loaded := drawLastWindow_loaded drawn
  exact loaded

theorem handleLeftClick_loaded (h : s.handleLeftClick = some t) : t.loaded = t.proc := by
  simp only [handleLeftClick, Runs.bind_some] at h
  obtain ⟨⟨s₁, hit⟩, -, h⟩ := h
  cases hit with
  | none => exact switchBack_loaded h
  | some q =>
    dsimp only at h
    split at h
    · obtain ⟨u, -, h⟩ := Runs.bind_some.mp h
      exact switchBack_loaded h
    split at h
    · exact switchBack_loaded h
    · simp only [Runs.bind_some] at h
      obtain ⟨s₂, -, s₃, -, s₄, -, s₅, -, h⟩ := h
      exact switchBack_loaded h

theorem handleLeftDoubleClick_loaded (h : s.handleLeftDoubleClick = some t) :
    t.loaded = t.proc := by
  simp only [handleLeftDoubleClick, Runs.bind_some] at h
  obtain ⟨⟨s₁, hit⟩, -, h⟩ := h
  cases hit with
  | none => exact switchBack_loaded h
  | some q =>
    simp only [Runs.bind_some] at h
    obtain ⟨s₂, -, s₃, -, h⟩ := h
    exact switchBack_loaded h

theorem handleRightClick_loaded (h : s.handleRightClick = some t) : t.loaded = t.proc := by
  simp only [handleRightClick, Runs.bind_some] at h
  obtain ⟨r, -, h⟩ := h
  exact switchBack_loaded h

theorem keyboardHandler_loaded {edit : TextBox → TextBox × Bool}
    (h : s.keyboardHandler edit = some t) : t.loaded = t.proc ∧ t.proc = s.proc := by
  simp only [keyboardHandler, Runs.bind_some] at h
  obtain ⟨s₁, switched, w, -, h⟩ := h
  have first := (switchuvm_kept switched).proc
  split at h
  · exact ⟨switchBack_loaded h, (switchBack_kept h).proc.trans first⟩
  · obtain ⟨s₂, stored, h⟩ := Runs.bind_some.mp h
    have second := (storeWidget_kept stored).proc.trans first
    split at h
    · obtain ⟨s₃, drawn, h⟩ := Runs.bind_some.mp h
      have third := (updateLastWindow_kept drawn).proc.trans second
      exact ⟨switchBack_loaded h, (switchBack_kept h).proc.trans third⟩
    · exact ⟨switchBack_loaded h, (switchBack_kept h).proc.trans second⟩

end Gui

namespace Mouse

variable {s t : Mouse}

/-- Behind a handler the page table of the current process is loaded. -/
theorem dispatch_loaded {event : Int} (current : s.gui.loaded = s.gui.proc)
    (h : s.dispatch event = some t) : t.gui.loaded = t.gui.proc := by
  cases dispatch_cases h with
  | left clicked => exact Gui.handleLeftClick_loaded clicked
  | double clicked => exact Gui.handleLeftDoubleClick_loaded clicked
  | drag _ back => exact Gui.switchBack_loaded back
  | right clicked => exact Gui.handleRightClick_loaded clicked
  | settle _ settled => exact Gui.updateLastWindow_loaded settled
  | release | other => exact current

theorem mouseint_loaded {tick : UInt32} {status ch : UInt8} (current : s.gui.loaded = s.gui.proc)
    (h : s.mouseint tick status ch = some t) :
    t.gui.loaded = t.gui.proc ∧ t.gui.proc = s.gui.proc := by
  obtain ⟨-, toRead, l, r, xs, ys, dx, same⟩ | ⟨-, same⟩ := s.mouseint_packet tick status ch
  · obtain rfl := Option.some.inj (same.symm.trans h)
    exact ⟨current, rfl⟩
  · rw [same] at h
    obtain ⟨u, dispatched, rfl⟩ := Option.map_eq_some_iff.mp h
    have gui := packetEvent_gui s tick ch
    have loaded := dispatch_loaded (by rw [gui]; exact current) dispatched
    have proc := (dispatch_noted dispatched).2
    rw [gui] at proc
    exact ⟨loaded, proc⟩

end Mouse

/-! ## Without a current process -/

namespace Gui

variable {s : Gui} (idle : s.proc = none)

include idle

theorem switchuvm_idle (p : Option ProcPtr) : s.switchuvm p = none := by
  simp [switchuvm, idle]

theorem switchBack_idle : s.switchBack = some s.switchkvm := by
  simp only [switchBack, idle]

theorem windowAt_idle (x y : Int) (fuel : Nat) (p : Node) :
    s.windowAt x y (fuel + 1) (some p) = none := by
  simp [windowAt, switchuvm_idle idle]

theorem getClickedWindowQueue_idle : s.getClickedWindowQueue = none :=
  windowAt_idle idle _ _ _ _

theorem updateLastWindow_idle : s.updateLastWindow = none := by
  simp [updateLastWindow, removeLastWindow, switchuvm_idle idle]

theorem keyboardHandler_idle (edit : TextBox → TextBox × Bool) : s.keyboardHandler edit = none := by
  simp [keyboardHandler, switchuvm_idle idle]

end Gui

namespace Mouse

variable {s t : Mouse}

theorem getDraggedWindowQueue_idle (idle : s.gui.proc = none) :
    s.getDraggedWindowQueue = if s.downPosX = 0 ∨ s.downPosY = 0 then some (s.gui, none) else none := by
  simp only [getDraggedWindowQueue, Queue.queueFuel, Gui.windowAt_idle idle]
  rfl

theorem handleMouseDrag_idle (idle : s.gui.proc = none) : s.handleMouseDrag.isSome ↔
    ¬ (s.dragState = 1 ∨ (s.dragState = 0 ∧ s.downPosX ≠ 0 ∧ s.downPosY ≠ 0)) := by
  by_cases zero : s.dragState = 0
  · by_cases edge : s.downPosX = 0 ∨ s.downPosY = 0
    · have none : s.startDrag = some { s with gui := s.gui, pwque := none, dragState := 2 } := by
        simp [startDrag, getDraggedWindowQueue_idle idle, edge]
      simp [handleMouseDrag, drag, zero, none, Gui.switchBack_idle idle]
      tauto
    · have stuck : s.startDrag = none := by
        simp [startDrag, getDraggedWindowQueue_idle idle, edge]
      simp [handleMouseDrag, drag, zero, stuck]
      tauto
  · by_cases one : s.dragState = 1
    · have stuck : s.continueDrag = none := by
        cases hp : s.pwque <;> simp [continueDrag, hp, Gui.switchuvm_idle idle]
      simp [handleMouseDrag, drag, one, stuck]
    · simp [handleMouseDrag, drag, zero, one, Gui.switchBack_idle idle]

/-- Without a current process, the handlers that load a page table do not come to an end. -/
theorem dispatch_idle {event : Int} (idle : s.gui.proc = none) :
    (s.dispatch event).isSome ↔ ¬ s.SwitchesOn event := by
  rw [dispatch]
  split
  · rename_i left
    subst left
    have switches : s.SwitchesOn leftClick := .inl rfl
    simp [Gui.handleLeftClick, Gui.getClickedWindowQueue_idle idle, switches]
  rename_i left
  split
  · rename_i double
    subst double
    have switches : s.SwitchesOn leftDoubleClick := .inr (.inl rfl)
    simp [Gui.handleLeftDoubleClick, Gui.getClickedWindowQueue_idle idle, switches]
  rename_i double
  split
  · rename_i drag
    subst drag
    have others : mouseDragging ≠ leftClick ∧ mouseDragging ≠ leftDoubleClick ∧
        mouseDragging ≠ rightClick ∧ mouseDragging ≠ 0 := by decide
    rw [handleMouseDrag_idle idle]
    simp [SwitchesOn, others]
  rename_i drag
  split
  · rename_i right
    subst right
    have switches : s.SwitchesOn rightClick := .inr (.inr (.inl rfl))
    simp [Gui.handleRightClick, Gui.getClickedWindowQueue_idle idle, switches]
  rename_i right
  split
  · rename_i zero
    by_cases one : s.dragState = 1
    · simp [settleDrag, one, Gui.updateLastWindow_idle idle, SwitchesOn, zero]
    · simp [settleDrag, one, SwitchesOn, left, double, drag, right]
  · rename_i other
    simp [SwitchesOn, left, double, drag, right, other]

end Mouse

/-! ## Interrupts -/

namespace Input

variable {s : Input} {i : Interrupt} {t : Mouse × UInt8}

theorem interrupt_loaded (h : s.interrupt i = some t) : t.1.gui.loaded = s.mouse.gui.loaded := by
  rw [s.current]
  cases i with
  | kbd st data =>
    simp only [interrupt, kbdintr] at h
    split at h
    · cases h
      exact s.current
    split at h
    · cases h
      exact s.current
    · obtain ⟨g, handled, rfl⟩ := Option.map_eq_some_iff.mp h
      obtain ⟨loaded, proc⟩ := Gui.keyboardHandler_loaded handled
      exact loaded.trans proc
  | mouse tick status ch =>
    obtain ⟨m, handled, rfl⟩ := Option.map_eq_some_iff.mp h
    obtain ⟨loaded, proc⟩ := Mouse.mouseint_loaded s.current handled
    exact loaded.trans proc

theorem interrupt_idle (idle : s.mouse.gui.proc = none) :
    (s.interrupt i).isSome ↔ ¬ s.Switches i := by
  cases i with
  | kbd st data =>
    simp only [interrupt, kbdintr, Gui.keyboardHandler_idle idle, Switches]
    split
    · simp_all
    split <;> simp_all
  | mouse tick status ch =>
    rw [interrupt, Option.isSome_map]
    obtain ⟨early, toRead, l, r, xs, ys, dx, same⟩ | ⟨third, same⟩ :=
      s.mouse.mouseint_packet tick status ch
    · rw [same]
      exact ⟨fun _ on => early ⟨on.1, on.2.1⟩, fun _ => rfl⟩
    · have idle' : (s.mouse.packetEvent tick ch).1.gui.proc = none := by
        rw [Mouse.packetEvent_gui]
        exact idle
      rw [same, Option.isSome_map, Mouse.dispatch_idle idle', Switches]
      exact not_congr ⟨fun on => ⟨third.1, third.2, on⟩, fun on => on.2.2⟩

end Input

/-- An interrupt reads through no null `proc` and keeps the page table that is loaded, if and only
if there is a current process or the handler loads no page table of another process. -/
theorem interrupt_safe_iff (s : Input) (i : Interrupt) :
    s.Safe i ↔ (s.mouse.gui.proc = none → ¬ s.Switches i) := by
  constructor
  · intro safe idle
    exact (Input.interrupt_idle idle).mp (safe.1 idle)
  · intro quiet
    exact ⟨fun idle => (Input.interrupt_idle idle).mpr (quiet idle), fun t => Input.interrupt_loaded⟩

/-! ## Runs -/

namespace Mouse

variable {s t : Mouse}

/-- Between two events the page table of the current process is loaded. -/
theorem DeskStep.current {e : DeskEvent} (h : s.gui.loaded = s.gui.proc) (step : s.DeskStep e t) :
    t.gui.loaded = t.gui.proc := by
  obtain ⟨-, step⟩ := step
  cases e with
  | mouseint tick status ch => exact (mouseint_loaded h step).1
  | createWindow arg =>
    obtain ⟨⟨r, g⟩, call, rfl⟩ := Option.map_eq_some_iff.mp step
    simp only [Gui.sysCreateWindow, Runs.bind_some] at call
    obtain ⟨p, -, ⟨r, queue⟩, -, call⟩ := call
    split at call
    · cases call
      exact h
    · obtain ⟨u, drawn, call⟩ := Runs.bind_some.mp call
      cases call
      exact Gui.updateBackWindows_loaded drawn
  | deleteWindow arg =>
    obtain ⟨⟨r, g⟩, call, rfl⟩ := Option.map_eq_some_iff.mp step
    simp only [Gui.sysDeleteWindow, Runs.bind_some] at call
    obtain ⟨⟨r, queue⟩, -, call⟩ := call
    split at call
    · cases call
      exact h
    · obtain ⟨u, drawn, call⟩ := Runs.bind_some.mp call
      cases call
      exact Gui.updateBackWindows_loaded drawn
  | reorderQueue q =>
    obtain ⟨g, call, rfl⟩ := Option.map_eq_some_iff.mp step
    obtain ⟨queue, -, drawn⟩ := Runs.bind_some.mp call
    exact Gui.updateBackWindows_loaded drawn
  | schedule p =>
    cases step
    rfl
  | user window icon =>
    cases step
    exact h

theorem current_of_run {es : List DeskEvent} (run : Steps Mouse.DeskStep deskBoot es s) :
    s.gui.loaded = s.gui.proc :=
  run.invariant (I := fun s => s.gui.loaded = s.gui.proc) rfl fun h step => step.current h

end Mouse

/-- A process has a window, the left button goes down, and the scheduler looks for a process. -/
def pressedIdle : List DeskEvent :=
  .createWindow (some 4096) :: press ++ [.schedule none]

theorem pressedIdle_steps {s : Mouse} (h : exec Mouse.next deskBoot pressedIdle = some s) :
    Steps Mouse.DeskStep deskBoot pressedIdle s :=
  (Steps.of_exec h).mono_of_mem fun e he _ _ step => by
    simp only [pressedIdle, press, List.mem_cons, List.mem_append, List.not_mem_nil, or_false] at he
    rcases he with (rfl | rfl | rfl | rfl | rfl | rfl) | rfl <;> exact ⟨trivial, step⟩

/-- The button goes up, or a key is pressed, while the scheduler looks for a process. -/
theorem interrupt_unsafe : ∃ s : Input, Steps Mouse.DeskStep deskBoot pressedIdle s.mouse ∧
    s.mouse.gui.proc = none ∧ ¬ s.Safe (.mouse 100 1 0) ∧ ¬ s.Safe (.kbd 1 0x1e) := by
  have result : (exec Mouse.next deskBoot pressedIdle).any (fun s => s.gui.proc = none ∧
      s.toRead = .yMovement ∧
        (s.packetEvent 100 0).1.SwitchesOn (s.packetEvent 100 0).2) = true := by
    decide +kernel
  obtain ⟨m, run, e⟩ := (Option.any_eq_true _ _).mp result
  obtain ⟨idle, third, switches⟩ := of_decide_eq_true e
  have steps := pressedIdle_steps run
  let s : Input := ⟨m, 0, Mouse.current_of_run steps⟩
  have stuck (i : Interrupt) (h : s.Switches i) : ¬ s.Safe i := fun safe =>
    (Input.interrupt_idle idle).mp (safe.1 idle) h
  have char : (Kbd.scan 0 0x1e).2 ≠ 0 := by decide +kernel
  exact ⟨s, steps, idle, stuck _ ⟨by decide, third, switches⟩, stuck _ ⟨by decide, char⟩⟩

end Xv6Gui
