import Xv6Gui.Gui.Pointer
import Xv6Gui.Mouse.QueueSteps

/-!
# Lookups on a desktop

The first window is a desktop over the whole screen.  A lookup of a position on the screen
then ends at the desktop at the latest.

The screen has the columns 0 to 1279 and the rows 0 to 1023.  `setMousePosition` lets the
pointer come to column 1280 and to row 1024, and `down_pos_x` and `down_pos_y` are the position
before it is clamped.  There no window is around, unless it reaches over the edge of the screen,
and the lookup comes to the sentinel.
-/

namespace Xv6Gui

open Runs

/-- A window over the whole screen. -/
def Window.Covers (w : Window) : Prop := w.rect = (0, 0, screenWidth, screenHeight)

theorem Window.Covers.inWindowRange {w : Window} (h : w.Covers) (x y : Int) :
    inWindowRange w x y = true ↔ OnScreen x y := by
  simp only [Covers, rect, Prod.mk.injEq] at h
  obtain ⟨hx, hy, hw, hh⟩ := h
  simp only [Xv6Gui.inWindowRange, inRange, hx, hy, hw, hh, zero_add, Bool.and_eq_true,
    decide_eq_true_eq, ge_iff_le, OnScreen, and_assoc]

namespace Gui

variable {s t : Gui} {p : ProcPtr} {a : Int}

/-- The pointer is on the screen, or on the column or the row behind it. -/
def PointerIn (s : Gui) : Prop :=
  0 ≤ s.mouseInfo.xPosition ∧ s.mouseInfo.xPosition ≤ screenWidth ∧
    0 ≤ s.mouseInfo.yPosition ∧ s.mouseInfo.yPosition ≤ screenHeight

/-- The window of process `p` at the address `a` is in the first slot and covers the screen. -/
structure Desktop (s : Gui) (p : ProcPtr) (a : Int) : Prop where
  windows : ∃ l, s.queue.Windows l ∧ 0 ∈ l
  owner : s.queue.owner (.windowLine 0) = (some p, a)
  covers : (s.window p a).Covers
  pointer : s.PointerIn

/-- Windows that stay where they are. -/
theorem Framed.covers (h : Framed s t) (covers : (s.window p a).Covers) :
    (t.window p a).Covers := (h.rect p a).trans covers

theorem Framed.pointerIn (h : Framed s t) (pointer : s.PointerIn) : t.PointerIn := by
  rw [PointerIn, h.xPosition, h.yPosition]
  exact pointer

theorem Desktop.kept (h : s.Desktop p a) (kept : Kept s t) : t.Desktop p a where
  windows := by
    rw [kept.queue]
    exact h.windows
  owner := by
    rw [kept.queue]
    exact h.owner
  covers := kept.covers h.covers
  pointer := kept.pointerIn h.pointer

/-- Raising a window. -/
theorem Desktop.raise {q : Node} (h : s.Desktop p a) (framed : Framed s t)
    (queued : ∀ l, s.queue.Windows l → ∃ i ∈ l, q = .windowLine i) (last : q ≠ s.queue.lastWindow)
    (raised : s.queue.reorderQueue q = some t.queue) : t.Desktop p a := by
  obtain ⟨l, windows, zero⟩ := h.windows
  obtain ⟨i, hi, rfl⟩ := queued l windows
  obtain ⟨windows', owner⟩ := windows.reorderQueue hi last raised
  refine ⟨⟨_, windows', ?_⟩, owner ▸ h.owner, framed.covers h.covers, framed.pointerIn h.pointer⟩
  by_cases first : i = 0
  · simp [first]
  · exact List.mem_append_left _ ((List.mem_erase_of_ne (Ne.symm first)).mpr zero)

/-- A lookup comes to the sentinel if the position is off the screen and no other window is
around it. -/
theorem Desktop.sentinel_notMem_lookup (h : s.Desktop p a) (x y : Int) :
    .windowQueue ∉ s.lookup x y ↔ OnScreen x y ∨
      ∃ i : Slot, i ≠ 0 ∧ s.queue.OnQueue (.windowLine i) ∧ s.around x y (.windowLine i) = true := by
  obtain ⟨l, windows, zero⟩ := h.windows
  have proc : (s.queue.entry (.windowLine 0)).proc = some p := congrArg Prod.fst h.owner
  have addr : (s.queue.entry (.windowLine 0)).window = a := congrArg Prod.snd h.owner
  have desktop : s.around x y (.windowLine 0) = true ↔ OnScreen x y := by
    rw [around, proc, addr, Option.any_some, h.covers.inWindowRange]
  rw [sentinel_mem_lookup windows]
  push Not
  simp only [Bool.not_eq_false]
  constructor
  · rintro ⟨i, hi, inside⟩
    by_cases first : i = 0
    · subst first
      exact .inl (desktop.mp inside)
    · exact .inr ⟨i, first, windows.onQueue_iff.mpr hi, inside⟩
  · rintro (inside | ⟨i, -, queued, inside⟩)
    · exact ⟨0, zero, desktop.mpr inside⟩
    · exact ⟨i, windows.onQueue_iff.mp queued, inside⟩

theorem clampMove_covers (d limit : Int) : clampMove 0 limit limit d = 0 := by
  simp only [clampMove]
  split <;> split <;> omega

/-- A drag does not move the desktop. -/
theorem Desktop.moveWindow {addr fx fy tx ty : Int} {isdraw : Bool} (h : s.Desktop p a)
    (call : s.moveWindow addr fx fy tx ty isdraw = some t) : t.Desktop p a := by
  obtain ⟨o, -, kept⟩ := moveWindow_kept call
  suffices covers : ((s.draggedTo o addr (tx - fx) (ty - fy)).window p a).Covers by
    have moved : (s.draggedTo o addr (tx - fx) (ty - fy)).Desktop p a :=
      ⟨h.windows, h.owner, covers, h.pointer⟩
    exact moved.kept kept
  by_cases same : p = o ∧ a = addr
  · obtain ⟨rfl, rfl⟩ := same
    have covers := h.covers
    simp only [Window.Covers, Window.rect, Prod.mk.injEq] at covers
    obtain ⟨hx, hy, hw, hh⟩ := covers
    simp only [draggedTo, Function.update_self, Window.Covers, Window.rect, hx, hy, hw, hh,
      clampMove_covers, zero_add]
  · rw [draggedTo_of_ne s (by tauto)]
    exact h.covers

end Gui

namespace Mouse

variable {s t : Mouse} {p : ProcPtr} {a : Int}

/-! ## Packets -/

theorem drag_desktop (h : s.gui.Desktop p a) (drags : s.Drags t) : t.gui.Desktop p a := by
  cases drags with
  | start _ call =>
    obtain ⟨framed, -, ⟨-, -, queue⟩ | ⟨q, hit, -, ⟨-, queue⟩ | ⟨last, raised⟩⟩⟩ :=
      startDrag_framed call
    · exact h.kept ⟨framed, queue⟩
    · exact h.kept ⟨framed, queue⟩
    · exact h.raise framed (fun l windows => dragged_slot windows hit) last raised
  | move _ _ switched moved => exact (h.kept (Gui.switchuvm_kept switched)).moveWindow moved
  | idle => exact h

theorem dispatch_desktop {event : Int} (h : s.gui.Desktop p a) (call : s.dispatch event = some t) :
    t.gui.Desktop p a := by
  cases dispatch_cases call with
  | left clicked =>
    obtain ⟨framed, ⟨-, queue⟩ | ⟨q, hit, last, -, raised⟩⟩ := Gui.handleLeftClick_framed clicked
    · exact h.kept ⟨framed, queue⟩
    · exact h.raise framed (fun l windows => Gui.clicked_slot windows hit) last raised
  | double clicked => exact h.kept (Gui.handleLeftDoubleClick_kept clicked)
  | drag drags back => exact (drag_desktop h drags).kept (Gui.switchBack_kept back)
  | right clicked => exact h.kept (Gui.handleRightClick_kept clicked)
  | settle _ settled => exact h.kept (Gui.updateLastWindow_kept settled)
  | release | other => exact h

theorem packetEvent_desktop (h : s.gui.Desktop p a) (tick : UInt32) (ch : UInt8) :
    (s.packetEvent tick ch).1.gui.Desktop p a := by
  rw [packetEvent_gui]
  exact ⟨h.windows, h.owner, h.covers, h.pointer⟩

theorem setMousePosition_pointerIn (g : Gui) (x y : Int) :
    (g.setMousePosition x y).PointerIn := by
  have hx : 0 ≤ screenWidth := by decide
  have hy : 0 ≤ screenHeight := by decide
  show 0 ≤ (if (if x < 0 then 0 else x) > screenWidth then screenWidth else if x < 0 then 0 else x) ∧
    (if (if x < 0 then 0 else x) > screenWidth then screenWidth else if x < 0 then 0 else x) ≤
      screenWidth ∧
    0 ≤ (if (if y < 0 then 0 else y) > screenHeight then screenHeight else if y < 0 then 0 else y) ∧
    (if (if y < 0 then 0 else y) > screenHeight then screenHeight else if y < 0 then 0 else y) ≤
      screenHeight
  refine ⟨?_, ?_, ?_, ?_⟩ <;> split_ifs <;> omega

theorem mouseint_desktop {tick : UInt32} {status ch : UInt8} (h : s.gui.Desktop p a)
    (call : s.mouseint tick status ch = some t) : t.gui.Desktop p a := by
  rw [mouseint] at call
  split at call
  · cases call
    exact h
  split at call
  · split at call <;> cases call <;> exact h
  · cases call
    exact h
  · obtain ⟨u, handled, call⟩ := Runs.bind_some.mp call
    cases call
    have handled := dispatch_desktop (packetEvent_desktop h tick ch) handled
    exact ⟨handled.windows, handled.owner, handled.covers, setMousePosition_pointerIn _ _ _⟩

/-! ## Calls -/

theorem createWindow_desktop {arg : Option Int} {r : Int} {g g' : Gui} (h : g.Desktop p a)
    (call : g.sysCreateWindow arg = some (r, g')) : g'.Desktop p a := by
  obtain ⟨l, windows, zero⟩ := h.windows
  obtain ⟨framed, c, -, created⟩ := Gui.sysCreateWindow_framed windows call
  obtain ⟨-, same⟩ | ⟨w, i, -, -, fresh, windows', owner⟩ := windows.sysCreateWindow created
  · exact h.kept ⟨framed, same⟩
  · have other : (0 : Slot) ≠ i := fun e => fresh (e ▸ zero)
    refine ⟨⟨_, windows', List.mem_append_left _ zero⟩, ?_, framed.covers h.covers,
      framed.pointerIn h.pointer⟩
    rw [owner, Function.update_of_ne (by simpa using other)]
    exact h.owner

theorem deleteWindow_desktop {arg : Option Int} {r : Int} {g g' : Gui} (h : g.Desktop p a)
    (other : arg ≠ some 0) (call : g.sysDeleteWindow arg = some (r, g')) : g'.Desktop p a := by
  obtain ⟨l, windows, zero⟩ := h.windows
  obtain ⟨framed, deleted⟩ := Gui.sysDeleteWindow_framed windows call
  obtain ⟨-, same, -⟩ | ⟨i, hi, rfl, -, windows', owner⟩ := windows.sysDeleteWindow deleted
  · exact h.kept ⟨framed, same⟩
  · have first : (0 : Slot) ≠ i := by
      rintro rfl
      exact other rfl
    refine ⟨⟨_, windows', (List.mem_erase_of_ne first).mpr zero⟩, ?_, framed.covers h.covers,
      framed.pointerIn h.pointer⟩
    rw [owner, Function.update_of_ne (by simpa using first)]
    exact h.owner

/-! ## Runs -/

/-- The position at which the handler of an event looks up a window. -/
def eventAt (s : Mouse) (event : Int) : Option (Int × Int) :=
  if event = leftClick ∨ event = leftDoubleClick ∨ event = rightClick then
    some (s.gui.mouseInfo.xPosition, s.gui.mouseInfo.yPosition)
  else if event = mouseDragging ∧ s.dragState = 0 ∧ s.downPosX ≠ 0 ∧ s.downPosY ≠ 0 then
    some (s.downPosX, s.downPosY)
  else
    none

/-- The position at which a byte of the mouse makes a handler look up a window. -/
def lookupAt (s : Mouse) (tick : UInt32) (status ch : UInt8) : Option (Int × Int) :=
  if status &&& 0x01 = 0 ∨ s.toRead ≠ .yMovement then
    none
  else
    (s.packetEvent tick ch).1.eventAt (s.packetEvent tick ch).2

/-- A handler does not return from a lookup that comes to the sentinel. -/
theorem dispatch_eq_none {l : List Slot} {event x y : Int} (windows : s.gui.queue.Windows l)
    (at_ : s.eventAt event = some (x, y)) (sentinel : .windowQueue ∈ s.gui.lookup x y) :
    s.dispatch event = none := by
  have stuck : s.gui.windowAt x y Queue.queueFuel (some s.gui.queue.lastWindow) = none := by
    cases call : s.gui.windowAt x y Queue.queueFuel (some s.gui.queue.lastWindow) with
    | none => rfl
    | some r =>
      obtain ⟨i, hi, -, inside⟩ := Gui.windowAt_slot windows call
      rw [(Gui.sentinel_mem_lookup windows).mp sentinel i hi] at inside
      cases inside
  rw [eventAt] at at_
  split at at_
  · rename_i click
    cases at_
    have noClick : s.gui.getClickedWindowQueue = none := stuck
    rcases click with rfl | rfl | rfl
    · rw [dispatch, if_pos rfl, Gui.handleLeftClick, noClick]
      rfl
    · rw [dispatch, if_neg (by decide), if_pos rfl, Gui.handleLeftDoubleClick, noClick]
      rfl
    · rw [dispatch, if_neg (by decide), if_neg (by decide), if_neg (by decide), if_pos rfl,
        Gui.handleRightClick, noClick]
      rfl
  split at at_
  · rename_i start
    cases at_
    obtain ⟨rfl, idle, hx, hy⟩ := start
    have noDrag : s.getDraggedWindowQueue = none := by
      rw [getDraggedWindowQueue, if_neg (by simp [hx, hy]), stuck]
      rfl
    rw [dispatch, if_neg (by decide), if_neg (by decide), if_pos rfl, handleMouseDrag, drag,
      if_pos idle, startDrag, noDrag]
    rfl
  · cases at_

theorem mouseint_eq_none {l : List Slot} {tick : UInt32} {status ch : UInt8} {x y : Int}
    (windows : s.gui.queue.Windows l) (at_ : s.lookupAt tick status ch = some (x, y))
    (sentinel : .windowQueue ∈ s.gui.lookup x y) : s.mouseint tick status ch = none := by
  rw [lookupAt] at at_
  split at at_
  · cases at_
  rename_i third
  push Not at third
  have gui := packetEvent_gui s tick ch
  have windows' : (s.packetEvent tick ch).1.gui.queue.Windows l := by
    rw [gui]
    exact windows
  have sentinel' : .windowQueue ∈ (s.packetEvent tick ch).1.gui.lookup x y := by
    rw [Gui.sentinel_mem_lookup windows', gui]
    exact (Gui.sentinel_mem_lookup windows).mp sentinel
  have stuck := dispatch_eq_none windows' at_ sentinel'
  rw [mouseint, if_neg third.1, third.2]
  show ((s.packetEvent tick ch).1.dispatch (s.packetEvent tick ch).2).bind _ = _
  rw [stuck]
  rfl

end Mouse

/-- What happens on the screen: a byte of the mouse, a call, a switch to another process, or
processes that write to their memory. -/
inductive DeskEvent where
  | mouseint (tick : UInt32) (status ch : UInt8)
  | createWindow (arg : Option Int)
  | deleteWindow (arg : Option Int)
  | reorderQueue (q : Slot)
  | schedule (p : Option ProcPtr)
  | user (window : ProcPtr → Int → Window) (icon : ProcPtr → Int → IconView)

namespace Mouse

variable {s t : Mouse} {p : ProcPtr} {a : Int}

/-- The state after an event. -/
def next (s : Mouse) : DeskEvent → Option Mouse
  | .mouseint tick status ch => s.step (.mouseint tick status ch)
  | .createWindow arg => s.step (.createWindow arg)
  | .deleteWindow arg => s.step (.deleteWindow arg)
  | .reorderQueue q => s.step (.reorderQueue (.windowLine q))
  | .schedule p => s.step (.schedule p)
  | .user window icon => some { s with gui := { s.gui with window := window, icon := icon } }

/-- `reorderQueue` is called for an entry of the queue that is not the last one. -/
def Called (s : Mouse) : DeskEvent → Prop
  | .reorderQueue q =>
    s.gui.queue.OnQueue (.windowLine q) ∧ .windowLine q ≠ s.gui.queue.lastWindow
  | _ => True

/-- One step. -/
def DeskStep (s : Mouse) (e : DeskEvent) (t : Mouse) : Prop := s.Called e ∧ s.next e = some t

/-- The desktop is not deleted, and its process leaves it where it is. -/
def KeepsDesktop (p : ProcPtr) (a : Int) (_ : Mouse) : DeskEvent → Prop
  | .deleteWindow arg => arg ≠ some 0
  | .user window _ => (window p a).Covers
  | _ => True

theorem DeskStep.desktop {e : DeskEvent} (h : s.gui.Desktop p a) (keeps : KeepsDesktop p a s e)
    (step : s.DeskStep e t) : t.gui.Desktop p a := by
  obtain ⟨called, step⟩ := step
  cases e with
  | mouseint tick status ch => exact mouseint_desktop h step
  | createWindow arg =>
    obtain ⟨⟨r, g⟩, call, rfl⟩ := Option.map_eq_some_iff.mp step
    exact createWindow_desktop h call
  | deleteWindow arg =>
    obtain ⟨⟨r, g⟩, call, rfl⟩ := Option.map_eq_some_iff.mp step
    exact deleteWindow_desktop h keeps call
  | reorderQueue q =>
    obtain ⟨g, call, rfl⟩ := Option.map_eq_some_iff.mp step
    obtain ⟨framed, raised⟩ := Gui.reorderQueue_framed call
    exact h.raise framed (fun l windows => ⟨q, called.1.mem windows.toRepresents, rfl⟩) called.2
      raised
  | schedule p =>
    cases step
    exact ⟨h.windows, h.owner, h.covers, h.pointer⟩
  | user window icon =>
    cases step
    exact ⟨h.windows, h.owner, keeps, h.pointer⟩

/-- The first window that is created is in the first slot. -/
theorem first_desktop (boot : s.AtBoot) (current : s.gui.proc = some p)
    (covers : (s.gui.window p a).Covers) (pointer : s.gui.PointerIn)
    (step : s.next (.createWindow (some a)) = some t) : t.gui.Desktop p a := by
  obtain ⟨⟨r, g⟩, call, rfl⟩ := Option.map_eq_some_iff.mp step
  have windows : s.gui.queue.Windows [] := boot.queue ▸ Queue.initWindow_windows
  obtain ⟨framed, c, caller, created⟩ := Gui.sysCreateWindow_framed windows call
  obtain rfl := Option.some.inj (current.symm.trans caller)
  have slot : r = ((0 : Slot) : Nat) := by
    have acquire : Queue.initWindow.acquireWindow = some 0 := by decide
    rw [boot.queue, Queue.sysCreateWindow, acquire] at created
    obtain ⟨queue, _, e⟩ := Runs.bind_some.mp created
    cases e
    rfl
  obtain ⟨rfl, -⟩ | ⟨w, i, harg, hi, -, windows', owner⟩ := windows.sysCreateWindow created
  · cases slot
  · obtain rfl : i = 0 := Fin.ext (by omega)
    cases harg
    refine ⟨⟨_, windows', by simp⟩, ?_, framed.covers covers, framed.pointerIn pointer⟩
    rw [owner, Function.update_self]

end Mouse

/-- A desktop is the first window and is not deleted.  Then a lookup ends before it comes to
the sentinel if and only if its position is on the screen or in a window that reaches over the
edge of the screen.  The position of a click is at most one column or row off the screen.  A
lookup that comes to the sentinel does not return. -/
theorem lookup_ends_before_sentinel {s₀ s₁ s : Mouse} {p : ProcPtr} {a : Int} {es : List DeskEvent}
    (boot : s₀.AtBoot) (current : s₀.gui.proc = some p) (pointer : s₀.gui.PointerIn)
    (covers : (s₀.gui.window p a).Covers) (create : s₀.next (.createWindow (some a)) = some s₁)
    (run : Steps (Guarded Mouse.DeskStep (Mouse.KeepsDesktop p a)) s₁ es s) :
    s.gui.PointerIn ∧ ∀ tick status ch x y, s.lookupAt tick status ch = some (x, y) →
      (.windowQueue ∉ s.gui.lookup x y ↔ OnScreen x y ∨ ∃ i : Slot, i ≠ 0 ∧
        s.gui.queue.OnQueue (.windowLine i) ∧ s.gui.around x y (.windowLine i) = true) ∧
      (.windowQueue ∈ s.gui.lookup x y → s.mouseint tick status ch = none) := by
  have desktop : s.gui.Desktop p a :=
    run.invariant (I := fun s => s.gui.Desktop p a)
      (Mouse.first_desktop boot current covers pointer create)
      fun h step => step.2.desktop h step.1
  refine ⟨desktop.pointer, ?_⟩
  intro tick status ch x y at_
  obtain ⟨l, windows, -⟩ := desktop.windows
  exact ⟨desktop.sentinel_notMem_lookup x y, Mouse.mouseint_eq_none windows at_⟩

/-- The machine after `mouseinit`, with a window over the whole screen in each process. -/
def deskBoot : Mouse :=
  { sampleBoot with gui := { sampleBoot.gui with window := fun p a =>
      { sampleBoot.gui.window p a with
        leftTopX := 0, leftTopY := 0, width := screenWidth, height := screenHeight } } }

theorem deskBoot_atBoot : deskBoot.AtBoot := ⟨rfl, rfl, rfl⟩

theorem deskBoot_pointerIn : deskBoot.gui.PointerIn := by
  rw [Gui.PointerIn]
  decide

/-- A packet that moves to the right. -/
def moveRight : List DeskEvent := [.mouseint 50 1 8, .mouseint 50 1 255, .mouseint 50 1 0]

/-- The button goes down, and the first two bytes of the packet with which it goes up. -/
def press : List DeskEvent :=
  [.mouseint 100 1 9, .mouseint 100 1 0, .mouseint 100 1 0, .mouseint 100 1 8, .mouseint 100 1 0]

/-- Bytes of the mouse do nothing to the desktop that is forbidden. -/
theorem steps_of_bytes {p : ProcPtr} {a : Int} {es : List DeskEvent} {s t : Mouse}
    (bytes : ∀ e ∈ es, ∃ tick status ch, e = .mouseint tick status ch)
    (h : exec Mouse.next s es = some t) :
    Steps (Guarded Mouse.DeskStep (Mouse.KeepsDesktop p a)) s es t := by
  refine (Steps.of_exec h).mono_of_mem ?_
  intro e he s t step
  obtain ⟨tick, status, ch, rfl⟩ := bytes e he
  exact ⟨trivial, trivial, step⟩

theorem lookup_ends_before_sentinel_middle :
    ∃ s₁ s, deskBoot.next (.createWindow (some 4096)) = some s₁ ∧
      Steps (Guarded Mouse.DeskStep (Mouse.KeepsDesktop 1 4096)) s₁ press s ∧
      s.lookupAt 100 1 0 = some (640, 512) ∧ .windowQueue ∉ s.gui.lookup 640 512 := by
  have result : ((deskBoot.next (.createWindow (some 4096))).bind fun s₁ =>
      (exec Mouse.next s₁ press).map fun s => s.lookupAt 100 1 0) = some (some (640, 512)) := by
    decide +kernel
  obtain ⟨s₁, create, result⟩ := Runs.bind_some.mp result
  obtain ⟨s, run, at_⟩ := Option.map_eq_some_iff.mp result
  have run := steps_of_bytes (p := 1) (a := 4096) (by simp [press]) run
  obtain ⟨-, lookups⟩ := lookup_ends_before_sentinel deskBoot_atBoot rfl deskBoot_pointerIn rfl
    create run
  refine ⟨s₁, s, create, run, at_, ?_⟩
  rw [(lookups 100 1 0 640 512 at_).1]
  exact .inl (by rw [OnScreen]; decide)

/-- The pointer is moved to the right edge of the screen.  A click there comes to the
sentinel. -/
theorem lookup_comes_to_sentinel :
    ∃ s₁ s, deskBoot.next (.createWindow (some 4096)) = some s₁ ∧
      Steps (Guarded Mouse.DeskStep (Mouse.KeepsDesktop 1 4096)) s₁
        (moveRight ++ moveRight ++ moveRight ++ press) s ∧
      s.lookupAt 100 1 0 = some (1280, 512) ∧ .windowQueue ∈ s.gui.lookup 1280 512 ∧
      s.mouseint 100 1 0 = none := by
  have result : ((deskBoot.next (.createWindow (some 4096))).bind fun s₁ =>
      (exec Mouse.next s₁ (moveRight ++ moveRight ++ moveRight ++ press)).map fun s =>
        (s.lookupAt 100 1 0, decide (.windowQueue ∈ s.gui.lookup 1280 512),
          (s.mouseint 100 1 0).isNone)) = some (some (1280, 512), true, true) := by
    decide +kernel
  obtain ⟨s₁, create, result⟩ := Runs.bind_some.mp result
  obtain ⟨s, run, e⟩ := Option.map_eq_some_iff.mp result
  simp only [Prod.mk.injEq, decide_eq_true_eq, Option.isNone_iff_eq_none] at e
  exact ⟨s₁, s, create, steps_of_bytes (by simp [moveRight, press]) run, e⟩

end Xv6Gui
