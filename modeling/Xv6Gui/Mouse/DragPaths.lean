import Xv6Gui.Mouse.Gestures
import Xv6Gui.Window.RedrawSafety

/-!
# The path of a drag

While a window is dragged, a packet moves the pointer and the window by the same displacement.
`setMousePosition` keeps the pointer between 0 and the size of the screen, and `moveWindow` keeps
the window on the screen, each with its own clamp.  Where the window stands after some packets is
therefore not a function of where the pointer stands: a window that is held back by the edge of
the screen is left behind, and comes along again with the first packet back.  A packet that
releases the right button is a right click, and moves the pointer only.

The window and the pointer are followed along each axis by itself (`Axis`), and `Dragging.handle`
says that the driver moves them so.
-/

namespace Xv6Gui

open Runs

/-! ## One axis -/

/-- `setMousePosition` along one axis. -/
def clampPointer (limit v : Int) : Int :=
  let v := if v < 0 then 0 else v
  if v > limit then limit else v

/-- The window and the pointer along one axis. -/
@[ext]
structure Axis where
  window : Int
  pointer : Int
deriving DecidableEq

namespace Axis

/-- A packet that drags. -/
def drag (size limit d : Int) (a : Axis) : Axis :=
  ⟨a.window + Gui.clampMove a.window size limit d, clampPointer limit (a.pointer + d)⟩

/-- A packet that moves the pointer alone. -/
def slide (limit d : Int) (a : Axis) : Axis := ⟨a.window, clampPointer limit (a.pointer + d)⟩

/-- The window is on the screen, and the pointer on the window. -/
structure On (size limit : Int) (a : Axis) : Prop where
  low : 0 ≤ a.window
  high : a.window + size ≤ limit
  left : a.window ≤ a.pointer
  right : a.pointer < a.window + size

variable {size limit d : Int} {a b : Axis}

/-- A window that is not held back takes the pointer along. -/
theorem On.drag_free (on : a.On size limit) (low : 0 ≤ a.window + d)
    (high : a.window + size + d ≤ limit) :
    a.drag size limit d = ⟨a.window + d, a.pointer + d⟩ ∧
      Axis.On size limit ⟨a.window + d, a.pointer + d⟩ := by
  obtain ⟨_, _, left, right⟩ := on
  refine ⟨?_, ⟨low, by simp only; omega, by simpa using left, by simp only; omega⟩⟩
  simp only [Axis.drag, Gui.clampMove, clampPointer, Axis.mk.injEq]
  constructor <;> split_ifs <;> omega

theorem On.drag_zero (on : a.On size limit) : a.drag size limit 0 = a := by
  simpa using (on.drag_free (d := 0) (by simpa using on.low) (by simpa using on.high)).1

/-- A window as large as the screen is not moved. -/
theorem drag_full (size d : Int) (a : Axis) (at0 : a.window = 0) :
    (a.drag size size d).window = 0 := by
  simp only [Axis.drag, Gui.clampMove, at0]
  split_ifs <;> omega

/-- As long as there is room, steps of 1 take both along. -/
theorem On.drag_iterate (on : a.On size limit) :
    ∀ n : Nat, a.window + size + n ≤ limit →
      (Axis.drag size limit 1)^[n] a = ⟨a.window + n, a.pointer + n⟩
  | 0, _ => by simp
  | n + 1, room => by
    push_cast at room
    have before := on.drag_iterate n (by omega)
    have here : Axis.On size limit ⟨a.window + n, a.pointer + n⟩ :=
      ⟨by have := on.low; simp only; omega, by simp only; omega, by simpa using on.left,
        by have := on.right; simp only; omega⟩
    rw [Function.iterate_succ_apply', before,
      (here.drag_free (d := 1) (by have := on.low; simp only; omega) (by simp only; omega)).1]
    simp [add_assoc]

/-- To the edge, over the edge and back: the pointer is where it is at the edge, and the window one
step off. -/
theorem On.drag_edge (on : a.On size limit) (small : size < limit) :
    (Axis.drag size limit 1)^[(limit - (a.window + size)).toNat] a =
        ⟨limit - size, a.pointer + (limit - (a.window + size))⟩ ∧
      Axis.drag size limit (-1) (Axis.drag size limit 1
          ((Axis.drag size limit 1)^[(limit - (a.window + size)).toNat] a)) =
        ⟨limit - size - 1, a.pointer + (limit - (a.window + size))⟩ := by
  obtain ⟨low, high, left, right⟩ := on
  have edge := On.drag_iterate ⟨low, high, left, right⟩ (limit - (a.window + size)).toNat (by omega)
  rw [Int.toNat_of_nonneg (by omega)] at edge
  have place : a.window + (limit - (a.window + size)) = limit - size := by omega
  rw [place] at edge
  refine ⟨edge, ?_⟩
  rw [edge]
  simp only [Axis.drag, Gui.clampMove, clampPointer, Axis.mk.injEq]
  constructor <;> split_ifs <;> omega

end Axis

/-! ## Packets of a drag -/

/-- A packet with the left button down, and the process that is interrupted by it. -/
structure HeldPacket where
  proc : Option ProcPtr
  tick : UInt32
  header : UInt8
  x : UInt8
  y : UInt8
  isHeader : IsHeader header
  left : header &&& 0x01 ≠ 0

namespace HeldPacket

/-- The right button is down. -/
def right (k : HeldPacket) : Bool := k.header &&& 0x02 ≠ 0

/-- The movement to the right. -/
def dx (k : HeldPacket) : Int := Mouse.movement k.x (k.header &&& 0x10 ≠ 0)

/-- The movement down. -/
def dy (k : HeldPacket) : Int := -Mouse.movement k.y (k.header &&& 0x20 ≠ 0)

/-- Packets of one step, of process `p`, with the right button down. -/
def stepRight (p : ProcPtr) : HeldPacket := ⟨some p, 0, 0x0b, 1, 0, by decide, by decide⟩

/-- A pixel to the left. -/
def stepLeft (p : ProcPtr) : HeldPacket := ⟨some p, 0, 0x1b, 255, 0, by decide, by decide⟩

/-- A pixel down. -/
def stepDown (p : ProcPtr) : HeldPacket := ⟨some p, 0, 0x2b, 0, 255, by decide, by decide⟩

/-- A pixel up. -/
def stepUp (p : ProcPtr) : HeldPacket := ⟨some p, 0, 0x0b, 0, 1, by decide, by decide⟩

/-- The displacement of a packet with the right button down. -/
def Pushes (k : HeldPacket) (dx dy : Int) : Prop := k.right = true ∧ k.dx = dx ∧ k.dy = dy
  deriving Decidable

theorem stepRight_pushes (p : ProcPtr) : (stepRight p).Pushes 1 0 :=
  (by decide : (stepRight 0).Pushes 1 0)

theorem stepLeft_pushes (p : ProcPtr) : (stepLeft p).Pushes (-1) 0 :=
  (by decide : (stepLeft 0).Pushes (-1) 0)

theorem stepDown_pushes (p : ProcPtr) : (stepDown p).Pushes 0 1 :=
  (by decide : (stepDown 0).Pushes 0 1)

theorem stepUp_pushes (p : ProcPtr) : (stepUp p).Pushes 0 (-1) :=
  (by decide : (stepUp 0).Pushes 0 (-1))

/-- The interrupts of a packet. -/
def events (k : HeldPacket) : List DeskEvent :=
  [.schedule k.proc, .mouseint k.tick 1 k.header, .mouseint k.tick 1 k.x, .mouseint k.tick 1 k.y]

end HeldPacket

/-- With a current process and a window in the queue, `moveWindow` returns. -/
theorem Gui.moveWindow_isSome {s : Gui} {l : List Slot} {p c : ProcPtr} (windows : s.queue.Windows l)
    (ne : l ≠ []) (current : s.proc = some c) (loaded : s.loaded = some p) (addr fx fy tx ty : Int)
    (isdraw : Bool) : (s.moveWindow addr fx fy tx ty isdraw).isSome := by
  simp only [moveWindow, loadWindow, storeWindow, loaded, Option.map_some, Option.bind_eq_bind,
    Option.bind_some]
  split
  · exact (updateLastWindow_isSome (s := { s with
      window := Function.update s.window p (Function.update (s.window p) addr { s.window p addr with
        leftTopX := _, leftTopY := _ }), loaded := some p }) windows current).mpr ne
  · rfl

theorem Gui.switchBack_isSome (s : Gui) : s.switchBack.isSome := by
  cases proc : s.proc <;> simp [switchBack, switchuvm, proc]

namespace Mouse

variable {s t : Mouse} {k : HeldPacket} {l : List Slot} {i : Slot} {p c : ProcPtr}

variable {u : Mouse}

/-- The state after a packet. -/
def handle (s : Mouse) (k : HeldPacket) : Option Mouse := exec Mouse.next s k.events

/-- The packet releases the right button. -/
def Releases (s : Mouse) (k : HeldPacket) : Prop := s.rightBtnDown = true ∧ k.right = false
  deriving Decidable

/-- The event of a packet, when the left button was down before. -/
def heldEvent (s : Mouse) (k : HeldPacket) : Int :=
  if s.Releases k then rightClick else mouseDragging

/-- The state in which the packet comes to the handlers. -/
def ready (s : Mouse) (k : HeldPacket) : Mouse :=
  { s with
    gui := { s.gui with
      proc := k.proc
      loaded := k.proc
      mouseInfo := { s.gui.mouseInfo with event := s.heldEvent k } }
    toRead := .mouseInfo
    leftDown := true
    rightDown := k.right
    xSign := k.header &&& 0x10 ≠ 0
    ySign := k.header &&& 0x20 ≠ 0
    disX := k.dx
    disY := k.dy
    leftBtnDown := true
    downPosX := s.gui.mouseInfo.xPosition + k.dx
    downPosY := s.gui.mouseInfo.yPosition + k.dy
    rightBtnDown := k.right }

/-- The state in front of the third byte. -/
def readTwo (s : Mouse) (k : HeldPacket) : Mouse :=
  { s with
    gui := { s.gui with proc := k.proc, loaded := k.proc }
    toRead := .yMovement
    leftDown := k.header &&& 0x01 ≠ 0
    rightDown := k.right
    xSign := k.header &&& 0x10 ≠ 0
    ySign := k.header &&& 0x20 ≠ 0
    disX := k.dx }

theorem packetEvent_readTwo (k : HeldPacket) (held : s.leftBtnDown = true) :
    (s.readTwo k).packetEvent k.tick k.y = (s.ready k, s.heldEvent k) := by
  have left := decide_eq_true k.left
  cases down : s.rightBtnDown <;> cases right : k.right <;>
    simp [packetEvent, decodeEvent, leftButton, rightButton, readY, readTwo, ready, heldEvent, Releases,
      left, held, down, right, HeldPacket.dy]

theorem handle_eq (k : HeldPacket) (between : s.toRead = .mouseInfo) (held : s.leftBtnDown = true) :
    s.handle k = ((s.ready k).dispatch (s.heldEvent k)).map fun t =>
      { t with gui := t.gui.moveMousePosition t.disX t.disY } := by
  have one : (1 : UInt8) &&& 0x01 ≠ 0 := by decide
  have header : ¬ (k.header &&& 0x08 = 0 ∨ k.header &&& 0x04 ≠ 0) := by
    simp [k.isHeader.1, k.isHeader.2]
  obtain ⟨early, -⟩ | ⟨-, third⟩ := (s.readTwo k).mouseint_packet k.tick 1 k.y
  · exact absurd ⟨one, rfl⟩ early
  rw [packetEvent_readTwo k held] at third
  have two : s.handle k = ((s.readTwo k).mouseint k.tick 1 k.y).bind some := by
    simp only [handle, HeldPacket.events, exec, next, step]
    simp only [mouseint, if_neg one, Option.bind_some, between, if_neg header]
    rfl
  rw [two, Option.bind_fun_some, third]

/-! ## A drag -/

/-- The window in slot `i`, of process `p`, is dragged. -/
structure Dragging (s : Mouse) (l : List Slot) (i : Slot) (p : ProcPtr) : Prop where
  windows : s.gui.queue.Windows l
  mem : i ∈ l
  owner : (s.gui.queue.entry (.windowLine i)).proc = some p
  state : s.dragState = 1
  pwque : s.pwque = some (.windowLine i)
  held : s.leftBtnDown = true
  between : s.toRead = .mouseInfo

/-- The window in a slot, in the memory of process `p`. -/
def windowOf (s : Mouse) (i : Slot) (p : ProcPtr) : Window :=
  s.gui.window p (s.gui.queue.entry (.windowLine i)).window

/-- The columns of window and pointer. -/
def xAxis (s : Mouse) (i : Slot) (p : ProcPtr) : Axis :=
  ⟨(s.windowOf i p).leftTopX, s.gui.mouseInfo.xPosition⟩

/-- The rows of window and pointer. -/
def yAxis (s : Mouse) (i : Slot) (p : ProcPtr) : Axis :=
  ⟨(s.windowOf i p).leftTopY, s.gui.mouseInfo.yPosition⟩

/-- What a packet does to the window and the pointer. -/
structure Handles (s : Mouse) (i : Slot) (p : ProcPtr) (k : HeldPacket) (t : Mouse) : Prop where
  width : (t.windowOf i p).width = (s.windowOf i p).width
  height : (t.windowOf i p).height = (s.windowOf i p).height
  right : t.rightBtnDown = k.right
  x : t.xAxis i p = if s.Releases k then (s.xAxis i p).slide screenWidth k.dx
    else (s.xAxis i p).drag (s.windowOf i p).width screenWidth k.dx
  y : t.yAxis i p = if s.Releases k then (s.yAxis i p).slide screenHeight k.dy
    else (s.yAxis i p).drag (s.windowOf i p).height screenHeight k.dy

/-- The handler of a packet that goes on with the drag. -/
theorem Dragging.drag (d : s.Dragging l i p)
    (h : (s.ready k).handleMouseDrag = some u) :
    u.dragState = 1 ∧ u.pwque = some (.windowLine i) ∧
      Gui.Kept ((s.ready k).gui.draggedTo p (s.gui.queue.entry (.windowLine i)).window k.dx k.dy)
        u.gui := by
  simp only [handleMouseDrag, Runs.bind_some] at h
  obtain ⟨v, dragged, g, back, h⟩ := h
  cases h
  have one : (s.ready k).dragState = 1 := d.state
  rw [Mouse.drag, if_neg (by rw [one]; decide), if_pos one] at dragged
  simp only [continueDrag, Runs.bind_some] at dragged
  obtain ⟨q, queued, g₁, switched, g₂, moved, dragged⟩ := dragged
  cases dragged
  obtain rfl := Option.some.inj (d.pwque.symm.trans queued)
  have load : g₁ = { (s.ready k).gui with loaded := some p } := by
    rw [Gui.switchuvm_eq_some switched]
    exact congrArg (fun o => { (s.ready k).gui with loaded := o }) d.owner
  subst load
  obtain ⟨p', loaded, kept⟩ := Gui.moveWindow_kept moved
  obtain rfl := Option.some.inj loaded
  refine ⟨d.state, d.pwque, Gui.Kept.trans ?_ (kept.trans (Gui.switchBack_kept back))⟩
  have dx : (s.ready k).downPosX - (s.ready k).gui.mouseInfo.xPosition = k.dx := by simp [ready]
  have dy : (s.ready k).downPosY - (s.ready k).gui.mouseInfo.yPosition = k.dy := by simp [ready]
  rw [dx, dy]
  exact ⟨⟨fun _ _ => rfl, rfl, rfl, rfl, rfl⟩, rfl⟩

/-- The handler of a packet that releases the right button. -/
theorem Dragging.release (d : s.Dragging l i p)
    (h : (s.ready k).gui.handleRightClick.map (fun g => { s.ready k with gui := g }) = some u) :
    u.dragState = 1 ∧ u.pwque = some (.windowLine i) ∧ Gui.Kept (s.ready k).gui u.gui := by
  obtain ⟨g, clicked, rfl⟩ := Option.map_eq_some_iff.mp h
  exact ⟨d.state, d.pwque, Gui.handleRightClick_kept clicked⟩

/-- The graphical part after the handler, in which the window may be redrawn. -/
def movedBy (s : Mouse) (i : Slot) (p : ProcPtr) (k : HeldPacket) : Gui :=
  if s.Releases k then (s.ready k).gui
  else (s.ready k).gui.draggedTo p (s.gui.queue.entry (.windowLine i)).window k.dx k.dy

theorem Dragging.dispatch (d : s.Dragging l i p)
    (h : (s.ready k).dispatch (s.heldEvent k) = some u) :
    u.dragState = 1 ∧ u.pwque = some (.windowLine i) ∧ Gui.Kept (s.movedBy i p k) u.gui := by
  by_cases releases : s.Releases k
  · rw [heldEvent, if_pos releases] at h
    rw [movedBy, if_pos releases]
    exact d.release h
  · rw [heldEvent, if_neg releases] at h
    rw [movedBy, if_neg releases]
    exact d.drag h

theorem Dragging.handle (d : s.Dragging l i p) (h : s.handle k = some t) :
    t.Dragging l i p ∧ s.Handles i p k t := by
  rw [handle_eq k d.between d.held] at h
  obtain ⟨u, handled, rfl⟩ := Option.map_eq_some_iff.mp h
  have frame := dispatch_frame handled
  obtain ⟨state, pwque, kept⟩ := d.dispatch handled
  have queue : u.gui.queue = s.gui.queue := by
    rw [kept.queue, movedBy]
    split <;> rfl
  have rect : (u.windowOf i p).rect =
      ((s.movedBy i p k).window p (s.gui.queue.entry (.windowLine i)).window).rect := by
    rw [windowOf, queue]
    exact kept.rect _ _
  have pointer : u.gui.mouseInfo.xPosition = s.gui.mouseInfo.xPosition ∧
      u.gui.mouseInfo.yPosition = s.gui.mouseInfo.yPosition := by
    rw [kept.xPosition, kept.yPosition, movedBy]
    split <;> exact ⟨rfl, rfl⟩
  have px : u.gui.mouseInfo.xPosition + u.disX = s.gui.mouseInfo.xPosition + k.dx := by
    rw [pointer.1, frame]
    rfl
  have py : u.gui.mouseInfo.yPosition + u.disY = s.gui.mouseInfo.yPosition + k.dy := by
    rw [pointer.2, frame]
    rfl
  have right : u.rightBtnDown = k.right := by
    rw [frame]
    rfl
  refine ⟨⟨queue ▸ d.windows, d.mem, queue ▸ d.owner, state, pwque, ?_, ?_⟩, ?_⟩
  · rw [frame]
    rfl
  · rw [frame]
    rfl
  by_cases releases : s.Releases k
  · have same : (u.windowOf i p).rect = (s.windowOf i p).rect := by
      rw [rect, movedBy, if_pos releases]
      rfl
    simp only [Window.rect, Prod.mk.injEq] at same
    obtain ⟨x, y, width, height⟩ := same
    refine ⟨width, height, right, ?_, ?_⟩
    · rw [if_pos releases]
      exact Axis.ext x (congrArg (clampPointer screenWidth) px)
    · rw [if_pos releases]
      exact Axis.ext y (congrArg (clampPointer screenHeight) py)
  · rw [movedBy, if_neg releases] at rect
    simp only [Window.rect, Gui.draggedTo, Function.update_self, Prod.mk.injEq] at rect
    obtain ⟨x, y, width, height⟩ := rect
    refine ⟨width, height, right, ?_, ?_⟩
    · rw [if_neg releases]
      exact Axis.ext x (congrArg (clampPointer screenWidth) px)
    · rw [if_neg releases]
      exact Axis.ext y (congrArg (clampPointer screenHeight) py)

theorem continueDrag_isSome (windows : s.gui.queue.Windows l) (mem : i ∈ l)
    (owner : (s.gui.queue.entry (.windowLine i)).proc = some p) (pwque : s.pwque = some (.windowLine i))
    (current : s.gui.proc = some c) : s.continueDrag.isSome := by
  simp only [continueDrag, pwque, owner, Gui.switchuvm, current, Option.bind_eq_bind, Option.bind_some,
    pure]
  simp only [Option.isSome_bind, Option.isSome_some, Option.any_true]
  exact Gui.moveWindow_isSome (s := { s.gui with loaded := some p, proc := some c }) windows
    (List.ne_nil_of_mem mem) rfl rfl _ _ _ _ _ _

/-- With a current process, a packet that goes on with the drag is handled. -/
theorem Dragging.handle_isSome (d : s.Dragging l i p) (current : k.proc = some c)
    (drags : ¬ s.Releases k) : (s.handle k).isSome := by
  have one : (s.ready k).dragState = 1 := d.state
  obtain ⟨u, dragged⟩ := Option.isSome_iff_exists.mp
    (continueDrag_isSome (s := s.ready k) d.windows d.mem d.owner d.pwque current)
  obtain ⟨g, back⟩ := Option.isSome_iff_exists.mp u.gui.switchBack_isSome
  have handled : (s.ready k).handleMouseDrag = some { u with gui := g } := by
    rw [handleMouseDrag, Mouse.drag, if_neg (by rw [one]; decide), if_pos one, dragged]
    simp [back]
  rw [handle_eq k d.between d.held, Option.isSome_map, heldEvent, if_neg drags]
  exact Option.isSome_of_eq_some handled

/-! ## Paths -/

/-- A packet is handled. -/
def HeldStep (s : Mouse) (k : HeldPacket) (t : Mouse) : Prop := s.handle k = some t

/-- Where the window is depends on where the pointer is only. -/
def PathIndependent (s : Mouse) (i : Slot) (p : ProcPtr) : Prop :=
  ∀ ks ks' t t', Steps HeldStep s ks t → Steps HeldStep s ks' t' →
    t.gui.mouseInfo.xPosition = t'.gui.mouseInfo.xPosition →
    t.gui.mouseInfo.yPosition = t'.gui.mouseInfo.yPosition →
      (t.windowOf i p).leftTopX = (t'.windowOf i p).leftTopX ∧
        (t.windowOf i p).leftTopY = (t'.windowOf i p).leftTopY

/-- The packet goes on with the drag, and the window has room for it. -/
def Free (i : Slot) (p : ProcPtr) (s : Mouse) (k : HeldPacket) : Prop :=
  ¬ s.Releases k ∧
    (0 ≤ (s.windowOf i p).leftTopX + k.dx ∧
      (s.windowOf i p).leftTopX + (s.windowOf i p).width + k.dx ≤ screenWidth) ∧
    0 ≤ (s.windowOf i p).leftTopY + k.dy ∧
      (s.windowOf i p).leftTopY + (s.windowOf i p).height + k.dy ≤ screenHeight
  deriving Decidable

/-- The window is on the screen, and the pointer on the window. -/
structure OnWindow (s : Mouse) (i : Slot) (p : ProcPtr) : Prop where
  x : (s.xAxis i p).On (s.windowOf i p).width screenWidth
  y : (s.yAxis i p).On (s.windowOf i p).height screenHeight

/-- Packets for which there is room keep the pointer where it is on the window. -/
structure Carried (s : Mouse) (l : List Slot) (i : Slot) (p : ProcPtr) (t : Mouse) : Prop where
  dragging : t.Dragging l i p
  on : t.OnWindow i p
  x : (t.xAxis i p).pointer - (t.xAxis i p).window = (s.xAxis i p).pointer - (s.xAxis i p).window
  y : (t.yAxis i p).pointer - (t.yAxis i p).window = (s.yAxis i p).pointer - (s.yAxis i p).window

theorem Carried.step (h : s.Carried l i p t) (free : Free i p t k)
    (step : t.HeldStep k u) : s.Carried l i p u := by
  obtain ⟨drags, ⟨left, right⟩, top, bottom⟩ := free
  obtain ⟨dragging, moved⟩ := h.dragging.handle step
  obtain ⟨x, onX⟩ := h.on.x.drag_free left right
  obtain ⟨y, onY⟩ := h.on.y.drag_free top bottom
  have atX := moved.x
  have atY := moved.y
  rw [if_neg drags, x] at atX
  rw [if_neg drags, y] at atY
  refine ⟨dragging, ⟨?_, ?_⟩, ?_, ?_⟩
  · rw [atX, moved.width]
    exact onX
  · rw [atY, moved.height]
    exact onY
  · rw [atX, ← h.x]
    simp
  · rw [atY, ← h.y]
    simp

theorem Carried.of_run {ks : List HeldPacket} (d : s.Dragging l i p) (on : s.OnWindow i p)
    (run : Steps (Guarded HeldStep (Free i p)) s ks t) : s.Carried l i p t :=
  run.invariant (I := s.Carried l i p) ⟨d, on, rfl, rfl⟩ fun h step => h.step step.1 step.2

/-- A window that fills the screen stays there. -/
structure Fills (s : Mouse) (l : List Slot) (i : Slot) (p : ProcPtr) : Prop where
  dragging : s.Dragging l i p
  width : (s.windowOf i p).width = screenWidth
  height : (s.windowOf i p).height = screenHeight
  left : (s.windowOf i p).leftTopX = 0
  top : (s.windowOf i p).leftTopY = 0

theorem Fills.step (h : s.Fills l i p) (step : s.HeldStep k t) : t.Fills l i p := by
  obtain ⟨dragging, moved⟩ := h.dragging.handle step
  have atX : (t.xAxis i p).window = 0 := by
    rw [moved.x, h.width]
    split
    · exact h.left
    · exact Axis.drag_full _ _ _ h.left
  have atY : (t.yAxis i p).window = 0 := by
    rw [moved.y, h.height]
    split
    · exact h.top
    · exact Axis.drag_full _ _ _ h.top
  exact ⟨dragging, moved.width.trans h.width, moved.height.trans h.height, atX, atY⟩

/-- The packets `k`, with the right button down. -/
theorem Dragging.pushes (d : s.Dragging l i p) (current : k.proc = some c) (right : k.right = true) :
    ∀ n : Nat, ∃ t, Steps HeldStep s (List.replicate n k) t ∧ t.Dragging l i p ∧
      (t.windowOf i p).width = (s.windowOf i p).width ∧
      (t.windowOf i p).height = (s.windowOf i p).height ∧
      t.xAxis i p = (Axis.drag (s.windowOf i p).width screenWidth k.dx)^[n] (s.xAxis i p) ∧
      t.yAxis i p = (Axis.drag (s.windowOf i p).height screenHeight k.dy)^[n] (s.yAxis i p)
  | 0 => ⟨s, .nil, d, rfl, rfl, rfl, rfl⟩
  | n + 1 => by
    obtain ⟨t, run, dragging, width, height, x, y⟩ := d.pushes current right n
    have drags : ¬ t.Releases k := fun h => by simp [h.2] at right
    obtain ⟨u, step⟩ := Option.isSome_iff_exists.mp (dragging.handle_isSome current drags)
    obtain ⟨dragging, moved⟩ := dragging.handle step
    refine ⟨u, ?_, dragging, moved.width.trans width, moved.height.trans height, ?_, ?_⟩
    · rw [List.replicate_succ']
      exact run.snoc step
    · rw [moved.x, if_neg drags, width, x, Function.iterate_succ_apply']
    · rw [moved.y, if_neg drags, height, y, Function.iterate_succ_apply']

/-- The packets `k` and one more, and then the packet `back`. -/
theorem Dragging.detour {back : HeldPacket} {dx dy dx' dy' : Int} (d : s.Dragging l i p)
    (current : k.proc = some c) (push : k.Pushes dx dy) (current' : back.proc = some c)
    (push' : back.Pushes dx' dy') (n : Nat) :
    ∃ t u, Steps HeldStep s (List.replicate n k) t ∧
      Steps HeldStep s (List.replicate (n + 1) k ++ [back]) u ∧
      t.xAxis i p = (Axis.drag (s.windowOf i p).width screenWidth dx)^[n] (s.xAxis i p) ∧
      t.yAxis i p = (Axis.drag (s.windowOf i p).height screenHeight dy)^[n] (s.yAxis i p) ∧
      u.xAxis i p = Axis.drag (s.windowOf i p).width screenWidth dx'
        (Axis.drag (s.windowOf i p).width screenWidth dx (t.xAxis i p)) ∧
      u.yAxis i p = Axis.drag (s.windowOf i p).height screenHeight dy'
        (Axis.drag (s.windowOf i p).height screenHeight dy (t.yAxis i p)) := by
  obtain ⟨right, rfl, rfl⟩ := push
  obtain ⟨right', rfl, rfl⟩ := push'
  obtain ⟨t, run, -, -, -, x, y⟩ := d.pushes current right n
  obtain ⟨v, further, dragging, width, height, x', y'⟩ := d.pushes current right (n + 1)
  obtain ⟨u, last, -, -, -, x'', y''⟩ := dragging.pushes current' right' 1
  rw [Function.iterate_succ_apply', ← x] at x'
  rw [Function.iterate_succ_apply', ← y] at y'
  refine ⟨t, u, run, further.trans last, x, y, ?_, ?_⟩
  · rw [x'', width, x']
    rfl
  · rw [y'', height, y']
    rfl

/-- Steps to the right edge, over it and back. -/
theorem Dragging.dependent_width (d : s.Dragging l i p) (on : s.OnWindow i p)
    (small : (s.windowOf i p).width < screenWidth) : ¬ s.PathIndependent i p := by
  obtain ⟨edge, beyond⟩ := on.x.drag_edge small
  have still := on.y.drag_zero
  obtain ⟨t, u, run, run', x, y, x', y'⟩ := d.detour (c := p) rfl (HeldPacket.stepRight_pushes p) rfl
    (HeldPacket.stepLeft_pushes p)
    (screenWidth - ((s.xAxis i p).window + (s.windowOf i p).width)).toNat
  rw [x, beyond] at x'
  rw [edge] at x
  rw [Function.iterate_fixed still] at y
  rw [y, still, still] at y'
  intro independent
  obtain ⟨same, -⟩ := independent _ _ t u run run'
    ((congrArg Axis.pointer x).trans (congrArg Axis.pointer x').symm)
    (congrArg Axis.pointer (y.trans y'.symm))
  have off := ((congrArg Axis.window x).symm.trans same).trans (congrArg Axis.window x')
  simp only at off
  omega

/-- Steps to the lower edge, over it and back. -/
theorem Dragging.dependent_height (d : s.Dragging l i p) (on : s.OnWindow i p)
    (small : (s.windowOf i p).height < screenHeight) : ¬ s.PathIndependent i p := by
  obtain ⟨edge, beyond⟩ := on.y.drag_edge small
  have still := on.x.drag_zero
  obtain ⟨t, u, run, run', x, y, x', y'⟩ := d.detour (c := p) rfl (HeldPacket.stepDown_pushes p) rfl
    (HeldPacket.stepUp_pushes p)
    (screenHeight - ((s.yAxis i p).window + (s.windowOf i p).height)).toNat
  rw [y, beyond] at y'
  rw [edge] at y
  rw [Function.iterate_fixed still] at x
  rw [x, still, still] at x'
  intro independent
  obtain ⟨-, same⟩ := independent _ _ t u run run'
    (congrArg Axis.pointer (x.trans x'.symm))
    ((congrArg Axis.pointer y).trans (congrArg Axis.pointer y').symm)
  have off := ((congrArg Axis.window y).symm.trans same).trans (congrArg Axis.window y')
  simp only at off
  omega

/-- The window is on the screen, and the pointer in its rectangle. -/
def Covers (s : Mouse) (i : Slot) (p : ProcPtr) : Prop :=
  0 ≤ (s.windowOf i p).leftTopX ∧
    (s.windowOf i p).leftTopX + (s.windowOf i p).width ≤ screenWidth ∧
    0 ≤ (s.windowOf i p).leftTopY ∧
    (s.windowOf i p).leftTopY + (s.windowOf i p).height ≤ screenHeight ∧
    inWindowRange (s.windowOf i p) s.gui.mouseInfo.xPosition s.gui.mouseInfo.yPosition = true
  deriving Decidable

theorem Covers.on (h : s.Covers i p) : s.OnWindow i p := by
  obtain ⟨left, right, top, bottom, inside⟩ := h
  simp only [inWindowRange, inRange, Bool.and_eq_true, decide_eq_true_eq] at inside
  obtain ⟨⟨⟨x, x'⟩, y⟩, y'⟩ := inside
  exact ⟨⟨left, right, x, x'⟩, ⟨top, bottom, y, y'⟩⟩

end Mouse

/-- While a window on the screen is dragged, with the pointer on it, its position depends on that
of the pointer only, over all sequences of packets with the left button held, if and only if it
fills the screen.  Two sequences with room for each packet, and without a right click, that bring
the pointer to the same position bring the window to the same position. -/
theorem drag_path_independent_iff {s : Mouse} {l : List Slot} {i : Slot} {p : ProcPtr}
    (d : s.Dragging l i p) (covers : s.Covers i p) :
    (s.PathIndependent i p ↔
      (s.windowOf i p).width = screenWidth ∧ (s.windowOf i p).height = screenHeight) ∧
    ∀ ks ks' t t', Steps (Guarded Mouse.HeldStep (Mouse.Free i p)) s ks t →
      Steps (Guarded Mouse.HeldStep (Mouse.Free i p)) s ks' t' →
      t.gui.mouseInfo.xPosition = t'.gui.mouseInfo.xPosition →
      t.gui.mouseInfo.yPosition = t'.gui.mouseInfo.yPosition →
        (t.windowOf i p).leftTopX = (t'.windowOf i p).leftTopX ∧
          (t.windowOf i p).leftTopY = (t'.windowOf i p).leftTopY := by
  have on := covers.on
  refine ⟨⟨fun independent => ?_, ?_⟩, ?_⟩
  · have width := mt (d.dependent_width on) (not_not_intro independent)
    have height := mt (d.dependent_height on) (not_not_intro independent)
    obtain ⟨left, right, top, bottom, -⟩ := covers
    exact ⟨by omega, by omega⟩
  · rintro ⟨width, height⟩ ks ks' t t' run run' - -
    obtain ⟨left, right, top, bottom, -⟩ := covers
    have fills : s.Fills l i p := ⟨d, width, height, by omega, by omega⟩
    have here := run.invariant (I := fun m => m.Fills l i p) fills fun h step => h.step step
    have there := run'.invariant (I := fun m => m.Fills l i p) fills fun h step => h.step step
    exact ⟨here.left.trans there.left.symm, here.top.trans there.top.symm⟩
  · intro ks ks' t t' run run' x y
    have here := Mouse.Carried.of_run d on run
    have there := Mouse.Carried.of_run d on run'
    have hx := here.x.trans there.x.symm
    have hy := here.y.trans there.y.symm
    simp only [Mouse.xAxis, Mouse.yAxis] at hx hy
    exact ⟨by omega, by omega⟩

/-- A window is created, the left button goes down on its caption, and the drag starts. -/
def startedDrag : List DeskEvent := toCaption ++ packetBytes 60 9 0 0 ++ packetBytes 70 9 0 0

/-- The variables of the driver after `startedDrag`. -/
def Started (s : Mouse) : Prop :=
  OnlyFirst s.gui.queue ∧ (s.gui.queue.entry (.windowLine 0)).proc = some 1 ∧ s.dragState = 1 ∧
    s.pwque = some (.windowLine 0) ∧ s.leftBtnDown = true ∧ s.toRead = .mouseInfo ∧ s.Covers 0 1
  deriving Decidable

theorem dragging_of_started {Q : Mouse → Prop} [DecidablePred Q]
    (result : (exec Gesture.next (.start sampleBoot) startedDrag).map
      (fun g => decide (Started g.mouse ∧ Q g.mouse)) = some true) :
    ∃ s : Mouse, s.Dragging [0] 0 1 ∧ s.Covers 0 1 ∧ Q s := by
  obtain ⟨g, run, e⟩ := Option.map_eq_some_iff.mp result
  obtain ⟨⟨only, owner, state, pwque, held, between, covers⟩, rest⟩ := of_decide_eq_true e
  have steps := Gesture.steps_of_exec (by simp [startedDrag, toCaption, packetBytes]) run
  obtain ⟨l, windows⟩ := (Gesture.sound_of_run ⟨rfl, rfl, rfl⟩ rfl steps).windows
  obtain rfl := only.windows windows
  exact ⟨g.mouse, ⟨windows, by simp, owner, state, pwque, held, between⟩, covers, rest⟩

/-- One step to the right and back, with room for both. -/
theorem drag_path_independent_iff_back : ∃ s t : Mouse, s.Dragging [0] 0 1 ∧ s.Covers 0 1 ∧
    ¬ s.PathIndependent 0 1 ∧
    Steps (Guarded Mouse.HeldStep (Mouse.Free 0 1)) s [.stepRight 1, .stepLeft 1] t ∧
    (t.windowOf 0 1).leftTopX = (s.windowOf 0 1).leftTopX := by
  obtain ⟨s, d, covers, small, back⟩ := dragging_of_started (Q := fun s =>
    (s.windowOf 0 1).width = 400 ∧
      (exec (guardedBy Mouse.handle (Mouse.Free 0 1)) s [.stepRight 1, .stepLeft 1]).map
          (fun t => (t.gui.mouseInfo.xPosition, t.gui.mouseInfo.yPosition)) =
        some (s.gui.mouseInfo.xPosition, s.gui.mouseInfo.yPosition)) (by decide +kernel)
  obtain ⟨t, run, e⟩ := Option.map_eq_some_iff.mp back
  obtain ⟨x, y⟩ := Prod.mk.inj e
  have steps := Steps.of_exec_guardedBy run
  obtain ⟨iff, free⟩ := drag_path_independent_iff d covers
  refine ⟨s, t, d, covers, fun independent => ?_, steps, (free _ [] t s steps .nil x y).1⟩
  have full := (iff.mp independent).1
  rw [small] at full
  exact absurd full (by decide)

/-- Over the right edge of the screen and back. -/
def rightAndBack : List HeldPacket :=
  [⟨some 1, 80, 0x09, 255, 0, by decide, by decide⟩,
    ⟨some 1, 81, 0x09, 255, 0, by decide, by decide⟩,
    ⟨some 1, 82, 0x09, 255, 0, by decide, by decide⟩,
    ⟨some 1, 83, 0x19, 1, 0, by decide, by decide⟩,
    ⟨some 1, 84, 0x19, 1, 0, by decide, by decide⟩,
    ⟨some 1, 85, 0x19, 126, 0, by decide, by decide⟩]

/-- Over the edge of the screen and back: the pointer is where it was, and the window 360 columns to
the left of where it was. -/
theorem drag_path_dependent : ∃ s t : Mouse, s.Dragging [0] 0 1 ∧ s.Covers 0 1 ∧
    Steps Mouse.HeldStep s rightAndBack t ∧
    t.gui.mouseInfo.xPosition = s.gui.mouseInfo.xPosition ∧
    t.gui.mouseInfo.yPosition = s.gui.mouseInfo.yPosition ∧
    (s.windowOf 0 1).leftTopX = 600 ∧ (t.windowOf 0 1).leftTopX = 240 := by
  obtain ⟨s, d, covers, before, detour⟩ := dragging_of_started (Q := fun s =>
    (s.windowOf 0 1).leftTopX = 600 ∧
      (exec Mouse.handle s rightAndBack).map
          (fun t => decide (t.gui.mouseInfo.xPosition = s.gui.mouseInfo.xPosition ∧
            t.gui.mouseInfo.yPosition = s.gui.mouseInfo.yPosition ∧
            (t.windowOf 0 1).leftTopX = 240)) = some true) (by decide +kernel)
  obtain ⟨t, run, e⟩ := Option.map_eq_some_iff.mp detour
  obtain ⟨x, y, after⟩ := of_decide_eq_true e
  exact ⟨s, t, d, covers, Steps.of_exec run, x, y, before, after⟩

end Xv6Gui
