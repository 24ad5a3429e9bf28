import Xv6Gui.Window.Calls

/-!
# The mouse driver

`mouse.c`: the bytes of the controller are put together to packets, a packet
becomes an event, and the handler of the event looks up the window under the
pointer and acts on it.

The lookup walks back from `lastWindow` and loads the page table of every entry
it tests.  Past the first window it comes to the sentinel, whose process is
null.
-/

namespace Xv6Gui

/-! ## Events -/

/-- `LEFT_CLICK`. -/
def leftClick : Int := 4

/-- `RIGHT_CLICK`. -/
def rightClick : Int := 5

/-- `LEFT_DOUBLE_CLICK`. -/
def leftDoubleClick : Int := 6

/-- The byte of a packet that comes next. -/
inductive ToRead where
  | mouseInfo
  | xMovement
  | yMovement
deriving DecidableEq

/-! ## Lookup -/

/-- The test of a position against a rectangle. -/
def inRange (leftTopX leftTopY width height x y : Int) : Bool :=
  x ≥ leftTopX && x < leftTopX + width && y ≥ leftTopY && y < leftTopY + height

/-- `inWindowRange`. -/
def inWindowRange (window : Window) (x y : Int) : Bool :=
  inRange window.leftTopX window.leftTopY window.width window.height x y

namespace Gui

/-- `inWidgetRange`, for a widget in the memory of process `p`. -/
def inWidgetRange (s : Gui) (p : ProcPtr) (window : Window) (widget : Widget) (x y : Int) : Bool :=
  match widget with
  | .button b =>
    inRange (window.leftTopX + b.leftTopX) (window.leftTopY + b.leftTopY) b.width b.height x y
  | .imageView v =>
    inRange (window.leftTopX + v.leftTopX) (window.leftTopY + v.leftTopY) v.width v.height x y
  | .iconView addr =>
    let i := s.icon p addr
    inRange (window.leftTopX + i.leftTopX) (window.leftTopY + i.leftTopY) i.width i.height x y
  | _ => false

/-- The walk back over the queue to a window around `(x, y)`. -/
def windowAt (s : Gui) (x y : Int) : Nat → Option Node → Option (Gui × Option Node)
  | _, none => some (s, none)
  | 0, some _ => none
  | fuel + 1, some p => do
    let s ← s.switchuvm (s.queue.entry p).proc
    let w ← s.loadWindow (s.queue.entry p).window
    if inWindowRange w x y then
      return (s, some p)
    else
      s.windowAt x y fuel (s.queue.prev p)

/-- `getClickedWindowQueue`. -/
def getClickedWindowQueue (s : Gui) : Option (Gui × Option Node) :=
  s.windowAt s.mouseInfo.xPosition s.mouseInfo.yPosition Queue.queueFuel (some s.queue.lastWindow)

/-- `getClickedWidget`: the index of the last widget under the pointer. -/
def getClickedWidget (s : Gui) (window : Window) : Option (Option Int) := do
  let p ← s.loaded
  return (Int.range 0 window.widgetsNum).reverse.find? fun k =>
    s.inWidgetRange p window (window.widgets k) s.mouseInfo.xPosition s.mouseInfo.yPosition

/-- Write a widget. -/
def storeWidget (s : Gui) (addr k : Int) (widget : Widget) : Option Gui := do
  let w ← s.loadWindow addr
  s.storeWindow addr { w with widgets := Function.update w.widgets k widget }

/-! ## Handlers -/

/-- `focusDismiss(); switchuvm(q->proc);` -/
def dismissFor (s : Gui) (q : Node) : Option Gui := do
  let s ← s.focusDismiss
  s.switchuvm (s.queue.entry q).proc

/-- The part of `handleLeftClick` that acts on the widget. -/
def clickWidget (s : Gui) (q : Node) : Option Gui := do
  let addr := (s.queue.entry q).window
  let w ← s.loadWindow addr
  match ← s.getClickedWidget w with
  | none => s.dismissFor q
  | some k =>
    match w.widgets k with
    | .button b => do
      let s ← s.dismissFor q
      s.storeWidget addr k
        (.button { b with onLeftClickHandler := { b.onLeftClickHandler with triggered := 1 } })
    | .imageView v => do
      let s ← s.dismissFor q
      s.storeWidget addr k
        (.imageView
          { v with onLeftClickHandler := { v.onLeftClickHandler with triggered := 1 } })
    | .iconView icon => s.focusIconView icon
    | _ => s.dismissFor q

/-- `handleLeftClick`. -/
def handleLeftClick (s : Gui) : Option Gui := do
  let (s, hit) ← s.getClickedWindowQueue
  match hit with
  | none => s.switchBack
  | some q =>
    if q = s.queue.lastWindow then do
      let s ← s.clickWidget q
      s.switchBack
    else if q = .windowLine 0 then
      s.switchBack
    else do
      let s ← s.focusDismiss
      let s ← s.reorderQueue q
      let s ← s.switchuvm (s.queue.entry q).proc
      let s ← s.clickWidget q
      s.switchBack

/-- The part of `handleLeftDoubleClick` that acts on the widget. -/
def doubleClickWidget (s : Gui) (q : Node) : Option Gui := do
  let w ← s.loadWindow (s.queue.entry q).window
  match ← s.getClickedWidget w with
  | none => some s
  | some k =>
    match w.widgets k with
    | .iconView addr => do
      let i ← s.loadIcon addr
      s.storeIcon addr { i with
        onLeftDoubleClickHandler := { i.onLeftDoubleClickHandler with triggered := 1 } }
    | _ => some s

/-- `handleLeftDoubleClick`. -/
def handleLeftDoubleClick (s : Gui) : Option Gui := do
  let (s, hit) ← s.getClickedWindowQueue
  match hit with
  | none => s.switchBack
  | some q => do
    let s ← s.dismissFor q
    let s ← s.doubleClickWidget q
    s.switchBack

/-- `handleRightClick`. -/
def handleRightClick (s : Gui) : Option Gui := do
  let (s, _) ← s.getClickedWindowQueue
  s.switchBack

/-- `setMousePosition`. -/
def setMousePosition (s : Gui) (x y : Int) : Gui :=
  let x := if x < 0 then 0 else x
  let x := if x > screenWidth then screenWidth else x
  let y := if y < 0 then 0 else y
  let y := if y > screenHeight then screenHeight else y
  { s with mouseInfo := { s.mouseInfo with xPosition := x, yPosition := y } }.updateMouse

/-- `moveMousePosition`. -/
def moveMousePosition (s : Gui) (x y : Int) : Gui :=
  s.setMousePosition (s.mouseInfo.xPosition + x) (s.mouseInfo.yPosition + y)

end Gui

/-! ## Packets -/

/-- The graphical part with the static variables of `mouse.c`. -/
structure Mouse where
  gui : Gui
  toRead : ToRead
  leftDown : Bool
  rightDown : Bool
  xSign : Bool
  ySign : Bool
  counter : Int
  disX : Int
  disY : Int
  leftBtnDown : Bool
  downPosX : Int
  downPosY : Int
  rightBtnDown : Bool
  /-- `last_tick`, as the unsigned number it is subtracted as. -/
  lastTick : UInt32
  dragState : Int
  pwque : Option Node

namespace Mouse

/-- `getDraggedWindowQueue`. -/
def getDraggedWindowQueue (s : Mouse) : Option (Gui × Option Node) :=
  if s.downPosX = 0 ∨ s.downPosY = 0 then
    some (s.gui, none)
  else do
    let (g, hit) ← s.gui.windowAt s.downPosX s.downPosY Queue.queueFuel
      (some s.gui.queue.lastWindow)
    match hit with
    | none => return (g, none)
    | some p => do
      let w ← g.loadWindow (g.queue.entry p).window
      return (g, if s.downPosY ≤ w.leftTopY + captionHeight then some p else none)

/-- The first packet of a drag. -/
def startDrag (s : Mouse) : Option Mouse := do
  let (g, hit) ← s.getDraggedWindowQueue
  match hit with
  | none => return { s with gui := g, pwque := none, dragState := 2 }
  | some q => do
    let g ← if q ≠ g.queue.lastWindow ∧ q ≠ .windowLine 0 then g.reorderQueue q else some g
    return { s with gui := g, pwque := some q, dragState := 1 }

/-- A drag that goes on.  Every twentieth packet redraws. -/
def continueDrag (s : Mouse) : Option Mouse := do
  let q ← s.pwque
  let g ← s.gui.switchuvm (s.gui.queue.entry q).proc
  let counter := (s.counter + 1) % 20
  let g ← g.moveWindow (g.queue.entry q).window g.mouseInfo.xPosition g.mouseInfo.yPosition
    s.downPosX s.downPosY (counter = 0)
  return { s with gui := g, counter := counter }

/-- `handleMouseDrag` up to the switch back. -/
def drag (s : Mouse) : Option Mouse :=
  if s.dragState = 0 then s.startDrag
  else if s.dragState = 1 then s.continueDrag
  else some s

/-- `handleMouseDrag`. -/
def handleMouseDrag (s : Mouse) : Option Mouse := do
  let s ← s.drag
  let g ← s.gui.switchBack
  return { s with gui := g }

/-- The redraw that ends a drag. -/
def settleDrag (s : Mouse) : Option Gui :=
  if s.dragState = 1 then s.gui.updateLastWindow else some s.gui

/-- The left button in `updateMouseEvent`: the event it raises. -/
def leftButton (s : Mouse) (tick : UInt32) (x y : Int) : Mouse × Int :=
  if s.leftDown then
    ({ s with downPosX := x, downPosY := y, leftBtnDown := true },
      if s.leftBtnDown then mouseDragging else 0)
  else if s.leftBtnDown then
    let s := { s with leftBtnDown := false, downPosX := 0, downPosY := 0 }
    if tick - s.lastTick ≤ 30 then
      ({ s with lastTick := -30 }, leftDoubleClick)
    else
      ({ s with lastTick := tick },
        if s.gui.mouseInfo.event = mouseDragging then 0 else leftClick)
  else
    (s, 0)

/-- The right button in `updateMouseEvent`, after the left one raised
`event`. -/
def rightButton (s : Mouse) (event : Int) : Mouse × Int :=
  if s.rightDown then
    ({ s with rightBtnDown := true }, event)
  else if s.rightBtnDown then
    ({ s with rightBtnDown := false }, rightClick)
  else
    (s, event)

/-- The `switch` over the event. -/
def dispatch (s : Mouse) (event : Int) : Option Mouse :=
  if event = leftClick then s.gui.handleLeftClick.map fun g => { s with gui := g }
  else if event = leftDoubleClick then
    s.gui.handleLeftDoubleClick.map fun g => { s with gui := g }
  else if event = mouseDragging then s.handleMouseDrag
  else if event = rightClick then s.gui.handleRightClick.map fun g => { s with gui := g }
  else if event = 0 then do
    let g ← s.settleDrag
    return { s with gui := g, dragState := 0 }
  else some s

/-- The part of `updateMouseEvent` in front of the handlers: the event, noted
in `mouse_info`. -/
def decodeEvent (s : Mouse) (tick : UInt32) (x y : Int) : Mouse × Int :=
  let (s, event) := s.leftButton tick x y
  let (s, event) := s.rightButton event
  let g := { s.gui with mouseInfo := { s.gui.mouseInfo with event := event } }
  ({ s with gui := g }, event)

/-- `updateMouseEvent`. -/
def updateMouseEvent (s : Mouse) (tick : UInt32) (x y : Int) : Option Mouse :=
  (s.decodeEvent tick x y).1.dispatch (s.decodeEvent tick x y).2

/-- A movement of nine bits: the byte and its sign. -/
def movement (ch : UInt8) (sign : Bool) : Int :=
  if sign then (ch.toNat : Int) - 256 else ch.toNat

/-- The third byte of a packet. -/
def readY (s : Mouse) (ch : UInt8) : Mouse :=
  { s with disY := -movement ch s.ySign, toRead := .mouseInfo }

/-- The state and the event with which the third byte of a packet comes to the
handlers. -/
def packetEvent (s : Mouse) (tick : UInt32) (ch : UInt8) : Mouse × Int :=
  let s := s.readY ch
  s.decodeEvent tick (s.gui.mouseInfo.xPosition + s.disX) (s.gui.mouseInfo.yPosition + s.disY)

/-- `mouseint`, with the status and the data byte the controller returns. -/
def mouseint (s : Mouse) (tick : UInt32) (status ch : UInt8) : Option Mouse :=
  if status &&& 0x01 = 0 then
    some { s with toRead := .mouseInfo }
  else
    match s.toRead with
    | .mouseInfo =>
      if ch &&& 0x08 = 0 ∨ ch &&& 0x04 ≠ 0 then
        some s
      else
        some { s with
          leftDown := ch &&& 0x01 ≠ 0, rightDown := ch &&& 0x02 ≠ 0,
          xSign := ch &&& 0x10 ≠ 0, ySign := ch &&& 0x20 ≠ 0, toRead := .xMovement }
    | .xMovement => some { s with disX := movement ch s.xSign, toRead := .yMovement }
    | .yMovement => do
      let s := s.readY ch
      let t ← s.updateMouseEvent tick (s.gui.mouseInfo.xPosition + s.disX)
        (s.gui.mouseInfo.yPosition + s.disY)
      return { t with gui := t.gui.moveMousePosition t.disX t.disY }

end Mouse

end Xv6Gui
