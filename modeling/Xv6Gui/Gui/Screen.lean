import Xv6Gui.Gui.Draw
import Xv6Gui.Lib.Canvas
import Xv6Gui.Window.Queue

/-!
# The compositor

The state of the kernel's graphical part and the functions of `gui.c` that
compose the screen.

The frame buffer is one memory of pixels.  `initGUI` puts `screen`,
`screen_temp1` and `screen_temp2` into it one behind the other, so a store past
the end of one buffer falls into the next.  Addresses count pixels.

Windows and icons are in the memory of the processes.  The kernel reaches them
through the page table that is loaded, so an access resolves an address in the
process of the last `switchuvm`.  Programs are linked at address 0, so 0 is an
address of user memory like any other.  `none` is an access the machine has no
meaning for: to a field of a null `proc` or queue entry, or to user memory while
the kernel's own page table is loaded.  `switchuvm` also reads `proc->kstack`, so
it needs a current process.  Its test of `pgdir` concerns the process table and
is not part of this state.
-/

namespace Xv6Gui

open Canvas

/-- `struct MouseInfo`. -/
structure MouseInfo where
  xPosition : Int
  yPosition : Int
  lastDrawX : Int
  lastDrawY : Int
  event : Int

/-- What a call of `focusIconView` or `focusDismiss` finds.  A record, not part
of the machine. -/
structure FocusCall where
  /-- `focusIcon`, 0 when null. -/
  icon : Int
  /-- The process in whose memory the icon lies. -/
  owner : Option ProcPtr
  /-- `lastWindow->proc`. -/
  proc : Option ProcPtr
  /-- The addresses of the icons among the widgets of `lastWindow->window`. -/
  icons : List Int

/-- The state of `gui.c`. -/
structure Gui where
  queue : Queue
  /-- The windows in the memory of each process. -/
  window : ProcPtr → Int → Window
  /-- The icons in the memory of each process. -/
  icon : ProcPtr → Int → IconView
  /-- The frame buffer. -/
  pixels : Int → RGB
  mouseInfo : MouseInfo
  /-- `focusIcon`, an address in the memory of some process, 0 when null. -/
  focusIcon : Int
  background : Int → RGB
  isBg : Int → Bool
  character : Font
  /-- The process whose page table is loaded, or the kernel's. -/
  loaded : Option ProcPtr
  /-- The current process. -/
  proc : Option ProcPtr
  /-- Ghost: the process in whose memory `focusIcon` points. -/
  focusOwner : Option ProcPtr
  /-- Ghost: the calls of the focus functions so far. -/
  focusCalls : List FocusCall

/-- The pixels of a buffer. -/
def totalPels : Int := screenWidth * screenHeight

/-- The address of `screen`. -/
def screen : Int := 0

/-- The address of `screen_temp1`. -/
def screenTemp1 : Int := totalPels

/-- The address of `screen_temp2`. -/
def screenTemp2 : Int := 2 * totalPels

/-- `MOUSE_WIDTH`. -/
def mouseWidth : Int := 14

/-- `MOUSE_HEIGHT`. -/
def mouseHeight : Int := 28

/-- `MOUSE_DRAGGING`. -/
def mouseDragging : Int := 7

namespace Gui

/-! ## Page tables and user memory -/

/-- `switchuvm`, which panics without a process. -/
def switchuvm (s : Gui) (p : Option ProcPtr) : Option Gui := do
  let _ ← s.proc
  let p ← p
  return { s with loaded := some p }

/-- `switchkvm`. -/
def switchkvm (s : Gui) : Gui := { s with loaded := none }

/-- `if (proc == 0) switchkvm(); else switchuvm(proc);` -/
def switchBack (s : Gui) : Option Gui :=
  match s.proc with
  | none => some s.switchkvm
  | some p => s.switchuvm (some p)

/-- Read a window. -/
def loadWindow (s : Gui) (addr : Int) : Option Window :=
  s.loaded.map fun p => s.window p addr

/-- Write a window. -/
def storeWindow (s : Gui) (addr : Int) (w : Window) : Option Gui :=
  s.loaded.map fun p =>
    { s with window := Function.update s.window p (Function.update (s.window p) addr w) }

/-- Read an icon. -/
def loadIcon (s : Gui) (addr : Int) : Option IconView :=
  s.loaded.map fun p => s.icon p addr

/-- Write an icon. -/
def storeIcon (s : Gui) (addr : Int) (i : IconView) : Option Gui :=
  s.loaded.map fun p =>
    { s with icon := Function.update s.icon p (Function.update (s.icon p) addr i) }

/-- `*lastWindow`. -/
def lastEntry (s : Gui) : WindowQueue := s.queue.entry s.queue.lastWindow

/-! ## Windows -/

/-- Draw a picture into a buffer. -/
def draw (s : Gui) (buf : Int) (picture : Picture) : Gui :=
  { s with pixels := paint s.pixels buf (picture.map Point.toStore) }

/-- The `switch` over the type of a widget, in a window of process `p`. -/
def drawWidget (s : Gui) (p : ProcPtr) (window : Window) : Widget → Picture
  | .label l => drawLabel l window
  | .textBox t => drawTextBox s.character t window
  | .button b => drawButton s.character b window
  | .imageView v => drawImageView v window
  | .iconView addr => drawIconView s.character (s.icon p addr) window
  | .other => []

/-- A window of process `p` with its widgets, when it is shown. -/
def windowPicture (s : Gui) (p : ProcPtr) (window : Window) (focus : Bool) : Picture :=
  if window.shown = 1 then
    drawWindow s.character window focus ++
      (Int.range 0 window.widgetsNum).flatMap fun k => s.drawWidget p window (window.widgets k)
  else
    []

/-- Draw the window at an address of process `p`, if the address is not null. -/
def drawEntry (s : Gui) (buf : Int) (p : ProcPtr) (addr : Int) (focus : Bool) : Gui :=
  if addr = 0 then s else s.draw buf (s.windowPicture p (s.window p addr) focus)

/-- The loop of `drawBackWindows`, from the node `p`. -/
def drawBackFrom (s : Gui) : Nat → Node → Option Gui
  | 0, _ => none
  | fuel + 1, p =>
    if s.queue.next p = some s.queue.lastWindow then
      some s
    else do
      let p ← s.queue.next p
      let s ← s.switchuvm (s.queue.entry p).proc
      let owner ← s.loaded
      let s := s.drawEntry screenTemp1 owner (s.queue.entry p).window false
      s.drawBackFrom fuel p

/-- `drawBackWindows`. -/
def drawBackWindows (s : Gui) : Option Gui := do
  let s ← s.drawBackFrom Queue.queueFuel .windowQueue
  s.switchBack

/-- The offsets of a rectangle enlarged by one pixel, row by row. -/
def outlineOffsets (x y width height : Int) : List Int :=
  (Int.range (-1) (height + 1)).flatMap fun j =>
    (Int.range (-1) (width + 1)).map fun i => (y + j) * screenWidth + (x + i)

/-- `removeLastWindow`. -/
def removeLastWindow (s : Gui) : Option Gui := do
  let s ← s.switchuvm s.lastEntry.proc
  let w ← s.loadWindow s.lastEntry.window
  let offsets := outlineOffsets w.lastLeftTopX w.lastLeftTopY w.width w.height
  let s := { s with pixels := copyAt s.pixels screenTemp2 screenTemp1 offsets }
  s.switchBack

/-- `drawLastWindow`. -/
def drawLastWindow (s : Gui) : Option Gui := do
  let s ← s.switchuvm s.lastEntry.proc
  let owner ← s.loaded
  let s := s.drawEntry screenTemp2 owner s.lastEntry.window true
  let w ← s.loadWindow s.lastEntry.window
  let s ← s.storeWindow s.lastEntry.window
    { w with lastLeftTopX := w.leftTopX, lastLeftTopY := w.leftTopY }
  s.switchBack

/-! ## The pointer -/

/-- The pointer while dragging: the table `dm`. -/
def dm : List (List Nat) :=
  [[0, 0, 0, 0, 0, 1, 1, 1, 1, 0, 0, 0, 0, 0],
   [0, 0, 0, 0, 1, 1, 2, 2, 1, 1, 0, 0, 0, 0],
   [0, 0, 0, 1, 2, 2, 2, 2, 2, 2, 1, 0, 0, 0],
   [0, 0, 1, 2, 2, 2, 2, 2, 2, 2, 2, 1, 0, 0],
   [0, 1, 2, 2, 2, 2, 2, 2, 2, 2, 2, 2, 1, 0],
   [1, 1, 2, 2, 2, 2, 2, 2, 2, 2, 2, 2, 1, 1],
   [1, 2, 2, 2, 2, 2, 2, 2, 2, 2, 2, 2, 2, 1],
   [1, 2, 2, 2, 2, 2, 2, 2, 2, 2, 2, 2, 2, 1],
   [1, 1, 2, 2, 2, 2, 2, 2, 2, 2, 2, 2, 1, 1],
   [0, 1, 2, 2, 2, 2, 2, 2, 2, 2, 2, 2, 1, 0],
   [0, 0, 1, 2, 2, 2, 2, 2, 2, 2, 2, 1, 0, 0],
   [0, 0, 0, 1, 2, 2, 2, 2, 2, 2, 1, 0, 0, 0],
   [0, 0, 0, 0, 1, 1, 2, 2, 1, 1, 0, 0, 0, 0],
   [0, 0, 0, 0, 0, 1, 1, 1, 1, 0, 0, 0, 0, 0]]

/-- The color of a point of the table `dm`, if it is drawn. -/
def dmColor (i j : Int) : Option RGB :=
  match (dm.getD i.toNat []).getD j.toNat 0 with
  | 2 => some white
  | 1 => some black
  | _ => none

/-- The positions of a shape at `(x, y)`, row by row, up to the right and the
bottom edge of the screen.  The loops break at the first position past an
edge. -/
def clipped (x y : Int) (rows : List Int) (columns : Int → List Int) : List (Int × Int) :=
  (rows.takeWhile fun j => y + j < screenHeight).flatMap fun j =>
    ((columns j).takeWhile fun i => x + i < screenWidth).map fun i => (i, j)

/-- The points of a shape at `(x, y)`. -/
def drawClipped (x y : Int) (rows : List Int) (columns : Int → List Int)
    (color : Int → Int → Option RGB) : Picture :=
  (clipped x y rows columns).filterMap fun (i, j) =>
    (color i j).map fun c => ⟨x + i, y + j, c⟩

/-- The head of the pointer. -/
def arrowHead (i j : Int) : Option RGB :=
  if i = 0 ∨ i = j - 1 ∨ (j = mouseHeight / 2 - 1 ∧ i ≥ mouseWidth / 2) then some white
  else some black

/-- The tail of the pointer. -/
def arrowTail (i j : Int) : Option RGB :=
  if i = 0 ∨ i = mouseWidth + mouseWidth / 2 - 2 - j then some white else some black

/-- The pointer. -/
def pointerPicture (info : MouseInfo) : Picture :=
  let x := info.xPosition
  let y := info.yPosition
  if info.event = mouseDragging then
    drawClipped x y (Int.range 0 (mouseHeight / 2)) (fun _ => Int.range 0 mouseWidth) dmColor
  else
    drawClipped x y (Int.range 0 (mouseHeight / 2)) (fun j => Int.range 0 j) arrowHead ++
    drawClipped x y (Int.range (mouseHeight / 2) (mouseHeight / 2 + mouseHeight / 4))
      (fun j => Int.range 0 (mouseWidth + mouseWidth / 2 - 1 - j)) arrowTail

/-- The offsets of the rectangle of the pointer last drawn. -/
def pointerOffsets (info : MouseInfo) : List Int :=
  let x := info.lastDrawX
  let y := info.lastDrawY
  (clipped x y (Int.range 0 mouseHeight) fun _ => Int.range 0 mouseWidth).map
    fun (i, j) => (y + j) * screenWidth + (x + i)

/-- `removeMouse`. -/
def removeMouse (s : Gui) : Gui :=
  { s with pixels := copyAt s.pixels screen screenTemp2 (pointerOffsets s.mouseInfo) }

/-- `drawMouse`. -/
def drawMouse (s : Gui) : Gui :=
  let s := s.draw screen (pointerPicture s.mouseInfo)
  { s with mouseInfo := { s.mouseInfo with
      lastDrawX := s.mouseInfo.xPosition, lastDrawY := s.mouseInfo.yPosition } }

/-! ## Updates -/

/-- `memmove` of a whole frame. -/
def moveFrame (s : Gui) (dst src : Int) : Gui :=
  { s with pixels := move s.pixels dst src totalPels }

/-- `updateBackWindows`. -/
def updateBackWindows (s : Gui) : Option Gui := do
  let s := { s with pixels := fill s.pixels screenTemp1 totalPels black }
  let s ← s.drawBackWindows
  let s := s.moveFrame screenTemp2 screenTemp1
  let s ← s.drawLastWindow
  let s := s.moveFrame screen screenTemp2
  return s.drawMouse

/-- `updateLastWindow`. -/
def updateLastWindow (s : Gui) : Option Gui := do
  let s ← s.removeLastWindow
  let s ← s.drawLastWindow
  let s := s.moveFrame screen screenTemp2
  return s.drawMouse

/-- `updateMouse`. -/
def updateMouse (s : Gui) : Gui := s.removeMouse.drawMouse

end Gui

end Xv6Gui
