import Xv6Gui.Gui.Focus

/-!
# The calls of the window system

The functions of `window.c` with the redraw they end in, on the state of the
whole graphical part.  The queue itself is changed by the functions of
`Window/Queue`.
-/

namespace Xv6Gui.Gui

/-- `sys_createWindow`.  It redraws only when a slot was found. -/
def sysCreateWindow (s : Gui) (arg : Option Int) : Option (Int × Gui) := do
  let p ← s.proc
  let (r, queue) ← s.queue.sysCreateWindow p arg
  if r < 0 then
    return (r, s)
  else
    let s ← { s with queue := queue }.updateBackWindows
    return (r, s)

/-- `sys_deleteWindow`.  It redraws only when the entry was found. -/
def sysDeleteWindow (s : Gui) (arg : Option Int) : Option (Int × Gui) := do
  let (r, queue) ← s.queue.sysDeleteWindow arg
  if r < 0 then
    return (r, s)
  else
    let s ← { s with queue := queue }.updateBackWindows
    return (r, s)

/-- `reorderQueue`. -/
def reorderQueue (s : Gui) (q : Node) : Option Gui := do
  let queue ← s.queue.reorderQueue q
  { s with queue := queue }.updateBackWindows

/-- The displacement along one axis: an edge at `pos` of an extent `size`,
moved by `d`, is kept between 0 and `limit`.  The second test sees the
displacement the first one left. -/
def clampMove (pos size limit d : Int) : Int :=
  let d := if pos + d < 0 then -pos else d
  if pos + size + d ≥ limit then limit - (pos + size) else d

/-- `moveWindow` on the window at an address. -/
def moveWindow (s : Gui) (addr fx fy tx ty : Int) (isdraw : Bool) : Option Gui := do
  let w ← s.loadWindow addr
  let dx := clampMove w.leftTopX w.width screenWidth (tx - fx)
  let dy := clampMove w.leftTopY w.height screenHeight (ty - fy)
  let s ← s.storeWindow addr { w with leftTopX := w.leftTopX + dx, leftTopY := w.leftTopY + dy }
  if isdraw then s.updateLastWindow else some s

end Xv6Gui.Gui
