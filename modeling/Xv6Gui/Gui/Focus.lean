import Xv6Gui.Gui.Screen

/-!
# The focused icon

`focusIconView` and `focusDismiss` of `gui.c`.  The kernel keeps one pointer to
an icon, `focusIcon`, and one copy of the pixels under it.  Both functions load
the page table of `lastWindow->proc` and go through the pointer as it is, so
they reach whatever lies at that address in that process.

An icon is given to `focusIconView` by a handler that read its address in the
page table loaded at the call.  The ghost `focusOwner` records that process.
-/

namespace Xv6Gui

open Canvas

/-- `size` in the focus functions: icons have 96 rows of 96 pixels. -/
def iconSize : Int := 96 * 96

/-- The color of an icon in focus. -/
def focusColor : RGB := ⟨226, 149, 91⟩

/-- The addresses of the icons of a window. -/
def Window.icons (w : Window) : List Int :=
  (Int.range 0 w.widgetsNum).filterMap fun k =>
    match w.widgets k with
    | .iconView addr => some addr
    | _ => none

/-- The focused icon, if there is one, is an icon of the last window. -/
def FocusCall.Owned (c : FocusCall) : Prop :=
  c.icon ≠ 0 → c.owner = c.proc ∧ c.icon ∈ c.icons
  deriving Decidable

namespace Gui

/-- What a focus function called now finds. -/
def focusCall (s : Gui) : FocusCall where
  icon := s.focusIcon
  owner := s.focusOwner
  proc := s.lastEntry.proc
  icons := (s.lastEntry.proc.map fun p => (s.window p s.lastEntry.window).icons).getD []

/-- Record a call of a focus function. -/
def enterFocus (s : Gui) : Gui := { s with focusCalls := s.focusCalls ++ [s.focusCall] }

/-- The image with the saved background in it.  Images are stored bottom row
first. -/
def restoreImage (image background : Int → RGB) : Int → RGB :=
  paint image 0 ((Int.range 0 iconSize).map fun i =>
    ((95 - i / 96) * 96 + i % 96, background i))

/-- The image with the pixels marked in `isBg` transparent again. -/
def clearImage (image : Int → RGB) (isBg : Int → Bool) : Int → RGB :=
  paint image 0 (((Int.range 0 iconSize).filter isBg).map fun i => (i, black))

/-- The image with its transparent pixels in the focus color. -/
def markImage (image : Int → RGB) : Int → RGB :=
  paint image 0 (((Int.range 0 iconSize).filter fun i => isAlpha (image i)).map fun i =>
    (i, focusColor))

/-- Draw the focused icon into `screen_temp2` and `screen`. -/
def drawFocus (s : Gui) (window : Window) : Option Gui := do
  let icon ← s.loadIcon s.focusIcon
  let picture := drawIconView s.character icon window
  return (s.draw screenTemp2 picture).draw screen picture

/-- Put the saved background into the focused icon and draw it. -/
def restoreFocus (s : Gui) (window : Window) : Option Gui := do
  let icon ← s.loadIcon s.focusIcon
  let s ← s.storeIcon s.focusIcon { icon with image := restoreImage icon.image s.background }
  s.drawFocus window

/-- The loop over `isBg`.  It does not test `focusIcon`. -/
def clearFocus (s : Gui) : Option Gui := do
  let icon ← s.loadIcon s.focusIcon
  let s ← s.storeIcon s.focusIcon { icon with image := clearImage icon.image s.isBg }
  return { s with isBg := fun i => if 0 ≤ i ∧ i < iconSize then false else s.isBg i }

/-- Save the pixels of `screen_temp2` under an icon, and mark its transparent
pixels in `isBg`. -/
def saveUnder (s : Gui) (window : Window) (icon : IconView) : Gui :=
  let saved := (Int.range 0 iconSize).map fun i =>
    let x := window.leftTopX + icon.leftTopX + i % 96
    let y := window.leftTopY + icon.leftTopY + i / 96
    (i, s.pixels (screenTemp2 + (y * screenWidth + x)))
  { s with
    background := paint s.background 0 saved
    isBg := fun i => (0 ≤ i ∧ i < iconSize ∧ isAlpha (icon.image i)) || s.isBg i }

/-- The new icon gets the focus. -/
def takeFocus (s : Gui) (window : Window) : Option Gui := do
  let icon ← s.loadIcon s.focusIcon
  let s := s.saveUnder window icon
  let s ← s.storeIcon s.focusIcon { icon with image := markImage icon.image }
  s.drawFocus window

/-- `if (focusIcon)` in `focusDismiss`: draw the icon without focus. -/
def undrawFocus (s : Gui) (window : Window) : Option Gui :=
  if s.focusIcon = 0 then some s else s.restoreFocus window

/-- `if (focusIcon)` in `focusIconView`: the icon that loses the focus. -/
def leaveFocus (s : Gui) (window : Window) : Option Gui :=
  if s.focusIcon = 0 then some s else (s.restoreFocus window).bind clearFocus

/-- `focusIcon = icon`, with the process the icon is in. -/
def setFocus (s : Gui) (icon : Int) (owner : Option ProcPtr) : Gui :=
  { s with focusIcon := icon, focusOwner := owner }

/-- `focusIconView` once the page table of the last window is loaded and the
icon is not the one in focus. -/
def moveFocus (s : Gui) (icon : Int) (owner : Option ProcPtr) : Option Gui := do
  let window ← s.loadWindow s.lastEntry.window
  let s ← s.leaveFocus window
  let s ← (s.setFocus icon owner).takeFocus window
  s.switchBack

/-- `focusIconView`.  With the icon already in focus it returns under the page
table of the last window. -/
def focusIconView (s : Gui) (icon : Int) : Option Gui := do
  let owner := s.loaded
  let s ← s.enterFocus.switchuvm s.lastEntry.proc
  if s.focusIcon ≠ 0 ∧ s.focusIcon = icon then some s else s.moveFocus icon owner

/-- `focusDismiss`. -/
def focusDismiss (s : Gui) : Option Gui := do
  let s ← s.enterFocus.switchuvm s.lastEntry.proc
  let window ← s.loadWindow s.lastEntry.window
  let s ← s.undrawFocus window
  let s ← s.clearFocus
  (s.setFocus 0 none).switchBack

end Gui

end Xv6Gui
