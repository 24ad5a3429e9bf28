import Xv6Gui.Gui.Widgets

/-!
# Pictures

The drawing functions of `gui.c`.  None of them reads the buffer it draws into,
so each is a *picture*: the list of the points it stores, in the order of the
source.  A point has screen coordinates, and it is stored at the address
`y * SCREEN_WIDTH + x` behind the buffer.  Nothing clips a picture, so a point
may lie off the screen.

The table `character` of `character.h` is a parameter of every picture that
draws text: row and column of the glyph of a printable character.
-/

namespace Xv6Gui

/-- `character[ord][i][j] == 1`. -/
abbrev Font := Nat → Nat → Nat → Bool

/-- A pixel of a picture. -/
structure Point where
  x : Int
  y : Int
  color : RGB

/-- Where a point is stored behind a buffer, with what is stored. -/
def Point.toStore (p : Point) : Int × RGB := (p.y * screenWidth + p.x, p.color)

/-- The points of a drawing, in the order in which they are stored. -/
abbrev Picture := List Point

/-- A line of pixels. -/
def row (x y width : Int) (color : RGB) : Picture :=
  (Int.range 0 width).map fun i => ⟨x + i, y, color⟩

/-- `isAlpha`: black is transparent. -/
def isAlpha (color : RGB) : Bool :=
  color.R = color.G ∧ color.R = color.B ∧ color.R = 0x00

/-- Black. -/
def black : RGB := ⟨0, 0, 0⟩

/-- White. -/
def white : RGB := ⟨0xff, 0xff, 0xff⟩

/-- The gray of labels. -/
def gray : RGB := ⟨0xc8, 0xc8, 0xc8⟩

/-- The gray of lines. -/
def shadow : RGB := ⟨0xcc, 0xcc, 0xcc⟩

/-- The blue of menus. -/
def panel : RGB := ⟨220, 226, 241⟩

/-- The color of the focus. -/
def highlight : RGB := ⟨226, 149, 91⟩

/-- The color of the frame. -/
def frameColor (focus : Bool) : RGB := if focus then highlight else ⟨0xbb, 0xbb, 0xbb⟩

/-! ## Text -/

/-- `CHARACTER_WIDTH`. -/
def characterWidth : Nat := 9

/-- `CHARACTER_HEIGHT`. -/
def characterHeight : Nat := 18

/-- The columns of a glyph that are drawn: the first two, and those with a
point. -/
def glyphColumns (character : Font) (ord : Nat) : List Nat :=
  (List.range characterWidth).filter fun j =>
    j ≤ 1 ∨ (List.range characterHeight).any fun i => character ord i j

/-- `drawCharacter`: the points, and the result.  A `char` with the top bit set
is negative in the source and out of range here as well. -/
def drawCharacter (character : Font) (x y : Int) (ch : UInt8) (color : RGB) : Picture × Int :=
  let ord : Int := ch.toNat - 0x20
  if ord > 94 ∨ ord < 0 then
    ([], -1)
  else
    let columns := glyphColumns character ord.toNat
    (columns.flatMap fun j =>
        ((List.range characterHeight).filter fun i => character ord.toNat i j).map fun (i : Nat) =>
          ⟨x + j, y + i, color⟩,
      columns.length + 2)

/-- `drawCharacters`, with the next character at `x`. -/
def drawCharacters (character : Font) (x y : Int) (str : List UInt8) (color : RGB) : Picture :=
  match str with
  | [] => []
  | ch :: str =>
    let (points, width) := drawCharacter character x y ch color
    points ++ drawCharacters character (x + width) y str color

/-! ## Widgets -/

/-- `drawLabel`. -/
def drawLabel (label : Label) (window : Window) : Picture :=
  (Int.range 0 label.height).flatMap fun j =>
    row (window.leftTopX + label.leftTopX) (window.leftTopY + label.leftTopY + j) label.width gray

/-- The caret. -/
def drawCursor (textBox : TextBox) (window : Window) (lines posX : Int) : Picture :=
  (List.range characterHeight).map fun (s : Nat) =>
    ⟨window.leftTopX + textBox.leftTopX + posX,
      window.leftTopY + textBox.leftTopY + lines * 18 + s, black⟩

/-- The caret, when it stands behind the character `i`. -/
def drawCursorAfter (textBox : TextBox) (window : Window) (i lines posX : Int) : Picture :=
  if i = textBox.cursor - 1 then drawCursor textBox window lines posX else []

/-- The text loop of `drawTextBox`, at the character `i`, the column `posX` and
the line `j`. -/
def drawText (character : Font) (textBox : TextBox) (window : Window) (str : List UInt8)
    (i posX j : Int) : Picture :=
  match str with
  | [] => []
  | ch :: str =>
    let wrap := posX > textBox.width - 9
    let posX := if wrap then 9 else posX
    let j := if wrap then j + 1 else j
    if ch = 10 then
      drawCursorAfter textBox window i (j + 1) 9 ++
        drawText character textBox window str (i + 1) 9 (j + 1)
    else
      let (points, width) := drawCharacter character
        (window.leftTopX + textBox.leftTopX + posX)
        (window.leftTopY + textBox.leftTopY + j * characterHeight) ch black
      points ++ drawCursorAfter textBox window i j (posX + width) ++
        drawText character textBox window str (i + 1) (posX + width) j

/-- `drawTextBox`. -/
def drawTextBox (character : Font) (textBox : TextBox) (window : Window) : Picture :=
  let x := window.leftTopX + textBox.leftTopX
  let y := window.leftTopY + textBox.leftTopY
  ((Int.range 0 textBox.height).flatMap fun j => row x (y + j) textBox.width white) ++
  ((Int.range 0 textBox.height).flatMap fun j =>
    [⟨x, y + j, shadow⟩, ⟨x + (textBox.width - 1), y + j, shadow⟩]) ++
  row x y (textBox.width - 1) shadow ++
  row x (y + textBox.height - 1) (textBox.width - 1) shadow ++
  drawText character textBox window (cstring textBox.text) 0 9 0 ++
  (if textBox.cursor = 0 then drawCursor textBox window 0 9 else [])

/-- The points of an image stored bottom row first, without those that
`transparent` holds of. -/
def drawImage (image : Int → RGB) (x y width height : Int) (transparent : RGB → Bool) : Picture :=
  (Int.range 0 height).flatMap fun j =>
    ((Int.range 0 width).filter fun i => !transparent (image ((height - 1 - j) * width + i))).map
      fun i => ⟨x + i, y + j, image ((height - 1 - j) * width + i)⟩

/-- `drawButton`. -/
def drawButton (character : Font) (button : Button) (window : Window) : Picture :=
  let x := window.leftTopX + button.leftTopX
  let y := window.leftTopY + button.leftTopY
  let str := cstring button.text
  (match button.image with
    | some image => drawImage image x y button.width button.height isAlpha
    | none => (Int.range 0 button.height).flatMap fun j => row x (y + j) button.width gray) ++
  if window.hasMenu then
    drawCharacters character (x + button.width + 10) (y + button.height.tdiv 3) str black
  else
    drawCharacters character (x + button.width.tdiv 2 - (str.length * 9 / 2 : Nat))
      (y + button.height.tdiv 3) str black

/-- `drawImageView`. -/
def drawImageView (imageView : ImageView) (window : Window) : Picture :=
  drawImage imageView.image (window.leftTopX + imageView.leftTopX)
    (window.leftTopY + imageView.leftTopY) imageView.width imageView.height
    fun color => imageView.alphaBG && isAlpha color

/-- `drawIconView`. -/
def drawIconView (character : Font) (iconView : IconView) (window : Window) : Picture :=
  let x := window.leftTopX + iconView.leftTopX
  let y := window.leftTopY + iconView.leftTopY
  let str := cstring iconView.text
  drawImage iconView.image x y iconView.width iconView.height isAlpha ++
    drawCharacters character (x + iconView.width.tdiv 2 - (str.length * 9 / 2 : Nat))
      (y + iconView.height + 5) str black

/-! ## Windows -/

/-- The caption of a window with its text, and the area below it. -/
def drawCaption (character : Font) (window : Window) (focus : Bool) : Picture :=
  let x := window.leftTopX
  let y := window.leftTopY
  let str := cstring window.caption
  ((Int.range 0 captionHeight).flatMap fun j => row x (y + j) window.width (frameColor focus)) ++
  drawCharacters character (x + window.width.tdiv 2 - (str.length * 9 / 2 : Nat)) (y + 5) str
    black ++
  (Int.range captionHeight (window.height - borderWidth)).flatMap fun j =>
    row x (y + j) window.width
      (if j < captionHeight + menuHeight ∧ window.hasMenu then panel
        else if j = captionHeight + menuHeight ∧ window.hasMenu then shadow
        else white)

/-- The sides and the bottom of a window. -/
def drawBorder (window : Window) (focus : Bool) : Picture :=
  let x := window.leftTopX
  let y := window.leftTopY
  ((Int.range captionHeight (window.height - borderWidth + 1)).flatMap fun j =>
    row x (y + j) borderWidth (frameColor focus)) ++
  ((Int.range captionHeight (window.height - borderWidth + 1)).flatMap fun j =>
    row (x + window.width - borderWidth) (y + j) borderWidth (frameColor focus)) ++
  (Int.range (window.height - borderWidth - 1) window.height).flatMap fun j =>
    row x (y + j) window.width (frameColor focus)

/-- The shadow of a window, and the outline one pixel outside of it. -/
def drawShadow (window : Window) : Picture :=
  let x := window.leftTopX
  let y := window.leftTopY
  row x y window.width shadow ++
  row x (y + window.height - 1) window.width shadow ++
  ((Int.range 0 window.height).flatMap fun j =>
    [⟨x, y + j, shadow⟩, ⟨x + window.width - 1, y + j, shadow⟩]) ++
  row (x - 1) (y - 1) (window.width + 2) white ++
  row (x - 1) (y + window.height) (window.width + 2) white ++
  (Int.range (-1) (window.height + 1)).flatMap fun j =>
    [⟨x - 1, y + j, white⟩, ⟨x + window.width, y + j, white⟩]

/-- The text in the footer. -/
def footerText : List UInt8 := "COOL GUI".toUTF8.toList

/-- The footer. -/
def drawFooter (character : Font) (window : Window) : Picture :=
  let x := window.leftTopX
  let y := window.leftTopY
  ((Int.range (window.height - borderWidth - footerHeight - 1)
      (window.height - borderWidth)).flatMap fun j =>
    (Int.range (borderWidth + 1) (window.width - borderWidth + 1)).flatMap fun i =>
      (if j = window.height - borderWidth - footerHeight - 1 then
        [⟨x + i - 1, y + j - 1, shadow⟩]
      else []) ++
      [⟨x + i - 1, y + j, panel⟩]) ++
  drawCharacters character (x + window.width - footerText.length * 9 - 20)
    (y + window.height - 30) footerText black

/-- `drawWindow`. -/
def drawWindow (character : Font) (window : Window) (focus : Bool) : Picture :=
  (if window.hasCaption = 1 then
    drawCaption character window focus
  else
    (Int.range 0 window.height).flatMap fun j =>
      row window.leftTopX (window.leftTopY + j) window.width white) ++
  drawBorder window focus ++
  drawShadow window ++
  if window.hasFooter then drawFooter character window else []

end Xv6Gui
