import Mathlib.Data.Int.Range
import Xv6Gui.Param

/-!
# Windows and widgets

The structures of `window.h`, as far as the drawing code, the mouse handlers
and the event loop read them, and the constants of `gui.h`.

A widget is held by value in its window, with one exception: the kernel keeps a
pointer to an icon (`focusIcon`) and writes through it, so an icon is an
address in the memory of its process.  An image is a pointer in the source and
a value here: two widgets that share one image are not modelled.  Coordinates
are integers without overflow.  An array of the source is a function of the
index.  A character array is read as a string up to its first NUL
(`cstring`).
-/

namespace Xv6Gui

/-- `SCREEN_WIDTH`. -/
def screenWidth : Int := 1280

/-- `SCREEN_HEIGHT`. -/
def screenHeight : Int := 1024

/-- `CAPTION_HEIGHT`. -/
def captionHeight : Int := 30

/-- `MENU_HEIGHT`. -/
def menuHeight : Int := 70

/-- `BORDER_WIDTH`. -/
def borderWidth : Int := 10

/-- `FOOTER_HEIGHT`. -/
def footerHeight : Int := 25

/-- `struct RGB`, the channels in the order of `drawPoint`. -/
structure RGB where
  R : UInt8
  G : UInt8
  B : UInt8
deriving DecidableEq, Repr, Inhabited

/-- An array of characters. -/
abbrev Chars := Nat → UInt8

/-- The characters of an array in front of its first NUL. -/
def cstring (text : Chars) : List UInt8 :=
  ((List.range maxStringNum).map text).takeWhile (· ≠ 0)

/-- `struct Handler`.  `handlerFunction` says whether the pointer is set. -/
structure Handler where
  triggered : Int
  handlerFunction : Bool

/-- `struct Label`. -/
structure Label where
  leftTopX : Int
  leftTopY : Int
  width : Int
  height : Int

/-- `struct TextBox`. -/
structure TextBox where
  leftTopX : Int
  leftTopY : Int
  width : Int
  height : Int
  cursor : Int
  textLength : Int
  text : Chars

/-- `struct Button`.  The image may be null. -/
structure Button where
  image : Option (Int → RGB)
  leftTopX : Int
  leftTopY : Int
  width : Int
  height : Int
  text : Chars
  onLeftClickHandler : Handler

/-- `struct ImageView`. -/
structure ImageView where
  leftTopX : Int
  leftTopY : Int
  width : Int
  height : Int
  alphaBG : Bool
  image : Int → RGB
  onLeftClickHandler : Handler

/-- `struct IconView`. -/
structure IconView where
  leftTopX : Int
  leftTopY : Int
  width : Int
  height : Int
  image : Int → RGB
  text : Chars
  onLeftDoubleClickHandler : Handler

/-- `struct Widget`: the type tag with the context it selects.  `other` is a
tag that no `switch` of the kernel names. -/
inductive Widget where
  | label (l : Label)
  | textBox (t : TextBox)
  | button (b : Button)
  | imageView (v : ImageView)
  | iconView (addr : Int)
  | other

/-- `struct Window`. -/
structure Window where
  /-- `show`. -/
  shown : Int
  hasCaption : Int
  hasMenu : Bool
  hasFooter : Bool
  lastLeftTopX : Int
  lastLeftTopY : Int
  leftTopX : Int
  leftTopY : Int
  width : Int
  height : Int
  caption : Chars
  widgetsNum : Int
  widgets : Int → Widget
  onFileSystemChangedHandler : Handler

/-- The place and the size of a window. -/
def Window.rect (w : Window) : Int × Int × Int × Int :=
  (w.leftTopX, w.leftTopY, w.width, w.height)

end Xv6Gui
