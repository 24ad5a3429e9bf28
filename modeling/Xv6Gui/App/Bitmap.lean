import Xv6Gui.Fs.Inode
import Xv6Gui.Gui.Bounds

/-!
# Bitmaps

`readBitmapFile` of `bitmap.c`, which fills an image from a file, and the picture that
`drawImageView` makes of it.

A file is read from front to back with `read`.  The destination is the memory behind `result`,
three bytes for each pixel.  A row of the file is padded to a multiple of four bytes, and the rows
come from the bottom of the picture to its top.
-/

namespace Xv6Gui.App

open Canvas

/-- A file that is open, and the offset in it. -/
structure OpenFile where
  data : List UInt8
  off : Nat

/-- `read`, with the bytes that are stored.  The count is an `int` that `readi` takes as unsigned. -/
def OpenFile.read (f : OpenFile) (count : Int) : List UInt8 × OpenFile :=
  let n := (count % 2 ^ 32).toNat
  if f.data.length < f.off ∨ 2 ^ 32 ≤ f.off + n then
    ([], f)
  else
    let bytes := (f.data.drop f.off).take n
    (bytes, { f with off := f.off + bytes.length })

/-- The memory with some bytes stored from an address on. -/
def store (memory : Int → UInt8) (addr : Int) (bytes : List UInt8) : Int → UInt8 := fun a =>
  if addr ≤ a ∧ a < addr + bytes.length then bytes.getD (a - addr).toNat 0 else memory a

/-- The number that four bytes stand for. -/
def fromBytes (b₀ b₁ b₂ b₃ : UInt8) : Nat :=
  b₀.toNat + 2 ^ 8 * b₁.toNat + 2 ^ 16 * b₂.toNat + 2 ^ 24 * b₃.toNat

/-- An `int` in memory. -/
def intAt (memory : Int → UInt8) (addr : Int) : Int :=
  Int.bmod (fromBytes (memory addr) (memory (addr + 1)) (memory (addr + 2)) (memory (addr + 3)))
    (2 ^ 32)

/-- Pixel `k` of an image, blue first. -/
def rgbAt (memory : Int → UInt8) (k : Int) : RGB where
  B := memory (3 * k)
  G := memory (3 * k + 1)
  R := memory (3 * k + 2)

/-- `readBitmapHeader`.  The bytes of `bmpInfoHeader` are those of the stack before. -/
def readBitmapHeader (f : OpenFile) (bmpInfoHeader : Int → UInt8) : (Int → UInt8) × OpenFile :=
  let (_, f) := f.read 14
  let (bytes, f) := f.read 40
  (store bmpInfoHeader 0 bytes, f)

/-- The loop of `readBitmapFile` from the row `i` on, with what is left of its rounds. -/
def readRows (rowBytes : Int) : Nat → Int → OpenFile → (Int → UInt8) → (Int → UInt8)
  | 0, _, _, buf => buf
  | rounds + 1, i, f, buf =>
    let (bytes, f) := f.read rowBytes
    let buf := store buf (i * rowBytes) bytes
    let f := if rowBytes.tmod 4 > 0 then (f.read (4 - rowBytes.tmod 4)).2 else f
    readRows rowBytes rounds (i + 1) f buf

/-- What `readBitmapFile` returns and stores. -/
structure BitmapRead where
  value : Int
  result : Int → UInt8
  height : Int
  width : Int

/-- `readBitmapFile`, for the file that `open` finds. -/
def readBitmapFile (file : Option (List UInt8)) (stack result : Int → UInt8) (height width : Int) :
    BitmapRead :=
  match file with
  | none => ⟨-1, result, height, width⟩
  | some data =>
    let (bmpInfoHeader, f) := readBitmapHeader ⟨data, 0⟩ stack
    let column := intAt bmpInfoHeader 4
    let row := intAt bmpInfoHeader 8
    let rowBytes := Int.bmod (column * 3) (2 ^ 32)
    ⟨0, readRows rowBytes row.toNat 0 f result, row, column⟩

/-! ## Files -/

/-- The bytes of a row in the file. -/
def stride (w : Nat) : Nat := if 0 < 3 * w % 4 then 3 * w + (4 - 3 * w % 4) else 3 * w

/-- A file is a bitmap of `w` times `h` pixels.  `pixel i j` is in the column `i` of the row `j`
from the top. -/
structure IsBitmap (file : List UInt8) (w h : Nat) (pixel : Nat → Nat → RGB) : Prop where
  /-- A file has at most `MAXFILE` blocks. -/
  fits : file.length ≤ maxFile * bsize
  wide : 0 < w
  high : 0 < h
  width : intAt (fun a => file.getD a.toNat 0) 18 = w
  height : intAt (fun a => file.getD a.toNat 0) 22 = h
  complete : 54 + h * stride w ≤ file.length
  pixels : ∀ i < w, ∀ j < h, pixel i j =
    ⟨file.getD (54 + (h - 1 - j) * stride w + 3 * i + 2) 0,
      file.getD (54 + (h - 1 - j) * stride w + 3 * i + 1) 0,
      file.getD (54 + (h - 1 - j) * stride w + 3 * i) 0⟩

/-! ## Reading -/

variable {data : List UInt8} {b : Nat}

/-- A read that the file has enough bytes for. -/
theorem read_eq (off n : Nat) (small : data.length < 2 ^ 31) (enough : off + n ≤ data.length) :
    OpenFile.read ⟨data, off⟩ n = ((data.drop off).take n, ⟨data, off + n⟩) := by
  have count : ((n : Int) % 2 ^ 32).toNat = n := by omega
  have length : ((data.drop off).take n).length = n := by
    rw [List.length_take, List.length_drop]
    omega
  rw [OpenFile.read]
  simp only [count]
  rw [if_neg (by omega), length]

/-- A row that is stored is at its place and leaves the other rows. -/
theorem store_row {bytes : List UInt8} {memory : Int → UInt8} (length : bytes.length = b) (i r : Int)
    {k : Nat} (hk : k < b) :
    store memory (i * b) bytes (r * b + k) =
      if r = i then bytes.getD k 0 else memory (r * b + k) := by
  rw [store, length]
  obtain lt | rfl | gt := Int.lt_trichotomy r i
  · have before : (r + 1) * b ≤ i * b := Int.mul_le_mul_of_nonneg_right (by omega) (by omega)
    rw [Int.add_mul] at before
    rw [if_neg (by omega), if_neg (by omega)]
  · rw [if_pos (by omega), if_pos rfl]
    congr 1
    omega
  · have behind : (i + 1) * b ≤ r * b := Int.mul_le_mul_of_nonneg_right (by omega) (by omega)
    rw [Int.add_mul] at behind
    rw [if_neg (by omega), if_neg (by omega)]

/-- The bytes behind a row, up to the next one. -/
def padding (b : Nat) : Nat := if 0 < b % 4 then 4 - b % 4 else 0

theorem stride_eq (w : Nat) : stride w = 3 * w + padding (3 * w) := by
  rw [stride, padding]
  split <;> rfl

theorem readPadding_eq (off b : Nat) (small : data.length < 2 ^ 31) (enough : off + padding b ≤ data.length) :
    (if (b : Int).tmod 4 > 0 then (OpenFile.read ⟨data, off⟩ (4 - (b : Int).tmod 4)).2
      else ⟨data, off⟩) = ⟨data, off + padding b⟩ := by
  have rest : (b : Int).tmod 4 = (b % 4 : Nat) := by
    rw [Int.tmod_eq_emod_of_nonneg (by omega)]
    rfl
  rw [rest]
  by_cases pad : 0 < b % 4
  · have bytes : padding b = 4 - b % 4 := if_pos pad
    have count : (4 : Int) - (b % 4 : Nat) = (padding b : Nat) := by omega
    rw [if_pos (by omega), count, read_eq _ _ small enough]
  · rw [if_neg (by omega), padding, if_neg pad, Nat.add_zero]

/-- The rows of the file are stored one behind the other, without the bytes between them. -/
theorem readRows_eq (small : data.length < 2 ^ 31) {rounds i : Nat} (buf : Int → UInt8)
    (enough : 54 + (i + rounds) * (b + padding b) ≤ data.length) (r : Int) {k : Nat} (hk : k < b) :
    readRows b rounds i ⟨data, 54 + i * (b + padding b)⟩ buf (r * b + k) =
      if i ≤ r ∧ r < i + rounds then data.getD (54 + r.toNat * (b + padding b) + k) 0
      else buf (r * b + k) := by
  induction rounds generalizing i buf with
  | zero => rw [readRows, if_neg (by omega)]
  | succ rounds ih =>
    have next : (i + 1) * (b + padding b) = i * (b + padding b) + b + padding b := by
      rw [Nat.succ_mul, Nat.add_assoc]
    have all : i + 1 + rounds = i + (rounds + 1) := by omega
    have here : (i + 1) * (b + padding b) ≤ (i + 1 + rounds) * (b + padding b) :=
      Nat.mul_le_mul_right _ (by omega)
    rw [← all] at enough
    have row := read_eq (54 + i * (b + padding b)) b small (by omega)
    have pad := readPadding_eq (54 + i * (b + padding b) + b) b small (by omega)
    have length : ((data.drop (54 + i * (b + padding b))).take b).length = b := by
      rw [List.length_take, List.length_drop]
      omega
    have spot : 54 + i * (b + padding b) + b + padding b = 54 + (i + 1) * (b + padding b) := by
      omega
    have rest := ih (i := i + 1)
      (store buf (i * b) ((data.drop (54 + i * (b + padding b))).take b)) enough
    rw [store_row length _ _ hk] at rest
    rw [readRows, row]
    dsimp only
    rw [pad, spot]
    refine Eq.trans rest ?_
    by_cases same : r = i
    · subst same
      rw [if_neg (by omega), if_pos rfl, if_pos (by omega), Int.toNat_natCast,
        List.getD_eq_getElem?_getD, List.getElem?_take_of_lt hk, List.getElem?_drop,
        ← List.getD_eq_getElem?_getD]
    · rw [if_neg same]
      have range : ((i + 1 : Nat) : Int) ≤ r ∧ r < (i + 1 : Nat) + rounds ↔
          (i : Int) ≤ r ∧ r < i + (rounds + 1 : Nat) := by omega
      simp only [range]

/-- The header of a bitmap. -/
theorem readBitmapHeader_eq (small : data.length < 2 ^ 31) (enough : 54 ≤ data.length)
    (stack : Int → UInt8) {a : Int} (low : 0 ≤ a) (high : a < 40) :
    (readBitmapHeader ⟨data, 0⟩ stack).2 = ⟨data, 54⟩ ∧
      (readBitmapHeader ⟨data, 0⟩ stack).1 a = data.getD (14 + a.toNat) 0 := by
  have first := read_eq 0 14 small (by omega)
  have second := read_eq 14 40 small (by omega)
  have length : ((data.drop 14).take 40).length = 40 := by
    rw [List.length_take, List.length_drop]
    omega
  rw [readBitmapHeader]
  simp only [Nat.cast_ofNat] at first second
  rw [first]
  dsimp only
  rw [second]
  refine ⟨rfl, ?_⟩
  dsimp only
  rw [store, length, if_pos (by omega), Int.sub_zero, List.getD_eq_getElem?_getD,
    List.getElem?_take_of_lt (by omega), List.getElem?_drop, ← List.getD_eq_getElem?_getD]

theorem intAt_congr {m m' : Int → UInt8} {a a' : Int} (same : ∀ i, 0 ≤ i → i < 4 →
    m (a + i) = m' (a' + i)) : intAt m a = intAt m' a' := by
  have first := same 0 (by omega) (by omega)
  rw [Int.add_zero, Int.add_zero] at first
  have second := same 1 (by omega) (by omega)
  have third := same 2 (by omega) (by omega)
  have fourth := same 3 (by omega) (by omega)
  unfold intAt
  rw [first, second, third, fourth]

theorem headerInt_eq (small : data.length < 2 ^ 31) (enough : 54 ≤ data.length)
    (stack : Int → UInt8) {a : Int} (low : 0 ≤ a) (high : a + 4 ≤ 40) :
    intAt (readBitmapHeader ⟨data, 0⟩ stack).1 a = intAt (fun a => data.getD a.toNat 0) (14 + a) := by
  refine intAt_congr fun i hi lt => ?_
  rw [(readBitmapHeader_eq small enough stack (by omega) (by omega)).2]
  congr 1
  omega

variable {file : List UInt8} {w h : Nat} {pixel : Nat → Nat → RGB}

theorem IsBitmap.small (bmp : IsBitmap file w h pixel) : file.length < 2 ^ 31 := by
  have fits := bmp.fits
  simp only [maxFile, ndirect, nindirect, bsize] at fits
  omega

/-- A row is not longer than the file. -/
theorem IsBitmap.row_le (bmp : IsBitmap file w h pixel) : 54 + stride w ≤ file.length := by
  have complete := bmp.complete
  have row : 1 * stride w ≤ h * stride w := Nat.mul_le_mul_right _ bmp.high
  omega

theorem IsBitmap.readBitmapFile_eq (bmp : IsBitmap file w h pixel) (stack result : Int → UInt8)
    (height width : Int) :
    readBitmapFile (some file) stack result height width =
      ⟨0, readRows (3 * w : Nat) h 0 ⟨file, 54⟩ result, h, w⟩ := by
  have row := bmp.row_le
  have small := bmp.small
  rw [stride_eq] at row
  have column : intAt (readBitmapHeader ⟨file, 0⟩ stack).1 4 = w :=
    (headerInt_eq small (by omega) stack (by decide) (by decide)).trans bmp.width
  have rows : intAt (readBitmapHeader ⟨file, 0⟩ stack).1 8 = h :=
    (headerInt_eq small (by omega) stack (by decide) (by decide)).trans bmp.height
  have behind := (readBitmapHeader_eq small (by omega) stack (show (0 : Int) ≤ 0 by decide)
    (by decide)).1
  have rowBytes : Int.bmod ((w : Int) * 3) (2 ^ 32) = (3 * w : Nat) := by
    rw [Int.bmod_eq_of_le (by omega) (by omega)]
    omega
  rw [readBitmapFile]
  dsimp only
  rw [column, rows, behind, rowBytes, Int.toNat_natCast]

/-- The image is filled with the pixels of the file, and nothing is stored behind it. -/
theorem IsBitmap.result (bmp : IsBitmap file w h pixel) (stack result : Int → UInt8)
    (height width : Int) :
    (∀ i < w, ∀ j < h, rgbAt (readBitmapFile (some file) stack result height width).result
      ((h - 1 - j : Int) * w + i) = pixel i j) ∧
    ∀ a : Int, a < 0 ∨ 3 * (w * h : Nat) ≤ a →
      (readBitmapFile (some file) stack result height width).result a = result a := by
  have complete := bmp.complete
  have wide := bmp.wide
  rw [stride_eq] at complete
  have rows := fun (r : Int) (k : Nat) (hk : k < 3 * w) => readRows_eq bmp.small (i := 0) result
    (show 54 + (0 + h) * (3 * w + padding (3 * w)) ≤ file.length by rwa [Nat.zero_add]) r hk
  rw [Nat.zero_mul, ← stride_eq] at rows
  rw [bmp.readBitmapFile_eq]
  dsimp only
  constructor
  · intro i hi j hj
    have byte : ∀ c : Nat, c < 3 → readRows (3 * w : Nat) h 0 ⟨file, 54⟩ result
        (3 * ((h - 1 - j : Int) * w + i) + c) =
          file.getD (54 + (h - 1 - j) * stride w + 3 * i + c) 0 := by
      intro c hc
      have spot : 3 * ((h - 1 - j : Int) * w + i) + c =
          (h - 1 - j : Int) * (3 * w : Nat) + (3 * i + c : Nat) := by
        push_cast
        ring
      have row : (h - 1 - j : Int).toNat = h - 1 - j := by omega
      rw [spot]
      refine (rows _ _ (by omega)).trans ?_
      rw [if_pos (by omega), row, Nat.add_assoc _ (3 * i) c]
    have blue := byte 0 (by omega)
    have green := byte 1 (by omega)
    have red := byte 2 (by omega)
    rw [Nat.cast_zero, Int.add_zero, Nat.add_zero] at blue
    rw [Nat.cast_one] at green
    rw [Nat.cast_ofNat] at red
    rw [bmp.pixels i hi j hj, rgbAt, blue, green, red]
  · intro a out
    -- every address is a byte of some row
    have rest := Int.emod_nonneg a (show ((3 * w : Nat) : Int) ≠ 0 by omega)
    have less := Int.emod_lt_of_pos a (show (0 : Int) < (3 * w : Nat) by omega)
    have split : a = a / (3 * w : Nat) * (3 * w : Nat) + ((a % (3 * w : Nat)).toNat : Nat) := by
      rw [Int.toNat_of_nonneg rest, Int.mul_comm, Int.mul_ediv_add_emod]
    rw [split]
    refine (rows _ _ (by omega)).trans (if_neg ?_)
    rintro ⟨low, high⟩
    have last : a / (3 * w : Nat) * (3 * w : Nat) ≤ (h - 1 : Int) * (3 * w : Nat) :=
      Int.mul_le_mul_of_nonneg_right (by omega) (by omega)
    have first : 0 ≤ a / (3 * w : Nat) * (3 * w : Nat) := Int.mul_nonneg low (by omega)
    have size : 3 * ((w * h : Nat) : Int) = (h - 1 : Int) * (3 * w : Nat) + (3 * w : Nat) := by
      push_cast
      ring
    omega

/-! ## Drawing -/

/-- The place of an image view is inside of the screen. -/
def OnFrame (view : ImageView) (window : Window) : Prop :=
  0 ≤ window.leftTopX + view.leftTopX ∧
    window.leftTopX + view.leftTopX + view.width ≤ screenWidth ∧
    0 ≤ window.leftTopY + view.leftTopY ∧
    window.leftTopY + view.leftTopY + view.height ≤ screenHeight

/-- An image view that shows the bitmap. -/
def BitmapRead.view (bitmap : BitmapRead) (x y : Int) (alphaBG : Bool) : ImageView where
  leftTopX := x
  leftTopY := y
  width := bitmap.width
  height := bitmap.height
  alphaBG := alphaBG
  image := rgbAt bitmap.result
  onLeftClickHandler := ⟨0, false⟩

/-- The buffer after `drawImageView`. -/
def drawn (memory : Int → RGB) (base : Int) (view : ImageView) (window : Window) : Int → RGB :=
  paint memory base ((drawImageView view window).map Point.toStore)

/-- A bitmap is shown upright, as it is in the file, and nothing else changes.  With `alphaBG` its
black pixels are left out. -/
theorem bitmap_upright (bmp : IsBitmap file w h pixel) (stack result : Int → UInt8)
    (height width : Int) {bitmap : BitmapRead}
    (read : bitmap = readBitmapFile (some file) stack result height width) :
    bitmap.value = 0 ∧ bitmap.width = w ∧ bitmap.height = h ∧
    (∀ i < w, ∀ j < h, rgbAt bitmap.result ((h - 1 - j : Int) * w + i) = pixel i j) ∧
    (∀ a : Int, a < 0 ∨ 3 * (w * h : Nat) ≤ a → bitmap.result a = result a) ∧
    ∀ (x y base : Int) (alphaBG : Bool) (window : Window) (memory : Int → RGB),
      OnFrame (bitmap.view x y alphaBG) window →
      (∀ i < w, ∀ j < h, drawn memory base (bitmap.view x y alphaBG) window
          (base + offset (window.leftTopX + x + i) (window.leftTopY + y + j)) =
        if alphaBG ∧ pixel i j = black then
          memory (base + offset (window.leftTopX + x + i) (window.leftTopY + y + j))
        else pixel i j) ∧
      ∀ a, (∀ i < w, ∀ j < h, a ≠ base + offset (window.leftTopX + x + i)
          (window.leftTopY + y + j)) →
        drawn memory base (bitmap.view x y alphaBG) window a = memory a := by
  obtain ⟨filled, kept⟩ := bmp.result stack result height width
  have sizes := bmp.readBitmapFile_eq stack result height width
  rw [← read] at filled kept sizes
  have wide : bitmap.width = w := by rw [sizes]
  have high : bitmap.height = h := by rw [sizes]
  refine ⟨by rw [sizes], wide, high, filled, kept, ?_⟩
  intro x y base alphaBG window memory inside
  constructor
  · intro i hi j hj
    have image := filled i hi j hj
    rw [← wide, ← high] at image
    refine (paint_drawImage inside.1 inside.2.1 inside.2.2.1 inside.2.2.2 (by omega)
      (show (i : Int) < bitmap.width by omega) (by omega)
      (show (j : Int) < bitmap.height by omega)).trans ?_
    simp only [BitmapRead.view, image, Bool.and_eq_true, isAlpha_iff]
  · intro a out
    refine paint_other fun p hp here => ?_
    obtain ⟨q, hq, rfl⟩ := List.mem_map.mp hp
    obtain ⟨i, j, low, right, top, bottom, -, rfl⟩ := mem_drawImage.mp hq
    have right : i < bitmap.width := right
    have bottom : j < bitmap.height := bottom
    obtain ⟨i, rfl⟩ := Int.eq_ofNat_of_zero_le low
    obtain ⟨j, rfl⟩ := Int.eq_ofNat_of_zero_le top
    exact out i (by omega) j (by omega) here

/-- A bitmap of two rows: blue and red, and above them green and black. -/
def fourPixels : List UInt8 :=
  List.replicate 18 0 ++ [2, 0, 0, 0, 2, 0, 0, 0] ++ List.replicate 28 0 ++
    [255, 0, 0, 0, 0, 255, 7, 7, 0, 255, 0, 0, 0, 0, 7, 7]

theorem fourPixels_isBitmap : IsBitmap fourPixels 2 2 fun i j =>
    if j = 0 then if i = 0 then ⟨0, 255, 0⟩ else black
    else if i = 0 then ⟨0, 0, 255⟩ else ⟨255, 0, 0⟩ := by
  constructor <;> decide +kernel

/-- The four pixels, drawn with `alphaBG` at a corner of the screen. -/
theorem bitmap_upright_four : ∃ bitmap,
    bitmap = readBitmapFile (some fourPixels) (fun _ => 0) (fun _ => 0) 0 0 ∧
    rgbAt bitmap.result 0 = ⟨0, 0, 255⟩ ∧ rgbAt bitmap.result 2 = ⟨0, 255, 0⟩ ∧
    ∀ (window : Window) (memory : Int → RGB), window.leftTopX = 0 → window.leftTopY = 0 →
      drawn memory 0 (bitmap.view 0 0 true) window (offset 0 0) = ⟨0, 255, 0⟩ ∧
      drawn memory 0 (bitmap.view 0 0 true) window (offset 1 0) = memory (offset 1 0) ∧
      drawn memory 0 (bitmap.view 0 0 true) window (offset 1 1) = ⟨255, 0, 0⟩ := by
  obtain ⟨-, wide, high, filled, -, draw⟩ :=
    bitmap_upright fourPixels_isBitmap (fun _ => 0) (fun _ => 0) 0 0 rfl
  refine ⟨_, rfl, filled 0 (by decide) 1 (by decide), filled 0 (by decide) 0 (by decide), ?_⟩
  intro window memory left top
  obtain ⟨drawn, -⟩ := draw 0 0 0 true window memory (by
    simp only [OnFrame, BitmapRead.view, left, top, wide, high]
    decide)
  simp only [left, top] at drawn
  exact ⟨drawn 0 (by decide) 0 (by decide), drawn 1 (by decide) 0 (by decide),
    drawn 1 (by decide) 1 (by decide)⟩

end Xv6Gui.App
