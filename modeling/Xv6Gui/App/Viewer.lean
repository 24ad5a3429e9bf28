import Xv6Gui.App.Bitmap
import Xv6Gui.Vm.PageTable

/-!
# The image viewer

`main` of `imageviewer.c` lets `readBitmapFile` fill the array `temp` and looks at the size of the
image only afterwards, and then only for sides that are too long.  How much is stored where depends on
the header of the file, and on `argptr`, which refuses a `read` whose buffer is not in the process.

The rows of an image with sides that are not negative, and with at most as many pixels as `temp` has,
stay in `temp`.
-/

namespace Xv6Gui.App

/-- The pixels of `temp`. -/
def tempPixels : Nat := 1310720

/-- The address of `temp` in the process, and its size. -/
structure ViewerSpace where
  temp : Nat
  sz : Nat
  inside : temp + 3 * tempPixels ≤ sz
  user : sz ≤ kernbase

/-- `argptr` accepts the buffer of a `read`. -/
def ViewerSpace.Accepts (v : ViewerSpace) (ptr : Nat) (count : Int) : Prop :=
  ptr < v.sz ∧ (ptr + count) % 2 ^ 32 ≤ v.sz
  deriving Decidable

/-- `read` into the memory of the viewer. -/
def ViewerSpace.read (v : ViewerSpace) (f : OpenFile) (ptr : Nat) (count : Int) :
    List UInt8 × OpenFile :=
  if v.Accepts ptr count then f.read count else ([], f)

/-- The addresses and bytes that the loop of `readBitmapFile` stores, from the row `i` on. -/
def rowStores (v : ViewerSpace) (rowBytes : Int) : Nat → Int → OpenFile → List (Nat × List UInt8)
  | 0, _, _ => []
  | rounds + 1, i, f =>
    let buf := ((v.temp + i * rowBytes) % 2 ^ 32).toNat
    let (bytes, f) := v.read f buf rowBytes
    let f := if rowBytes.tmod 4 > 0 then (f.read (4 - rowBytes.tmod 4)).2 else f
    (buf, bytes) :: rowStores v rowBytes rounds (i + 1) f

/-- What `readBitmapFile` stores in `temp` and behind. -/
def bitmapStores (v : ViewerSpace) (stack : Int → UInt8) : Option (List UInt8) →
    List (Nat × List UInt8)
  | none => []
  | some data =>
    let (bmpInfoHeader, f) := readBitmapHeader ⟨data, 0⟩ stack
    rowStores v (Int.bmod (intAt bmpInfoHeader 4 * 3) (2 ^ 32)) (intAt bmpInfoHeader 8).toNat 0 f

/-- The place of an image view. -/
structure ImagePlace where
  leftTopX : Int
  leftTopY : Int
  width : Int
  height : Int
deriving DecidableEq

/-- The image `main` adds to the window of 600 times 500 pixels.  It is `none` if `main` exits. -/
def viewerImage (stack : Int → UInt8) (file : Option (List UInt8)) : Option ImagePlace :=
  let image := readBitmapFile file stack (fun _ => 0) 0 0
  if image.width > 600 ∨ image.height > 500 then none
  else some ⟨600 / 2 - image.width / 2, 500 / 2 - image.height / 2, image.width, image.height⟩

/-- The bytes of the file stay in `temp`, and the image is in the window. -/
structure ViewerSafe (v : ViewerSpace) (stack : Int → UInt8) (file : Option (List UInt8)) : Prop where
  stores : ∀ w ∈ bitmapStores v stack file, w.2 ≠ [] →
    v.temp ≤ w.1 ∧ w.1 + w.2.length ≤ v.temp + 3 * tempPixels
  image : ∀ p, viewerImage stack file = some p →
    (0 ≤ p.width ∧ p.width ≤ 600 ∧ 0 ≤ p.height ∧ p.height ≤ 500) ∧
    0 ≤ p.leftTopX ∧ p.leftTopX + p.width ≤ 600 ∧ 0 ≤ p.leftTopY ∧ p.leftTopY + p.height ≤ 500

variable {v : ViewerSpace} {stack : Int → UInt8} {file : Option (List UInt8)}

theorem length_read_le (f : OpenFile) (ptr : Nat) {n : Nat} (small : n < 2 ^ 32) :
    (v.read f ptr n).1.length ≤ n := by
  have count : ((n : Int) % 2 ^ 32).toNat = n := by omega
  rw [ViewerSpace.read]
  split
  · rw [OpenFile.read, count]
    dsimp only
    split <;> simp
  · simp

/-- Rows one behind the other. -/
theorem rowStores_inside {b rounds i : Nat} {f : OpenFile}
    (fits : (i + rounds) * b ≤ 3 * tempPixels) :
    ∀ w ∈ rowStores v b rounds i f, w.2 ≠ [] →
      v.temp ≤ w.1 ∧ w.1 + w.2.length ≤ v.temp + 3 * tempPixels := by
  induction rounds generalizing i f with
  | zero => exact fun w no => nomatch no
  | succ rounds ih =>
    have inside := v.inside
    have user := v.user
    have row : (i + 1) * b ≤ (i + (rounds + 1)) * b := Nat.mul_le_mul_right _ (by omega)
    rw [Nat.succ_mul] at row
    have start : ((v.temp + (i : Int) * b) % 2 ^ 32).toNat = v.temp + i * b := by
      unfold kernbase at user
      rw [← Int.natCast_mul]
      omega
    intro w hw some
    rw [rowStores, start] at hw
    rcases List.mem_cons.mp hw with rfl | later
    · have length := length_read_le (v := v) f (v.temp + i * b) (n := b)
        (by unfold kernbase at user; omega)
      show v.temp ≤ v.temp + i * b ∧
        v.temp + i * b + (v.read f (v.temp + i * b) b).1.length ≤ v.temp + 3 * tempPixels
      omega
    · exact ih (i := i + 1) (by rwa [Nat.add_right_comm, Nat.add_assoc]) w later some

/-- The sizes in the header of a file that opens. -/
theorem readBitmapFile_sizes (stack : Int → UInt8) (data : List UInt8) :
    (readBitmapFile (some data) stack (fun _ => 0) 0 0).width =
        intAt (readBitmapHeader ⟨data, 0⟩ stack).1 4 ∧
      (readBitmapFile (some data) stack (fun _ => 0) 0 0).height =
        intAt (readBitmapHeader ⟨data, 0⟩ stack).1 8 := by
  rw [readBitmapFile]
  dsimp only
  exact ⟨rfl, rfl⟩

theorem bitmapStores_some (v : ViewerSpace) (stack : Int → UInt8) (data : List UInt8) :
    bitmapStores v stack (some data) =
      rowStores v (Int.bmod (intAt (readBitmapHeader ⟨data, 0⟩ stack).1 4 * 3) (2 ^ 32))
        (intAt (readBitmapHeader ⟨data, 0⟩ stack).1 8).toNat 0 (readBitmapHeader ⟨data, 0⟩ stack).2 := by
  rw [bitmapStores]

/-- The sides of the image are not negative, and `temp` has a place for each pixel. -/
theorem bitmapStores_inside
    (wide : 0 ≤ (readBitmapFile file stack (fun _ => 0) 0 0).width)
    (fits : (readBitmapFile file stack (fun _ => 0) 0 0).width *
      (readBitmapFile file stack (fun _ => 0) 0 0).height ≤ tempPixels) :
    ∀ w ∈ bitmapStores v stack file, w.2 ≠ [] →
      v.temp ≤ w.1 ∧ w.1 + w.2.length ≤ v.temp + 3 * tempPixels := by
  cases file with
  | none => exact fun w no => nomatch no
  | some data =>
    obtain ⟨width, height⟩ := readBitmapFile_sizes stack data
    rw [width] at wide fits
    rw [height] at fits
    rw [bitmapStores_some]
    generalize intAt (readBitmapHeader ⟨data, 0⟩ stack).1 8 = row at fits
    generalize intAt (readBitmapHeader ⟨data, 0⟩ stack).1 4 = column at fits wide
    rcases Int.le_total row 0 with none | some
    · rw [Int.toNat_of_nonpos none]
      exact fun w no => nomatch no
    · obtain ⟨column, rfl⟩ := Int.eq_ofNat_of_zero_le wide
      obtain ⟨row, rfl⟩ := Int.eq_ofNat_of_zero_le some
      rcases Nat.eq_zero_or_pos row with rfl | pos
      · exact fun w no => nomatch no
      · have fits : column * row ≤ tempPixels := by exact_mod_cast fits
        have narrow : column * 1 ≤ column * row := Nat.mul_le_mul_left _ pos
        have bytes : Int.bmod ((column : Int) * 3) (2 ^ 32) = (3 * column : Nat) := by
          unfold tempPixels at fits
          rw [Int.bmod_eq_of_le (by omega) (by omega)]
          omega
        rw [bytes, Int.toNat_natCast]
        exact rowStores_inside (i := 0) (by
          rw [Nat.zero_add, Nat.mul_left_comm, Nat.mul_comm row]
          exact Nat.mul_le_mul_left 3 fits)

/-- An image with sides that the viewer accepts is safe if and only if none is negative.  An image that
it does not show is safe if it is not too large for `temp`. -/
theorem viewer_safe_iff (v : ViewerSpace) (stack : Int → UInt8) (file : Option (List UInt8))
    {image : BitmapRead} (read : image = readBitmapFile file stack (fun _ => 0) 0 0) :
    (image.width ≤ 600 → image.height ≤ 500 →
      (ViewerSafe v stack file ↔ 0 ≤ image.width ∧ 0 ≤ image.height)) ∧
    (600 < image.width ∨ 500 < image.height → 0 ≤ image.width →
      image.width * image.height ≤ tempPixels → ViewerSafe v stack file) := by
  subst read
  refine ⟨fun narrow low => ⟨fun safe => ?_, fun ⟨wide, high⟩ => ⟨?_, fun p shown => ?_⟩⟩,
    fun large wide fits => ⟨bitmapStores_inside wide fits, fun p shown => ?_⟩⟩
  · obtain ⟨⟨wide, -, high, -⟩, -⟩ := safe.image _ (if_neg (by omega))
    exact ⟨wide, high⟩
  · refine bitmapStores_inside wide (le_trans (Int.mul_le_mul narrow low high (by decide)) (by decide))
  · rw [viewerImage, if_neg (by omega)] at shown
    cases shown
    dsimp only
    omega
  · rw [viewerImage, if_pos large] at shown
    cases shown

/-- A viewer of the smallest size. -/
def smallViewer : ViewerSpace where
  temp := 0x3000
  sz := 0x3000 + 3 * tempPixels + 2 * pgsize
  inside := by decide
  user := by decide

/-- A file with some sides in its header and zeros behind it. -/
def bitmapHeader (width height : List UInt8) (n : Nat) : List UInt8 :=
  List.replicate 18 0 ++ width ++ height ++ List.replicate (28 + n) 0

theorem viewer_safe_one : ViewerSafe smallViewer (fun _ => 0)
    (some (bitmapHeader [1, 0, 0, 0] [1, 0, 0, 0] 3)) :=
  ((viewer_safe_iff smallViewer _ _ rfl).1 (by decide +kernel) (by decide +kernel)).mpr
    (by decide +kernel)

/-- A width of -1 is shown, and a row of 1310721 pixels goes past the end of `temp`. -/
theorem viewer_unsafe :
    viewerImage (fun _ => 0) (some (bitmapHeader [255, 255, 255, 255] [1, 0, 0, 0] 0)) =
      some ⟨301, 250, -1, 1⟩ ∧
    ∃ w ∈ bitmapStores smallViewer (fun _ => 0)
        (some (bitmapHeader [1, 0, 20, 0] [1, 0, 0, 0] 3932163)),
      w.1 = smallViewer.temp ∧ 3 * tempPixels < w.2.length := by
  refine ⟨by decide +kernel, ?_⟩
  have length : (bitmapHeader [1, 0, 20, 0] [1, 0, 0, 0] 3932163).length = 54 + 3932163 := by
    rw [bitmapHeader, List.length_append, List.length_append, List.length_append,
      List.length_replicate, List.length_replicate]
    simp only [List.length_cons, List.length_nil]
  have width : intAt (fun a => (bitmapHeader [1, 0, 20, 0] [1, 0, 0, 0] 3932163).getD a.toNat 0)
      (14 + 4) = 1310721 := by decide +kernel
  have height : intAt (fun a => (bitmapHeader [1, 0, 20, 0] [1, 0, 0, 0] 3932163).getD a.toNat 0)
      (14 + 8) = 1 := by decide +kernel
  generalize bitmapHeader [1, 0, 20, 0] [1, 0, 0, 0] 3932163 = data at length width height
  have small : data.length < 2 ^ 31 := by omega
  have behind := (readBitmapHeader_eq small (by omega) (fun _ => 0) (show (0 : Int) ≤ 0 by decide)
    (by decide)).1
  have row := read_eq 54 3932163 small (by omega)
  rw [← headerInt_eq small (by omega) (fun _ => 0) (by decide) (by decide)] at width height
  have bytes : Int.bmod (1310721 * 3) (2 ^ 32) = (3932163 : Nat) := by decide
  have start : ((smallViewer.temp + 0 * ((3932163 : Nat) : Int)) % 2 ^ 32).toNat = 0x3000 := by decide
  have accepted : smallViewer.Accepts 0x3000 (3932163 : Nat) := by decide
  rw [bitmapStores_some, width, height, behind, bytes, Int.toNat_one, rowStores, start,
    ViewerSpace.read, if_pos accepted, row]
  refine ⟨_, .head _, rfl, ?_⟩
  show 3 * tempPixels < ((data.drop 54).take 3932163).length
  rw [List.length_take, List.length_drop]
  unfold tempPixels
  omega

end Xv6Gui.App
