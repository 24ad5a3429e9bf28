import Xv6Gui.Gui.Bounds
import Xv6Gui.Gui.Redraw
import Xv6Gui.Mouse.FocusSafety

/-!
# Highlighting an icon

`focusIconView` saves the pixels of `screen_temp2` under an icon, gives the transparent pixels of
its image the focus color and draws it.  To undo this, the saved pixels are put into the image,
the image is drawn, and the pixels that were transparent become black again.

Drawing an image leaves out its black pixels.  So a black pixel of the background is saved, but
not drawn back.  The pointer is not in `screen_temp2`, so it is not drawn back either.
-/

namespace Xv6Gui

open Canvas
open Option (bind_eq_bind bind_some)

/-! ## Images -/

namespace Gui

variable {image background : Int → RGB} {marked : Int → Bool} {k i j : Int}

theorem markImage_eq (low : 0 ≤ k) (high : k < iconSize) :
    markImage image k = if isAlpha (image k) then focusColor else image k := by
  rw [markImage, paint_where]
  simp [low, high, Int.mem_range_iff]

/-- A focused icon has no transparent pixel. -/
theorem markImage_solid (low : 0 ≤ k) (high : k < iconSize) : ¬ isAlpha (markImage image k) := by
  rw [markImage_eq low high]
  split
  · decide
  · assumption

theorem clearImage_eq (low : 0 ≤ k) (high : k < iconSize) :
    clearImage image marked k = if marked k then black else image k := by
  rw [clearImage, paint_where]
  simp [low, high, Int.mem_range_iff]

/-- The saved background is stored top row first, the image bottom row first. -/
theorem restoreImage_eq (low : 0 ≤ i) (high : i < 96) (top : 0 ≤ j) (bottom : j < 96) :
    restoreImage image background ((95 - j) * 96 + i) = background (j * 96 + i) := by
  have mem : j * 96 + i ∈ Int.range 0 iconSize := by
    rw [Int.mem_range_iff, iconSize]
    omega
  have loop := paint_loop image 0 (f := fun i => (95 - i / 96) * 96 + i % 96) (v := background) mem
    fun c hc e => ?_
  · have index : (0 : Int) + ((95 - (j * 96 + i) / 96) * 96 + (j * 96 + i) % 96) =
        (95 - j) * 96 + i := by omega
    rw [index] at loop
    exact loop
  · rw [Int.mem_range_iff, iconSize] at hc
    have same : c = j * 96 + i := by omega
    rw [same]

/-- Outside of the pixels of an icon nothing is stored. -/
theorem image_other (out : k < 0 ∨ iconSize ≤ k) :
    clearImage (restoreImage (markImage image) background) marked k = image k := by
  rw [iconSize] at out
  rw [clearImage, paint_other, restoreImage, paint_other, markImage, paint_other]
  all_goals
    intro w hw e
    obtain ⟨c, hc, rfl⟩ := List.mem_map.mp hw
    simp only [List.mem_filter, Int.mem_range_iff, iconSize] at hc e
    omega

attribute [local irreducible] markImage clearImage restoreImage

/-! ## The functions in closed form -/

variable {s t : Gui} {o c : ProcPtr} {window : Window} {a b : Int}

/-- The icon at an address with another image. -/
def withImage (s : Gui) (o : ProcPtr) (a : Int) (image : Int → RGB) : IconView :=
  { s.icon o a with image := image }

/-- Store the image of an icon. -/
def setImage (s : Gui) (o : ProcPtr) (a : Int) (image : Int → RGB) : Gui :=
  { s with icon := Function.update s.icon o (Function.update (s.icon o) a (s.withImage o a image)) }

/-- Store another image into an icon and draw it into both buffers. -/
def repaint (s : Gui) (o : ProcPtr) (a : Int) (image : Int → RGB) (window : Window) : Gui :=
  let picture := drawIconView s.character (s.withImage o a image) window
  ((s.setImage o a image).draw screenTemp2 picture).draw screen picture

theorem setImage_icon (s : Gui) (o : ProcPtr) (a : Int) (image : Int → RGB) :
    (s.setImage o a image).icon o a = s.withImage o a image := by
  simp [setImage]

theorem setImage_icon_of_ne (s : Gui) (o : ProcPtr) (image : Int → RGB) (ne : b ≠ a) :
    (s.setImage o a image).icon o b = s.icon o b := by
  simp [setImage, ne]

theorem storeImage_eq (loaded : s.loaded = some o) (a : Int) (image : Int → RGB) :
    s.storeIcon a { s.icon o a with image := image } = some (s.setImage o a image) := by
  simp only [storeIcon, loaded, Option.map_some, setImage, withImage]

theorem drawFocus_eq (loaded : s.loaded = some o) (a : Int) (image : Int → RGB)
    (focus : s.focusIcon = a) :
    (s.setImage o a image).drawFocus window = some (s.repaint o a image window) := by
  have icon : (s.setImage o a image).loadIcon a = some (s.withImage o a image) := by
    rw [loadIcon, show (s.setImage o a image).loaded = s.loaded from rfl, loaded, Option.map_some,
      setImage_icon]
  rw [drawFocus, show (s.setImage o a image).focusIcon = a from focus, icon]
  rfl

theorem loadIcon_eq (loaded : s.loaded = some o) (a : Int) : s.loadIcon a = some (s.icon o a) := by
  rw [loadIcon, loaded]
  rfl

theorem restoreFocus_eq (loaded : s.loaded = some o) (focus : s.focusIcon = a) :
    s.restoreFocus window =
      some (s.repaint o a (restoreImage (s.icon o a).image s.background) window) := by
  rw [restoreFocus, focus, loadIcon_eq loaded]
  dsimp only [bind_eq_bind, bind_some]
  rw [storeImage_eq loaded, bind_some, drawFocus_eq loaded _ _ focus]

/-- The state behind the loop over `isBg`. -/
def cleared (s : Gui) (o : ProcPtr) (a : Int) : Gui :=
  { s.setImage o a (clearImage (s.icon o a).image s.isBg) with
    isBg := fun i => if 0 ≤ i ∧ i < iconSize then false else s.isBg i }

theorem clearFocus_eq (loaded : s.loaded = some o) (focus : s.focusIcon = a) :
    s.clearFocus = some (s.cleared o a) := by
  rw [clearFocus, focus, loadIcon_eq loaded]
  dsimp only [bind_eq_bind, bind_some]
  rw [storeImage_eq loaded]
  rfl

section

variable (s : Gui) (window : Window) (icon : IconView)

theorem saveUnder_loaded : (s.saveUnder window icon).loaded = s.loaded := by rw [saveUnder]

theorem saveUnder_focusIcon : (s.saveUnder window icon).focusIcon = s.focusIcon := by rw [saveUnder]

theorem saveUnder_icon : (s.saveUnder window icon).icon = s.icon := by rw [saveUnder]

theorem saveUnder_pixels : (s.saveUnder window icon).pixels = s.pixels := by rw [saveUnder]

theorem saveUnder_character : (s.saveUnder window icon).character = s.character := by rw [saveUnder]

theorem saveUnder_queue : (s.saveUnder window icon).queue = s.queue := by rw [saveUnder]

theorem saveUnder_window : (s.saveUnder window icon).window = s.window := by rw [saveUnder]

theorem saveUnder_proc : (s.saveUnder window icon).proc = s.proc := by rw [saveUnder]

theorem saveUnder_isBg {k : Int} (low : 0 ≤ k) (high : k < iconSize) :
    (s.saveUnder window icon).isBg k = (isAlpha (icon.image k) || s.isBg k) := by
  rw [saveUnder]
  simp [low, high]

theorem saveUnder_background {k : Int} (low : 0 ≤ k) (high : k < iconSize) :
    (s.saveUnder window icon).background k =
      s.pixels (screenTemp2 + offset (window.leftTopX + icon.leftTopX + k % 96)
        (window.leftTopY + icon.leftTopY + k / 96)) := by
  simp only [saveUnder]
  rw [paint_index _ _ (Int.mem_range_iff.mpr ⟨low, high⟩), offset]

end

attribute [local irreducible] saveUnder

/-- The highlight is undone. -/
def undone (s : Gui) (o : ProcPtr) (a : Int) (window : Window) : Gui :=
  (s.repaint o a (restoreImage (s.icon o a).image s.background) window).cleared o a

/-- The icon is highlighted. -/
def highlighted (s : Gui) (o : ProcPtr) (a : Int) (window : Window) : Gui :=
  (s.saveUnder window (s.icon o a)).repaint o a (markImage (s.icon o a).image) window

theorem takeFocus_eq (loaded : s.loaded = some o) (focus : s.focusIcon = a) :
    s.takeFocus window = some (s.highlighted o a window) := by
  have loaded' : (s.saveUnder window (s.icon o a)).loaded = some o := by
    rw [saveUnder_loaded, loaded]
  have focus' : (s.saveUnder window (s.icon o a)).focusIcon = a := by
    rw [saveUnder_focusIcon, focus]
  have store := storeImage_eq loaded' a (markImage (s.icon o a).image)
  rw [saveUnder_icon] at store
  rw [takeFocus, focus, loadIcon_eq loaded]
  dsimp only [bind_eq_bind, bind_some]
  rw [focus', store, bind_some, drawFocus_eq loaded' _ _ focus', highlighted]

theorem leaveFocus_eq (loaded : s.loaded = some o) (focus : s.focusIcon = a) :
    s.leaveFocus window = some (if a = 0 then s else s.undone o a window) := by
  rw [leaveFocus, focus]
  split
  · rfl
  · rw [restoreFocus_eq loaded focus, bind_some]
    exact clearFocus_eq loaded focus

/-! ## Pixels -/

/-- The offset of a pixel of an icon. -/
def iconOffset (window : Window) (icon : IconView) (i j : Int) : Int :=
  offset (window.leftTopX + icon.leftTopX + i) (window.leftTopY + icon.leftTopY + j)

/-- The icon at an address of process `o` has 96 rows of 96 pixels, and is drawn inside of the
screen, whichever of its pixels are transparent. -/
structure Placed (s : Gui) (o : ProcPtr) (window : Window) (a : Int) : Prop where
  width : (s.icon o a).width = 96
  height : (s.icon o a).height = 96
  inside : ∀ image, ∀ p ∈ drawIconView s.character (s.withImage o a image) window, OnScreen p.x p.y

/-- The pixel of an icon is on the screen. -/
theorem Placed.range (h : s.Placed o window a) (low : 0 ≤ i) (high : i < 96) (top : 0 ≤ j)
    (bottom : j < 96) : OnScreen (window.leftTopX + (s.icon o a).leftTopX + i)
      (window.leftTopY + (s.icon o a).leftTopY + j) := by
  refine h.inside (fun _ => white) ⟨_, _, white⟩ (List.mem_append_left _ ?_)
  refine mem_drawImage.mpr ⟨i, j, low, ?_, top, ?_, rfl, rfl⟩
  · exact h.width.symm ▸ high
  · exact h.height.symm ▸ bottom

/-- A picture inside of the screen, drawn into both buffers. -/
theorem both_eq {m : Int → RGB} {picture : Picture} (inside : ∀ p ∈ picture, OnScreen p.x p.y)
    {off base : Int} (low : 0 ≤ off) (high : off < totalPels)
    (buffer : base = screen ∨ base = screenTemp2) :
    paint (paint m screenTemp2 (picture.map Point.toStore)) screen (picture.map Point.toStore)
      (base + off) = paint m base (picture.map Point.toStore) (base + off) := by
  have stores : ∀ w ∈ picture.map Point.toStore, 0 ≤ w.1 ∧ w.1 < totalPels := by
    intro w hw
    obtain ⟨p, hp, rfl⟩ := List.mem_map.mp hw
    exact (inside p hp).offset_range
  rcases buffer with rfl | rfl
  · refine paint_agree (paint_other ?_)
    intro w hw e
    have := stores w hw
    simp only [screen, screenTemp2] at e
    omega
  · refine paint_other ?_
    intro w hw e
    have := stores w hw
    simp only [screen, screenTemp2] at e
    omega

section

variable {off base : Int} (buffer : base = screen ∨ base = screenTemp2)

include buffer

/-- Drawing an icon leaves the other pixels. -/
theorem repaint_other (placed : s.Placed o window a) (low : 0 ≤ off) (high : off < totalPels)
    (miss : ∀ image, ∀ p ∈ drawIconView s.character (s.withImage o a image) window,
      p.toStore.1 ≠ off) :
    (s.repaint o a image window).pixels (base + off) = s.pixels (base + off) := by
  refine (both_eq (placed.inside image) low high buffer).trans (paint_other ?_)
  intro w hw e
  obtain ⟨p, hp, rfl⟩ := List.mem_map.mp hw
  exact miss image p hp (by omega)

/-- Drawing an icon stores the pixels of its image that are not transparent. -/
theorem repaint_area (image : Int → RGB) (placed : s.Placed o window a) (low : 0 ≤ i)
    (high : i < 96) (top : 0 ≤ j) (bottom : j < 96) :
    (s.repaint o a image window).pixels (base + iconOffset window (s.icon o a) i j) =
      if isAlpha (image ((95 - j) * 96 + i)) then
        s.pixels (base + iconOffset window (s.icon o a) i j)
      else image ((95 - j) * 96 + i) := by
  have here := placed.range low high top bottom
  have first := placed.range (i := 0) (j := 0) (by omega) (by omega) (by omega) (by omega)
  have last := placed.range (i := 95) (j := 95) (by omega) (by omega) (by omega) (by omega)
  refine (both_eq (placed.inside image) here.offset_range.1 here.offset_range.2 buffer).trans ?_
  rw [drawIconView, List.map_append, paint_append, paint_other]
  · simp only [withImage, placed.width, placed.height]
    simp only [OnScreen] at first last
    exact paint_drawImage (by omega) (by omega) (by omega) (by omega) low high top bottom
  · -- the text is below the image
    intro w hw e
    obtain ⟨p, hp, rfl⟩ := List.mem_map.mp hw
    have rows := drawCharacters_rows hp
    have screen := placed.inside image p (List.mem_append_right _ hp)
    have same := screen.offset_inj here (by simpa [Point.toStore, offset, iconOffset] using e.symm)
    simp only [withImage, placed.height] at rows
    omega

end

/-! ## Highlight and undo -/

/-- Nothing of the icon `b` is drawn over the icon `a`. -/
def Apart (s : Gui) (o : ProcPtr) (window : Window) (b a : Int) : Prop :=
  ∀ image, ∀ p ∈ drawIconView s.character (s.withImage o b image) window, ∀ i j, 0 ≤ i → i < 96 →
    0 ≤ j → j < 96 → p.toStore.1 ≠ iconOffset window (s.icon o a) i j

/-- What drawing an icon leaves, apart from its image and the pixels. -/
structure SameIcons (o : ProcPtr) (s t : Gui) : Prop where
  character : t.character = s.character
  icon : ∀ b, ∃ image, t.icon o b = s.withImage o b image

theorem SameIcons.trans {u : Gui} (first : SameIcons o s t) (second : SameIcons o t u) :
    SameIcons o s u := by
  refine ⟨second.character.trans first.character, fun b => ?_⟩
  obtain ⟨image, h⟩ := first.icon b
  obtain ⟨image', h'⟩ := second.icon b
  exact ⟨image', by rw [h', withImage, h]; rfl⟩

theorem SameIcons.placed (same : SameIcons o s t) (h : s.Placed o window a) : t.Placed o window a := by
  obtain ⟨image, icon⟩ := same.icon a
  refine ⟨by rw [icon]; exact h.width, by rw [icon]; exact h.height, fun image' => ?_⟩
  rw [same.character, withImage, icon]
  exact h.inside image'

theorem SameIcons.iconOffset (same : SameIcons o s t) (a i j : Int) :
    Gui.iconOffset window (t.icon o a) i j = Gui.iconOffset window (s.icon o a) i j := by
  obtain ⟨image, icon⟩ := same.icon a
  rw [icon]
  rfl

theorem SameIcons.apart (same : SameIcons o s t) (h : s.Apart o window b a) :
    t.Apart o window b a := by
  obtain ⟨image, icon⟩ := same.icon b
  intro image' p hp i j low high top bottom
  rw [same.character, withImage, icon] at hp
  rw [same.iconOffset]
  exact h image' p hp i j low high top bottom

theorem setImage_same (s : Gui) (o : ProcPtr) (a : Int) (image : Int → RGB) :
    SameIcons o s (s.setImage o a image) := by
  refine ⟨rfl, fun b => ?_⟩
  by_cases here : b = a
  · subst here
    exact ⟨image, setImage_icon s o b image⟩
  · exact ⟨_, setImage_icon_of_ne s o image here⟩

theorem repaint_same (s : Gui) (o : ProcPtr) (a : Int) (image : Int → RGB) (window : Window) :
    SameIcons o s (s.repaint o a image window) := ⟨rfl, (setImage_same s o a image).icon⟩

theorem undone_same (s : Gui) (o : ProcPtr) (a : Int) (window : Window) :
    SameIcons o s (s.undone o a window) :=
  (repaint_same s o a _ window).trans ⟨rfl, (setImage_same _ o a _).icon⟩

theorem saveUnder_same (s : Gui) (o : ProcPtr) (window : Window) (icon : IconView) :
    SameIcons o s (s.saveUnder window icon) :=
  ⟨saveUnder_character s window _, fun b => ⟨_, by rw [saveUnder_icon]; rfl⟩⟩

theorem highlighted_same (s : Gui) (o : ProcPtr) (a : Int) (window : Window) :
    SameIcons o s (s.highlighted o a window) :=
  (saveUnder_same s o window _).trans (repaint_same _ o a _ window)

theorem undone_icon_of_ne (s : Gui) (o : ProcPtr) (window : Window) (ne : b ≠ a) :
    (s.undone o a window).icon o b = s.icon o b :=
  (setImage_icon_of_ne _ o _ ne).trans (setImage_icon_of_ne s o _ ne)

theorem highlighted_icon_of_ne (s : Gui) (o : ProcPtr) (window : Window) (ne : b ≠ a) :
    (s.highlighted o a window).icon o b = s.icon o b := by
  refine (setImage_icon_of_ne _ o _ ne).trans ?_
  rw [saveUnder_icon]

theorem undone_isBg (s : Gui) (o : ProcPtr) (a : Int) (window : Window) (low : 0 ≤ k)
    (high : k < iconSize) : (s.undone o a window).isBg k = false := if_pos ⟨low, high⟩

/-- Drawing an icon over no pixel of another one. -/
theorem repaint_apart (image : Int → RGB) {base : Int} (buffer : base = screen ∨ base = screenTemp2)
    (placed : s.Placed o window b) (there : s.Placed o window a) (apart : s.Apart o window b a)
    (low : 0 ≤ i) (high : i < 96) (top : 0 ≤ j) (bottom : j < 96) :
    (s.repaint o b image window).pixels (base + iconOffset window (s.icon o a) i j) =
      s.pixels (base + iconOffset window (s.icon o a) i j) := by
  have range := (there.range low high top bottom).offset_range
  exact repaint_other buffer placed range.1 range.2 fun image p hp =>
    apart image p hp i j low high top bottom

/-- In `t` the icon `a` is highlighted, and what was there in `s` is remembered. -/
structure Highlit (o : ProcPtr) (window : Window) (a : Int) (s t : Gui) : Prop where
  same : SameIcons o s t
  image : (t.icon o a).image = markImage (s.icon o a).image
  marked : ∀ k, 0 ≤ k → k < iconSize → t.isBg k = isAlpha ((s.icon o a).image k)
  saved : ∀ i j, 0 ≤ i → i < 96 → 0 ≤ j → j < 96 →
    t.background (j * 96 + i) = s.pixels (screenTemp2 + iconOffset window (s.icon o a) i j)
  pixels : ∀ base, base = screen ∨ base = screenTemp2 → ∀ i j, 0 ≤ i → i < 96 → 0 ≤ j → j < 96 →
    t.pixels (base + iconOffset window (s.icon o a) i j) =
      markImage (s.icon o a).image ((95 - j) * 96 + i)

theorem highlighted_highlit (placed : s.Placed o window a)
    (unmarked : ∀ k, 0 ≤ k → k < iconSize → s.isBg k = false) :
    Highlit o window a s (s.highlighted o a window) := by
  have same := saveUnder_same s o window (s.icon o a)
  constructor
  case same => exact highlighted_same s o a window
  case image => exact congrArg IconView.image (setImage_icon _ o a _)
  case marked =>
    intro k low high
    show (s.saveUnder window (s.icon o a)).isBg k = _
    rw [saveUnder_isBg s window _ low high, unmarked k low high, Bool.or_false]
  case saved =>
    intro i j low high top bottom
    show (s.saveUnder window (s.icon o a)).background _ = _
    have column : (j * 96 + i) % 96 = i := by omega
    have row : (j * 96 + i) / 96 = j := by omega
    rw [saveUnder_background s window _ (by omega) (by rw [iconSize]; omega), column, row, iconOffset]
  case pixels =>
    intro base buffer i j low high top bottom
    have area := repaint_area buffer (markImage (s.icon o a).image) (same.placed placed) low high
      top bottom
    rw [same.iconOffset, if_neg (markImage_solid (by omega) (by rw [iconSize]; omega))] at area
    exact area

/-- The pixels of the icon that are not transparent are seen in `screen_temp2`. -/
def Shown (s : Gui) (o : ProcPtr) (window : Window) (a : Int) : Prop :=
  ∀ i j, 0 ≤ i → i < 96 → 0 ≤ j → j < 96 → ¬ isAlpha ((s.icon o a).image ((95 - j) * 96 + i)) →
    s.pixels (screenTemp2 + iconOffset window (s.icon o a) i j) =
      (s.icon o a).image ((95 - j) * 96 + i)

/-- The image of the icon and its pixels in both buffers are as they were. -/
structure Restored (o : ProcPtr) (window : Window) (a : Int) (s t : Gui) : Prop where
  icon : t.icon o a = s.icon o a
  pixels : ∀ base, base = screen ∨ base = screenTemp2 → ∀ i j, 0 ≤ i → i < 96 → 0 ≤ j → j < 96 →
    t.pixels (base + iconOffset window (s.icon o a) i j) =
      s.pixels (base + iconOffset window (s.icon o a) i j)

theorem Restored.symm (h : Restored o window a s t) : Restored o window a t s := by
  refine ⟨h.icon.symm, fun base buffer i j low high top bottom => ?_⟩
  rw [h.icon]
  exact (h.pixels base buffer i j low high top bottom).symm

theorem Restored.trans {u : Gui} (first : Restored o window a s t) (second : Restored o window a t u) :
    Restored o window a s u := by
  refine ⟨second.icon.trans first.icon, fun base buffer i j low high top bottom => ?_⟩
  rw [← first.pixels base buffer i j low high top bottom, ← first.icon]
  exact second.pixels base buffer i j low high top bottom

/-- No pixel of `screen_temp2` under the icon is black, and nothing else is drawn over it on the
screen. -/
def Undoable (s : Gui) (o : ProcPtr) (window : Window) (a : Int) : Prop :=
  ∀ i j, 0 ≤ i → i < 96 → 0 ≤ j → j < 96 →
    s.pixels (screenTemp2 + iconOffset window (s.icon o a) i j) ≠ black ∧
      s.pixels (screen + iconOffset window (s.icon o a) i j) =
        s.pixels (screenTemp2 + iconOffset window (s.icon o a) i j)

/-- The image of an icon is restored. -/
theorem Highlit.undone_icon (h : Highlit o window a s t) (shown : s.Shown o window a) :
    (t.undone o a window).icon o a = s.icon o a := by
  obtain ⟨image, icon⟩ := h.same.icon a
  have repainted : (t.repaint o a (restoreImage (t.icon o a).image t.background) window).icon o a =
      t.withImage o a (restoreImage (t.icon o a).image t.background) := setImage_icon t o a _
  have undone : (t.undone o a window).icon o a =
      s.withImage o a (clearImage (restoreImage (t.icon o a).image t.background) t.isBg) := by
    refine (setImage_icon _ o a _).trans ?_
    rw [withImage, repainted, withImage, withImage, icon]
    rfl
  have same : clearImage (restoreImage (t.icon o a).image t.background) t.isBg =
      (s.icon o a).image := by
    funext k
    by_cases range : 0 ≤ k ∧ k < iconSize
    · obtain ⟨low, high⟩ := range
      rw [clearImage_eq low high, h.marked k low high]
      split
      · rename_i alpha
        exact (isAlpha_iff.mp alpha).symm
      · rename_i color
        rw [iconSize] at high
        -- the pixel `k` of the image is in the row `95 - k / 96` from the top
        have index : k = (95 - (95 - k / 96)) * 96 + k % 96 := by omega
        have seen := shown (k % 96) (95 - k / 96) (by omega) (by omega) (by omega) (by omega)
        rw [← index] at seen
        rw [index, restoreImage_eq (by omega) (by omega) (by omega) (by omega),
          h.saved _ _ (by omega) (by omega) (by omega) (by omega), ← index]
        exact seen color
    · rw [h.image]
      exact image_other (by omega)
  rw [undone, same]
  rfl

/-- What undoing the highlight leaves of a pixel: a black one is not drawn. -/
theorem Highlit.undone_pixels (h : Highlit o window a s t) (placed : s.Placed o window a)
    {base : Int} (buffer : base = screen ∨ base = screenTemp2) (low : 0 ≤ i) (high : i < 96)
    (top : 0 ≤ j) (bottom : j < 96) :
    (t.undone o a window).pixels (base + iconOffset window (s.icon o a) i j) =
      if isAlpha (s.pixels (screenTemp2 + iconOffset window (s.icon o a) i j)) then
        markImage (s.icon o a).image ((95 - j) * 96 + i)
      else s.pixels (screenTemp2 + iconOffset window (s.icon o a) i j) := by
  have area := repaint_area buffer (restoreImage (t.icon o a).image t.background)
    (h.same.placed placed) low high top bottom
  rw [restoreImage_eq low high top bottom, h.saved i j low high top bottom, h.same.iconOffset,
    h.pixels base buffer i j low high top bottom] at area
  exact area

/-- The pixels are restored exactly if none under the icon is black and nothing else is drawn
over it. -/
theorem Highlit.undone_iff (h : Highlit o window a s t) (placed : s.Placed o window a)
    (shown : s.Shown o window a) :
    Restored o window a s (t.undone o a window) ↔ s.Undoable o window a := by
  constructor
  · intro restored i j low high top bottom
    have temp := restored.pixels screenTemp2 (.inr rfl) i j low high top bottom
    have front := restored.pixels screen (.inl rfl) i j low high top bottom
    rw [h.undone_pixels placed (.inr rfl) low high top bottom] at temp
    rw [h.undone_pixels placed (.inl rfl) low high top bottom] at front
    have solid : ¬ isAlpha (s.pixels (screenTemp2 + iconOffset window (s.icon o a) i j)) := by
      intro alpha
      rw [if_pos alpha] at temp
      rw [← temp] at alpha
      exact markImage_solid (by omega) (by rw [iconSize]; omega) alpha
    rw [if_neg solid] at front
    exact ⟨fun black => solid (isAlpha_iff.mpr black), front.symm⟩
  · intro undoable
    refine ⟨h.undone_icon shown, fun base buffer i j low high top bottom => ?_⟩
    obtain ⟨color, front⟩ := undoable i j low high top bottom
    rw [h.undone_pixels placed buffer low high top bottom,
      if_neg fun alpha => color (isAlpha_iff.mp alpha)]
    rcases buffer with rfl | rfl
    · exact front.symm
    · rfl

/-! ## The calls -/

/-- The state in which a focus function works: the call is recorded and the page table loaded. -/
def entered (s : Gui) (o : ProcPtr) : Gui := { s.enterFocus with loaded := some o }

/-- The icon in focus loses the highlight. -/
def left (s : Gui) (o : ProcPtr) : Gui :=
  if s.focusIcon = 0 then s.entered o else (s.entered o).undone o s.focusIcon (s.lastOf o)

theorem left_loaded (s : Gui) (o : ProcPtr) : (s.left o).loaded = some o := by
  rw [left]
  split <;> rfl

/-- The windows and the current process are the same. -/
structure SameDesk (s t : Gui) : Prop where
  queue : t.queue = s.queue
  window : t.window = s.window
  proc : t.proc = s.proc

theorem SameDesk.lastOf (same : SameDesk s t) (o : ProcPtr) : t.lastOf o = s.lastOf o := by
  rw [Gui.lastOf, Gui.lastOf, lastEntry, lastEntry, same.queue, same.window]

theorem SameDesk.lastEntry (same : SameDesk s t) : t.lastEntry = s.lastEntry := by
  rw [Gui.lastEntry, Gui.lastEntry, same.queue]

theorem SameDesk.trans {u : Gui} (h : SameDesk s t) (k : SameDesk t u) : SameDesk s u :=
  ⟨k.queue.trans h.queue, k.window.trans h.window, k.proc.trans h.proc⟩

theorem repaint_desk (s : Gui) (o : ProcPtr) (a : Int) (image : Int → RGB) (window : Window) :
    SameDesk s (s.repaint o a image window) := ⟨rfl, rfl, rfl⟩

theorem repaint_focusIcon (s : Gui) (o : ProcPtr) (a : Int) (image : Int → RGB) (window : Window) :
    (s.repaint o a image window).focusIcon = s.focusIcon := rfl

theorem undone_desk (s : Gui) (o : ProcPtr) (a : Int) (window : Window) :
    SameDesk s (s.undone o a window) :=
  (repaint_desk s o a (restoreImage (s.icon o a).image s.background) window).trans ⟨rfl, rfl, rfl⟩

theorem left_desk (s : Gui) (o : ProcPtr) : SameDesk s (s.left o) := by
  have entered : SameDesk s (s.entered o) := ⟨rfl, rfl, rfl⟩
  rw [left]
  split
  · exact entered
  · exact entered.trans (undone_desk ..)

theorem highlighted_desk (s : Gui) (o : ProcPtr) (a : Int) (window : Window) :
    SameDesk s (s.highlighted o a window) := by
  rw [highlighted]
  exact SameDesk.trans ⟨saveUnder_queue s window _, saveUnder_window s window _,
    saveUnder_proc s window _⟩ (repaint_desk ..)

theorem highlighted_focusIcon (s : Gui) (o : ProcPtr) (a : Int) (window : Window) :
    (s.highlighted o a window).focusIcon = s.focusIcon := by
  rw [highlighted, repaint_focusIcon, saveUnder_focusIcon]

theorem enterFocus_eq (hc : s.proc = some c) (ho : s.lastEntry.proc = some o) :
    s.enterFocus.switchuvm s.lastEntry.proc = some (s.entered o) := by
  rw [ho]
  exact switchuvm_some (s := s.enterFocus) hc o

theorem focusIconView_eq (hc : s.proc = some c) (ho : s.lastEntry.proc = some o)
    (other : s.focusIcon = 0 ∨ s.focusIcon ≠ a) :
    s.focusIconView a = some { ((s.left o).setFocus a s.loaded).highlighted o a (s.lastOf o) with
      loaded := some c } := by
  have away : ¬ ((s.entered o).focusIcon ≠ 0 ∧ (s.entered o).focusIcon = a) := by
    rintro ⟨ne, same⟩
    rcases other with zero | other
    · exact ne zero
    · exact other same
  have window : (s.entered o).loadWindow (s.entered o).lastEntry.window = some (s.lastOf o) := rfl
  have leave : (s.entered o).leaveFocus (s.lastOf o) = some (s.left o) := leaveFocus_eq rfl rfl
  have take : ((s.left o).setFocus a s.loaded).takeFocus (s.lastOf o) =
      some (((s.left o).setFocus a s.loaded).highlighted o a (s.lastOf o)) :=
    takeFocus_eq (left_loaded s o) rfl
  rw [focusIconView, enterFocus_eq hc ho]
  dsimp only [bind_eq_bind, bind_some]
  rw [if_neg away, moveFocus, window]
  dsimp only [bind_eq_bind, bind_some]
  rw [leave, bind_some, take, bind_some]
  refine switchBack_some ?_
  rw [(highlighted_desk _ o a _).proc, ← hc]
  exact (left_desk s o).proc

theorem focusDismiss_eq (hc : s.proc = some c) (ho : s.lastEntry.proc = some o)
    (focus : s.focusIcon = a) (ne : a ≠ 0) :
    s.focusDismiss = some { ((s.entered o).undone o a (s.lastOf o)).setFocus 0 none with
      loaded := some c } := by
  have window : (s.entered o).loadWindow (s.entered o).lastEntry.window = some (s.lastOf o) := rfl
  have undraw : (s.entered o).undrawFocus (s.lastOf o) = (s.entered o).restoreFocus (s.lastOf o) :=
    if_neg (focus.symm ▸ ne)
  have restore : (s.entered o).restoreFocus (s.lastOf o) = some ((s.entered o).repaint o a
      (restoreImage (s.icon o a).image s.background) (s.lastOf o)) := restoreFocus_eq rfl focus
  have clear : ((s.entered o).repaint o a (restoreImage (s.icon o a).image s.background)
      (s.lastOf o)).clearFocus = some ((s.entered o).undone o a (s.lastOf o)) :=
    clearFocus_eq rfl focus
  rw [focusDismiss, enterFocus_eq hc ho]
  dsimp only [bind_eq_bind, bind_some]
  rw [window, bind_some, undraw, restore, bind_some, clear, bind_some]
  exact switchBack_some ((undone_desk (s.entered o) o a (s.lastOf o)).proc.trans hc)

/-- Without an icon in focus no pixel is marked. -/
def Unmarked (s : Gui) : Prop := s.focusIcon = 0 → ∀ k, 0 ≤ k → k < iconSize → s.isBg k = false

theorem Unmarked.focusIconView (h : s.Unmarked) (ne : a ≠ 0) (ran : s.focusIconView a = some t) :
    t.Unmarked := by
  simp only [Gui.focusIconView, Runs.bind_some] at ran
  obtain ⟨s₁, switch, ran⟩ := ran
  split at ran
  · rw [← Option.some.inj ran, switchuvm_eq_some switch]
    exact h
  · simp only [moveFocus, Runs.bind_some] at ran
    obtain ⟨_, -, s₂, -, s₃, take, back⟩ := ran
    rw [switchBack_eq_some back]
    exact fun zero => absurd ((takeFocus_painted take).focusIcon.symm.trans zero) ne

theorem focusDismiss_unmarked (ran : s.focusDismiss = some t) : t.Unmarked := by
  simp only [focusDismiss, clearFocus, Runs.bind_some] at ran
  obtain ⟨_, -, _, -, _, -, _, ⟨_, -, _, -, cleared⟩, back⟩ := ran
  rw [switchBack_eq_some back, ← Option.some.inj cleared]
  intro _ k low high
  exact if_pos ⟨low, high⟩

/-- The icon in focus, if any, is another icon that does not overlap `a`.  Without one, no pixel is
marked: the kernel starts so, and `focusIconView` and `focusDismiss` keep it. -/
structure Ready (s : Gui) (o : ProcPtr) (a : Int) : Prop where
  away : s.focusIcon ≠ 0 → s.focusIcon ≠ a
  placed : s.focusIcon ≠ 0 → s.Placed o (s.lastOf o) s.focusIcon
  apart : s.focusIcon ≠ 0 → s.Apart o (s.lastOf o) s.focusIcon a
  unmarked : s.Unmarked

/-- Nothing of the icon `a` changes when another one loses the highlight. -/
theorem Ready.left (ready : s.Ready o a) (placed : s.Placed o (s.lastOf o) a) :
    SameIcons o s (s.left o) ∧ Restored o (s.lastOf o) a s (s.left o) ∧
      ∀ k, 0 ≤ k → k < iconSize → (s.left o).isBg k = false := by
  rw [Gui.left]
  split
  · rename_i zero
    exact ⟨⟨rfl, fun _ => ⟨_, rfl⟩⟩, ⟨rfl, fun _ _ _ _ _ _ _ _ => rfl⟩, ready.unmarked zero⟩
  · rename_i focus
    have here : SameIcons o s (s.entered o) := ⟨rfl, fun _ => ⟨_, rfl⟩⟩
    refine ⟨here.trans (undone_same _ o _ _), ⟨?_, ?_⟩, fun k low high => ?_⟩
    · exact undone_icon_of_ne (s.entered o) o _ (ready.away focus).symm
    · intro base buffer i j low high top bottom
      exact repaint_apart _ buffer (here.placed (ready.placed focus)) (here.placed placed)
        (here.apart (ready.apart focus)) low high top bottom
    · exact undone_isBg (s.entered o) o _ _ low high

/-- A highlight in a state where nothing of the icon has changed. -/
theorem Highlit.of_restored {u : Gui} (h : Highlit o window a t u) (same : SameIcons o s t)
    (restored : Restored o window a s t) : Highlit o window a s u := by
  constructor
  case same => exact same.trans h.same
  case image => rw [h.image, restored.icon]
  case marked =>
    intro k low high
    rw [h.marked k low high, restored.icon]
  case saved =>
    intro i j low high top bottom
    rw [h.saved i j low high top bottom, restored.icon]
    exact restored.pixels screenTemp2 (.inr rfl) i j low high top bottom
  case pixels =>
    intro base buffer i j low high top bottom
    rw [← restored.icon]
    exact h.pixels base buffer i j low high top bottom

/-- Nothing of the icon `a` changes when another one is highlighted. -/
theorem highlighted_restored (away : b ≠ a) (placed : s.Placed o window a)
    (there : s.Placed o window b) (apart : s.Apart o window b a) :
    Restored o window a s (s.highlighted o b window) := by
  have same := saveUnder_same s o window (s.icon o b)
  refine ⟨highlighted_icon_of_ne s o window away.symm, fun base buffer i j low high top bottom => ?_⟩
  have kept := repaint_apart (markImage (s.icon o b).image) buffer (same.placed there)
    (same.placed placed) (same.apart apart) low high top bottom
  rwa [same.iconOffset, saveUnder_pixels] at kept

theorem Highlit.enter (lit : Highlit o window a s t) :
    Highlit o window a s (entered { t with loaded := some c } o) :=
  ⟨⟨lit.same.character, lit.same.icon⟩, lit.image, lit.marked, lit.saved, lit.pixels⟩

/-- The calls that undo a highlight. -/
theorem Highlit.calls (lit : Highlit o (s.lastOf o) a s t)
    (desk : SameDesk s { t with loaded := some c }) (focus : t.focusIcon = a)
    (hc : s.proc = some c) (ho : s.lastEntry.proc = some o) (ne : a ≠ 0)
    (placed : s.Placed o (s.lastOf o) a) (shown : s.Shown o (s.lastOf o) a) :
    (∃ u, focusDismiss { t with loaded := some c } = some u ∧ u.icon o a = s.icon o a ∧
      (Restored o (s.lastOf o) a s u ↔ s.Undoable o (s.lastOf o) a)) ∧
    ∀ b, b ≠ a → s.Placed o (s.lastOf o) b → s.Apart o (s.lastOf o) b a →
      ∃ u, focusIconView { t with loaded := some c } b = some u ∧ u.icon o a = s.icon o a ∧
        (Restored o (s.lastOf o) a s u ↔ s.Undoable o (s.lastOf o) a) := by
  have hc' := desk.proc.trans hc
  have ho' : (lastEntry { t with loaded := some c }).proc = some o := by rw [desk.lastEntry, ho]
  have lit := lit.enter (c := c)
  have icon := lit.undone_icon shown
  have iff := lit.undone_iff placed shown
  have same := lit.same.trans (undone_same _ o a (s.lastOf o))
  constructor
  · refine ⟨_, focusDismiss_eq hc' ho' focus ne, ?_, ?_⟩
    · rw [desk.lastOf]
      exact icon
    · rw [desk.lastOf, ← iff]
      exact ⟨fun h => ⟨h.icon, h.pixels⟩, fun h => ⟨h.icon, h.pixels⟩⟩
  · intro b away there apart
    have left : left { t with loaded := some c } o =
        undone (entered { t with loaded := some c } o) o a (s.lastOf o) := by
      rw [← desk.lastOf, Gui.left]
      simp only [focus, ne, if_false]
    refine ⟨_, focusIconView_eq hc' ho' (.inr fun here => away (here.symm.trans focus)), ?_, ?_⟩
    · exact (highlighted_icon_of_ne _ o _ away.symm).trans (by rw [left]; exact icon)
    · rw [desk.lastOf, left, ← iff]
      generalize undone (entered { t with loaded := some c } o) o a (s.lastOf o) = v at same ⊢
      have same : SameIcons o s (v.setFocus b (some c)) := ⟨same.character, same.icon⟩
      have kept := highlighted_restored away (same.placed placed) (same.placed there) (same.apart apart)
      have kept : Restored o (s.lastOf o) a v
          { (v.setFocus b (some c)).highlighted o b (s.lastOf o) with loaded := some c } :=
        ⟨kept.icon, kept.pixels⟩
      exact ⟨fun h => h.trans kept.symm, fun h => h.trans kept⟩

/-- What `focusIconView` leaves. -/
theorem Ready.focusIconView (ready : s.Ready o a) (hc : s.proc = some c)
    (ho : s.lastEntry.proc = some o) (placed : s.Placed o (s.lastOf o) a) :
    ∃ t, s.focusIconView a = some { t with loaded := some c } ∧ t.focusIcon = a ∧
      SameDesk s { t with loaded := some c } ∧ Highlit o (s.lastOf o) a s t := by
  obtain ⟨same, kept, unmarked⟩ := ready.left placed
  have other : s.focusIcon = 0 ∨ s.focusIcon ≠ a := by
    by_cases zero : s.focusIcon = 0
    · exact .inl zero
    · exact .inr (ready.away zero)
  have desk := highlighted_desk ((s.left o).setFocus a s.loaded) o a (s.lastOf o)
  refine ⟨_, focusIconView_eq hc ho other, ?_, ?_, ?_⟩
  · exact highlighted_focusIcon ((s.left o).setFocus a s.loaded) o a (s.lastOf o)
  · have left := left_desk s o
    exact ⟨desk.queue.trans left.queue, desk.window.trans left.window, desk.proc.trans left.proc⟩
  · exact (highlighted_highlit (s := (s.left o).setFocus a s.loaded)
      (SameIcons.placed ⟨same.character, same.icon⟩ placed) unmarked).of_restored
        ⟨same.character, same.icon⟩ ⟨kept.icon, kept.pixels⟩

/-- The highlight of an icon is undone exactly, by `focusDismiss` or by highlighting another icon
that does not overlap it, if and only if no pixel of `screen_temp2` under it is black and nothing
else, such as the pointer, is drawn over it on the screen.  The image is always restored. -/
theorem highlight_undone_iff (hc : s.proc = some c) (ho : s.lastEntry.proc = some o) (ne : a ≠ 0)
    (ready : s.Ready o a) (placed : s.Placed o (s.lastOf o) a) (shown : s.Shown o (s.lastOf o) a) :
    ∃ t, s.focusIconView a = some t ∧
      (∃ u, t.focusDismiss = some u ∧ u.icon o a = s.icon o a ∧
        (Restored o (s.lastOf o) a s u ↔ s.Undoable o (s.lastOf o) a)) ∧
      ∀ b, b ≠ a → s.Placed o (s.lastOf o) b → s.Apart o (s.lastOf o) b a →
        ∃ u, t.focusIconView b = some u ∧ u.icon o a = s.icon o a ∧
          (Restored o (s.lastOf o) a s u ↔ s.Undoable o (s.lastOf o) a) := by
  obtain ⟨t, view, focus, desk, lit⟩ := ready.focusIconView hc ho placed
  exact ⟨_, view, lit.calls desk focus hc ho ne placed shown⟩

/-! ## Icons on one color -/

/-- The sample with one color in all buffers, and an icon with columns of this color and transparent
columns between them. -/
def plainGui (c : RGB) : Gui :=
  { sampleGui with
    pixels := fun _ => c
    icon := fun _ _ => ⟨20, 40, 96, 96, fun k => if k % 2 = 0 then c else black, fun _ => 0, ⟨0, false⟩⟩ }

theorem plainGui_placed (c : RGB) : (plainGui c).Placed 1 ((plainGui c).lastOf 1) 64 := by
  have empty : cstring (fun _ => 0) = [] := by decide
  refine ⟨rfl, rfl, fun image p hp => ?_⟩
  obtain hp | hp := List.mem_append.mp hp
  · obtain ⟨i, j, low, high, top, bottom, -, rfl⟩ := mem_drawImage.mp hp
    have wide : i < 96 := high
    have tall : j < 96 := bottom
    show OnScreen (100 + 20 + i) (100 + 40 + j)
    simp only [OnScreen, screenWidth, screenHeight]
    omega
  · rw [show cstring ((plainGui c).withImage 1 64 image).text = [] from empty] at hp
    cases hp

theorem plainGui_ready (c : RGB) : (plainGui c).Ready 1 64 :=
  ⟨fun h => absurd rfl h, fun h => absurd rfl h, fun h => absurd rfl h, fun _ _ _ _ => rfl⟩

theorem plainGui_shown (c : RGB) : (plainGui c).Shown 1 ((plainGui c).lastOf 1) 64 := by
  intro i j _ _ _ _ color
  have even : ((95 - j) * 96 + i) % 2 = 0 := by
    by_contra odd
    exact color ((congrArg isAlpha (if_neg odd)).trans (by decide))
  exact (if_pos even).symm

theorem highlight_undone_iff_white : ∃ t u, (plainGui white).focusIconView 64 = some t ∧
    t.focusDismiss = some u ∧ Restored 1 ((plainGui white).lastOf 1) 64 (plainGui white) u := by
  obtain ⟨t, view, ⟨u, dismiss, -, iff⟩, -⟩ := highlight_undone_iff (s := plainGui white) (o := 1)
    (c := 1) (a := 64) rfl rfl (by decide) (plainGui_ready white) (plainGui_placed white)
    (plainGui_shown white)
  exact ⟨t, u, view, dismiss, iff.mpr fun _ _ _ _ _ _ => ⟨show white ≠ black by decide, rfl⟩⟩

/-- On black the pixels of a transparent icon keep the color of the highlight. -/
theorem highlight_stays_on_black : ∃ t u, (plainGui black).focusIconView 64 = some t ∧
    t.focusDismiss = some u ∧
    ∀ i j, 0 ≤ i → i < 96 → 0 ≤ j → j < 96 →
      (plainGui black).pixels (screenTemp2 +
        iconOffset ((plainGui black).lastOf 1) ((plainGui black).icon 1 64) i j) = black ∧
      u.pixels (screenTemp2 +
        iconOffset ((plainGui black).lastOf 1) ((plainGui black).icon 1 64) i j) = focusColor := by
  obtain ⟨t, view, focus, desk, lit⟩ := (plainGui_ready black).focusIconView (c := 1) rfl rfl
    (plainGui_placed black)
  have owner : (lastEntry { t with loaded := some 1 }).proc = some 1 := by
    rw [desk.lastEntry]
    rfl
  refine ⟨_, _, view, focusDismiss_eq (desk.proc.trans rfl) owner focus (by decide), ?_⟩
  intro i j low high top bottom
  refine ⟨rfl, ?_⟩
  rw [desk.lastOf]
  have lit : Highlit 1 ((plainGui black).lastOf 1) 64 (plainGui black)
      (entered { t with loaded := some 1 } 1) :=
    ⟨⟨lit.same.character, lit.same.icon⟩, lit.image, lit.marked, lit.saved, lit.pixels⟩
  refine (lit.undone_pixels (plainGui_placed black) (.inr rfl) low high top bottom).trans ?_
  refine (if_pos (show isAlpha black by decide)).trans ?_
  rw [markImage_eq (by omega) (by rw [iconSize]; omega)]
  have transparent : ((plainGui black).icon 1 64).image ((95 - j) * 96 + i) = black := ite_self _
  rw [transparent]
  exact if_pos (show isAlpha black by decide)

end Gui

end Xv6Gui
