import Xv6Gui.Gui.Bounds

/-!
# Where windows are drawn

`drawWindow` fills the rectangle of a window and draws an outline one pixel outside of it.
`moveWindow` keeps the rectangle on the screen, not the outline.  At an edge of the screen the
outline is stored in another row of the buffer, or in front of the buffer or behind it.
-/

namespace Xv6Gui

variable {character : Font} {window : Window} {focus : Bool}

/-! ## Text -/

/-- Text of characters with a glyph takes at most eleven columns for each. -/
theorem drawCharacters_columns {x y : Int} {str : List UInt8} {color : RGB} {p : Point}
    (text : ∀ ch ∈ str, 0x20 ≤ ch ∧ ch ≤ 0x7e) (h : p ∈ drawCharacters character x y str color) :
    x ≤ p.x ∧ p.x < x + 11 * str.length := by
  induction str generalizing x with
  | nil => cases h
  | cons ch str ih =>
    have glyph := glyphAdvance_bounds character (text ch (.head _)).1 (text ch (.head _)).2
    rw [List.length_cons]
    push_cast
    rw [drawCharacters_cons] at h
    obtain h | h := List.mem_append.mp h
    · obtain ⟨i, j, ⟨-, -, -, hj, -⟩, rfl⟩ := mem_drawCharacter.mp h
      rw [characterWidth] at hj
      exact ⟨by simp only; omega, by simp only; omega⟩
    · have := ih (fun c hc => text c (.tail _ hc)) h
      omega

theorem footerText_eq : footerText = [67, 79, 79, 76, 32, 71, 85, 73] := by decide +kernel

/-! ## Parts of a window -/

/-- The rectangle of a window. -/
def Window.area (window : Window) : Rect where
  left := window.leftTopX
  top := window.leftTopY
  right := window.leftTopX + window.width
  bottom := window.leftTopY + window.height

/-- The rectangle of a window with one pixel around it. -/
def Window.enlarged (window : Window) : Rect where
  left := window.leftTopX - 1
  top := window.leftTopY - 1
  right := window.leftTopX + window.width + 1
  bottom := window.leftTopY + window.height + 1

/-- The text of the caption is drawn between the sides of the window. -/
def Window.CaptionFits (character : Font) (window : Window) : Prop :=
  ∀ p ∈ drawCharacters character
      (window.leftTopX + window.width.tdiv 2 - ((cstring window.caption).length * 9 / 2 : Nat))
      (window.leftTopY + 5) (cstring window.caption) black,
    window.leftTopX ≤ p.x ∧ p.x < window.leftTopX + window.width

theorem Window.area_subset {picture : Picture} (h : window.area.Bounds picture) :
    window.enlarged.Bounds picture := by
  intro p hp
  have := h p hp
  simp only [Rect.Contains, Window.area, Window.enlarged] at this ⊢
  omega

section Parts

variable (high : 66 ≤ window.height) (wide : 100 ≤ window.width)

include high

theorem drawCaption_bounds (fits : window.CaptionFits character) :
    window.area.Bounds (drawCaption character window focus) := by
  rw [drawCaption]
  simp only [Rect.bounds_append]
  refine ⟨⟨?_, ?_⟩, ?_⟩
  · refine Rect.bounds_rows (Int.le_refl _) (Int.le_refl _) ?_ ?_ <;>
      simp only [Window.area, captionHeight] <;> omega
  · intro p hp
    have columns := fits p hp
    have rows := drawCharacters_rows hp
    simp only [Rect.Contains, Window.area]
    omega
  · refine Rect.bounds_rows (Int.le_refl _) (Int.le_refl _) ?_ ?_ <;>
      simp only [Window.area, captionHeight, borderWidth] <;> omega

include wide

theorem drawBorder_bounds : window.area.Bounds (drawBorder window focus) := by
  rw [drawBorder]
  simp only [Rect.bounds_append]
  refine ⟨⟨?_, ?_⟩, ?_⟩
  all_goals
    refine Rect.bounds_rows ?_ ?_ ?_ ?_ <;>
      simp only [Window.area, captionHeight, borderWidth] <;> omega

theorem drawShadow_bounds : window.enlarged.Bounds (drawShadow window) := by
  rw [drawShadow]
  simp only [Rect.bounds_append]
  refine ⟨⟨⟨⟨⟨?_, ?_⟩, ?_⟩, ?_⟩, ?_⟩, ?_⟩
  case refine_3 | refine_6 =>
    refine Rect.bounds_sides ?_ ?_ ?_ ?_ <;> simp only [Window.enlarged] <;> omega
  all_goals
    refine Rect.bounds_row ?_ ?_ ?_ ?_ <;> simp only [Window.enlarged] <;> omega

theorem drawFooter_bounds : window.area.Bounds (drawFooter character window) := by
  rw [drawFooter]
  refine Rect.bounds_append.mpr ⟨?_, ?_⟩
  · refine Rect.bounds_flatMap.mpr fun j hj => Rect.bounds_flatMap.mpr fun i hi => ?_
    rw [Int.mem_range_iff] at hj hi
    simp only [borderWidth, footerHeight] at hj hi ⊢
    refine Rect.bounds_append.mpr ⟨Rect.bounds_ite (fun top => ?_) fun _ => Rect.bounds_nil, ?_⟩
    all_goals
      simp only [Rect.bounds_cons, Rect.bounds_nil, Rect.Contains, Window.area, and_true]
      omega
  · intro p hp
    have rows := drawCharacters_rows hp
    rw [footerText_eq] at hp
    have columns := drawCharacters_columns (by decide +kernel) hp
    simp only [List.length_cons, List.length_nil] at columns
    simp only [Rect.Contains, Window.area]
    omega

/-- Everything but the outline is inside of the window. -/
theorem drawWindow_bounds (fits : window.hasCaption = 1 → window.CaptionFits character) :
    window.enlarged.Bounds (drawWindow character window focus) := by
  rw [drawWindow]
  simp only [Rect.bounds_append]
  refine ⟨⟨⟨?_, Window.area_subset (drawBorder_bounds high wide)⟩, drawShadow_bounds high wide⟩, ?_⟩
  · refine Rect.bounds_ite (fun caption => Window.area_subset (drawCaption_bounds high (fits caption)))
      fun _ => Window.area_subset ?_
    refine Rect.bounds_rows (Int.le_refl _) (Int.le_refl _) ?_ (Int.le_refl _)
    simp [Window.area]
  · exact Rect.bounds_ite (fun _ => Window.area_subset (drawFooter_bounds high wide))
      fun _ => Rect.bounds_nil

end Parts

/-! ## The buffer -/

/-- The points of a picture are stored in the buffer, at positions of a rectangle. -/
def Picture.StoredIn (r : Rect) (picture : Picture) : Prop :=
  ∀ p ∈ picture, ∃ x y, OnScreen x y ∧ r.Contains ⟨x, y, p.color⟩ ∧ p.toStore.1 = offset x y

/-- A window on the screen is drawn into its buffer, within one pixel around it, if and only if
it does not touch an edge of the screen. -/
theorem window_inside_iff (left : 0 ≤ window.leftTopX)
    (right : window.leftTopX + window.width ≤ screenWidth) (high : 66 ≤ window.height)
    (wide : 100 ≤ window.width) (fits : window.hasCaption = 1 → window.CaptionFits character) :
    (drawWindow character window focus).StoredIn window.enlarged ↔
      0 < window.leftTopX ∧ window.leftTopX + window.width < screenWidth ∧
        0 < window.leftTopY ∧ window.leftTopY + window.height < screenHeight := by
  constructor
  · intro h
    -- the upper left and the lower right corner of the outline
    have corner : ∀ {j x : Int}, -1 ≤ j → j < window.height + 1 →
        (x = window.leftTopX - 1 ∨ x = window.leftTopX + window.width) →
        ⟨x, window.leftTopY + j, white⟩ ∈ drawWindow character window focus := by
      intro j x low high side
      rw [drawWindow, drawShadow]
      refine List.mem_append_left _ (List.mem_append_right _ (List.mem_append_right _ ?_))
      refine List.mem_flatMap.mpr ⟨j, Int.mem_range_iff.mpr ⟨low, high⟩, ?_⟩
      rcases side with rfl | rfl <;> simp
    obtain ⟨x, y, screen, inside, here⟩ := h _ (corner (j := -1) (by omega) (by omega) (.inl rfl))
    obtain ⟨u, v, screen', inside', here'⟩ :=
      h _ (corner (j := window.height) (by omega) (by omega) (.inr rfl))
    simp only [OnScreen, Rect.Contains, Window.enlarged, Point.toStore, offset, screenWidth,
      screenHeight] at *
    omega
  · rintro ⟨left, right, top, bottom⟩ p hp
    have inside := drawWindow_bounds high wide fits p hp
    refine ⟨p.x, p.y, ?_, inside, rfl⟩
    simp only [Rect.Contains, Window.enlarged] at inside
    simp only [OnScreen]
    omega

/-- A window of the smallest size, with the caption `ls`. -/
def smallestWindow (x y : Int) : Window where
  shown := 1
  hasCaption := 1
  hasMenu := false
  hasFooter := true
  lastLeftTopX := x
  lastLeftTopY := y
  leftTopX := x
  leftTopY := y
  width := 100
  height := 66
  caption := fun i => [0x6c, 0x73].getD i 0
  widgetsNum := 0
  widgets := fun _ => .other
  onFileSystemChangedHandler := ⟨0, false⟩

theorem window_inside_iff_middle : (smallestWindow 500 400).hasCaption = 1 ∧
    cstring (smallestWindow 500 400).caption = [0x6c, 0x73] ∧
    ∀ (character : Font) (focus : Bool), (drawWindow character (smallestWindow 500 400) focus).StoredIn
      (smallestWindow 500 400).enlarged := by
  have caption : cstring (smallestWindow 500 400).caption = [0x6c, 0x73] := by decide +kernel
  refine ⟨rfl, caption, fun character focus => ?_⟩
  refine (window_inside_iff ?_ ?_ ?_ ?_ fun _ p hp => ?_).mpr ?_
  case refine_5 =>
    rw [caption] at hp
    have columns := drawCharacters_columns (by simp) hp
    have middle : Int.tdiv 100 2 = 50 := by decide
    simp only [smallestWindow, middle, List.length_cons, List.length_nil] at columns ⊢
    omega
  all_goals decide

/-- In the upper left corner of the screen a window is drawn in front of its buffer. -/
theorem window_corner_outside : 66 ≤ (smallestWindow 0 0).height ∧
    ∀ (character : Font) (focus : Bool),
      ¬ (drawWindow character (smallestWindow 0 0) focus).StoredIn (smallestWindow 0 0).enlarged ∧
        ∃ p ∈ drawWindow character (smallestWindow 0 0) focus, p.toStore.1 < 0 := by
  refine ⟨by decide, fun character focus => ?_⟩
  have corner : ⟨-1, -1, white⟩ ∈ drawWindow character (smallestWindow 0 0) focus := by
    rw [drawWindow, drawShadow]
    refine List.mem_append_left _ (List.mem_append_right _ (List.mem_append_right _ ?_))
    exact List.mem_flatMap.mpr ⟨-1, by decide, .head _⟩
  have before : (Point.toStore ⟨-1, -1, white⟩).1 < 0 := by decide
  refine ⟨fun h => ?_, _, corner, before⟩
  obtain ⟨x, y, screen, -, here⟩ := h _ corner
  have := screen.offset_range
  omega

end Xv6Gui
