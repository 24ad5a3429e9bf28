import Xv6Gui.Gui.Frame
import Xv6Gui.Mouse.Handlers

/-!
# The pointer is an overlay

`screen` is `screen_temp2` with the pointer drawn over it.  Both updates of
windows end in a copy of the whole frame, so there the two agree and only the
pointer is added.  `updateMouse` takes the pixels under the old pointer from
`screen_temp2`.  The focus functions draw one picture into both buffers.
-/

namespace Xv6Gui

open Canvas

/-- A position of the frame. -/
def OnScreen (x y : Int) : Prop :=
  0 ≤ x ∧ x < screenWidth ∧ 0 ≤ y ∧ y < screenHeight
  deriving Decidable

/-- The address of a position relative to its buffer. -/
def offset (x y : Int) : Int := y * screenWidth + x

theorem OnScreen.offset_range {x y : Int} (h : OnScreen x y) :
    0 ≤ offset x y ∧ offset x y < totalPels := by
  simp only [OnScreen, offset, totalPels, screenWidth, screenHeight] at *
  omega

theorem OnScreen.offset_inj {x y u v : Int} (h : OnScreen x y) (k : OnScreen u v)
    (e : offset x y = offset u v) : x = u ∧ y = v := by
  simp only [OnScreen, offset, screenWidth, screenHeight] at *
  omega

/-- A position in the rectangle of the pointer last drawn. -/
def UnderPointer (info : MouseInfo) (x y : Int) : Prop :=
  info.lastDrawX ≤ x ∧ x < info.lastDrawX + mouseWidth ∧
    info.lastDrawY ≤ y ∧ y < info.lastDrawY + mouseHeight
  deriving Decidable

/-- A position `setMousePosition` can set. -/
def PointerPosition (x y : Int) : Prop :=
  0 ≤ x ∧ x ≤ screenWidth ∧ 0 ≤ y ∧ y ≤ screenHeight
  deriving Decidable

namespace Gui

variable {s t : Gui} {x y : Int}

variable {info : MouseInfo}

/-- `screen` and `screen_temp2` agree at a position. -/
def Agree (s : Gui) (x y : Int) : Prop :=
  s.pixels (screen + offset x y) = s.pixels (screenTemp2 + offset x y)

/-- The screen is `screen_temp2` outside the pointer. -/
structure Overlay (s : Gui) : Prop where
  drawn : PointerPosition s.mouseInfo.lastDrawX s.mouseInfo.lastDrawY
  position : PointerPosition s.mouseInfo.xPosition s.mouseInfo.yPosition
  agree : ∀ x y, OnScreen x y → ¬ UnderPointer s.mouseInfo x y → s.Agree x y

theorem Overlay.congr (h : s.Overlay) (hp : t.pixels = s.pixels)
    (hm : t.mouseInfo = s.mouseInfo) : t.Overlay where
  drawn := hm ▸ h.drawn
  position := hm ▸ h.position
  agree x y hxy hu := by
    rw [Agree, hp]
    exact h.agree x y hxy (hm ▸ hu)

/-! ## Shapes cut off at the edges -/

theorem mem_clipped {a b i j : Int} {width : Int → Int} :
    (i, j) ∈ clipped x y (Int.range a b) (fun j => Int.range 0 (width j)) ↔
      (a ≤ j ∧ j < b ∧ y + j < screenHeight) ∧ 0 ≤ i ∧ i < width j ∧ x + i < screenWidth := by
  simp only [clipped, List.mem_flatMap, List.mem_map, Prod.mk.injEq, mem_takeWhile_range]
  constructor
  · rintro ⟨_, hj, _, hi, rfl, rfl⟩
    exact ⟨hj, hi⟩
  · rintro ⟨hj, hi⟩
    exact ⟨j, hj, i, hi, rfl, rfl⟩

/-- A shape no larger than the pointer stays in the pointer's rectangle and on
the screen. -/
theorem drawClipped_bounds {a b : Int} {width : Int → Int} {color : Int → Int → Option RGB}
    {p : Point} (hxy : PointerPosition x y) (ha : 0 ≤ a) (hb : b ≤ mouseHeight)
    (hw : ∀ j, a ≤ j → j < b → width j ≤ mouseWidth)
    (hp : p ∈ drawClipped x y (Int.range a b) (fun j => Int.range 0 (width j)) color) :
    OnScreen p.x p.y ∧ (x ≤ p.x ∧ p.x < x + mouseWidth) ∧ y ≤ p.y ∧ p.y < y + mouseHeight := by
  simp only [drawClipped, List.mem_filterMap, Option.map_eq_some_iff] at hp
  obtain ⟨⟨i, j⟩, hij, c, _, rfl⟩ := hp
  obtain ⟨⟨h₁, h₂, h₃⟩, h₄, h₅, h₆⟩ := mem_clipped.mp hij
  have := hw j h₁ h₂
  simp only [OnScreen, PointerPosition] at *
  omega

theorem pointerPicture_bounds {p : Point}
    (h : PointerPosition info.xPosition info.yPosition) (hp : p ∈ pointerPicture info) :
    OnScreen p.x p.y ∧
      (info.xPosition ≤ p.x ∧ p.x < info.xPosition + mouseWidth) ∧
        info.yPosition ≤ p.y ∧ p.y < info.yPosition + mouseHeight := by
  simp only [pointerPicture] at hp
  split at hp
  · refine drawClipped_bounds h (by decide) (by decide) ?_ hp
    intro j _ _
    exact le_refl _
  · obtain hp | hp := List.mem_append.mp hp
    · refine drawClipped_bounds h (by decide) (by decide) ?_ hp
      intro j _ hj
      simp only [mouseHeight, mouseWidth] at *
      omega
    · refine drawClipped_bounds h (by decide) (by decide) ?_ hp
      intro j hj _
      simp only [mouseHeight, mouseWidth] at *
      omega

/-! ## The pointer -/

/-- With the frames equal everywhere, drawing the pointer leaves an overlay. -/
theorem drawMouse_overlay (h : PointerPosition s.mouseInfo.xPosition s.mouseInfo.yPosition)
    (ha : ∀ x y, OnScreen x y → s.Agree x y) : s.drawMouse.Overlay where
  drawn := h
  position := h
  agree x y hxy hu := by
    have hr := hxy.offset_range
    have here : s.drawMouse.pixels (screen + offset x y) = s.pixels (screen + offset x y) := by
      refine paint_other ?_
      intro w hw e
      obtain ⟨p, hp, rfl⟩ := List.mem_map.mp hw
      obtain ⟨on, hx, hy⟩ := pointerPicture_bounds h hp
      obtain ⟨rfl, rfl⟩ := hxy.offset_inj on (by simpa [Point.toStore, offset] using e)
      exact hu ⟨hx.1, hx.2, hy.1, hy.2⟩
    have there : s.drawMouse.pixels (screenTemp2 + offset x y) =
        s.pixels (screenTemp2 + offset x y) := by
      refine paint_other ?_
      intro w hw e
      obtain ⟨p, hp, rfl⟩ := List.mem_map.mp hw
      have := (pointerPicture_bounds h hp).1.offset_range
      simp only [Point.toStore, offset, screen, screenTemp2] at *
      omega
    rw [Agree, here, there]
    exact ha x y hxy

theorem pointerOffsets_range {o : Int}
    (h : PointerPosition info.lastDrawX info.lastDrawY) (ho : o ∈ pointerOffsets info) :
    0 ≤ o ∧ o < totalPels := by
  obtain ⟨⟨i, j⟩, hij, rfl⟩ := List.mem_map.mp ho
  obtain ⟨⟨h₁, h₂, h₃⟩, h₄, h₅, h₆⟩ := mem_clipped.mp hij
  have on : OnScreen (info.lastDrawX + i) (info.lastDrawY + j) := by
    simp only [OnScreen, PointerPosition] at *
    omega
  exact on.offset_range

theorem mem_pointerOffsets (hxy : OnScreen x y) (hu : UnderPointer info x y) :
    offset x y ∈ pointerOffsets info := by
  refine List.mem_map.mpr ⟨(x - info.lastDrawX, y - info.lastDrawY), mem_clipped.mpr ?_, ?_⟩
  · simp only [OnScreen, UnderPointer] at *
    omega
  · simp only [offset, add_sub_cancel]

/-- Removing the pointer makes the frames equal everywhere. -/
theorem Overlay.removeMouse_agree (h : s.Overlay) (hxy : OnScreen x y) :
    s.removeMouse.Agree x y := by
  have hr := hxy.offset_range
  have apart : ∀ o ∈ pointerOffsets s.mouseInfo, screenTemp2 + offset x y ≠ screen + o := by
    intro o ho e
    have := pointerOffsets_range h.drawn ho
    simp only [screen, screenTemp2] at e
    omega
  have here := copyAt_eq (m := s.pixels) apart
  have there : s.removeMouse.pixels (screenTemp2 + offset x y) =
      s.pixels (screenTemp2 + offset x y) := copyAt_other apart
  rw [Agree, there]
  refine here.trans ?_
  split
  · rfl
  · rename_i hn
    exact h.agree x y hxy fun hu => hn (mem_pointerOffsets hxy hu)

theorem Overlay.updateMouse (h : s.Overlay) : s.updateMouse.Overlay :=
  drawMouse_overlay h.position fun _ _ hxy => h.removeMouse_agree hxy

theorem Overlay.setMousePosition (h : s.Overlay) (x y : Int) :
    (s.setMousePosition x y).Overlay := by
  refine Overlay.updateMouse ⟨h.drawn, ?_, h.agree⟩
  simp only [PointerPosition, screenWidth, screenHeight]
  split <;> split <;> split <;> split <;> omega

/-! ## Updates of windows -/

theorem moveFrame_agree (s : Gui) (hxy : OnScreen x y) :
    (s.moveFrame screen screenTemp2).Agree x y := by
  have hr := hxy.offset_range
  have there : (s.moveFrame screen screenTemp2).pixels (screenTemp2 + offset x y) =
      s.pixels (screenTemp2 + offset x y) := by
    refine move_outside (.inr ?_)
    simp only [screen, screenTemp2]
    omega
  rw [Agree, there]
  exact move_inside hr.1 hr.2

/-- Where an update of windows ends, the screen is an overlay again, whatever
it was before. -/
theorem Redrawn.overlay {u : Gui} (h : Redrawn s u)
    (hp : PointerPosition s.mouseInfo.xPosition s.mouseInfo.yPosition) :
    (u.moveFrame screen screenTemp2).drawMouse.Overlay := by
  refine drawMouse_overlay ?_ fun _ _ hxy => moveFrame_agree u hxy
  rw [← h.mouseInfo] at hp
  exact hp

theorem updateBackWindows_overlay
    (hp : PointerPosition s.mouseInfo.xPosition s.mouseInfo.yPosition)
    (h : s.updateBackWindows = some t) : t.Overlay := by
  obtain ⟨u, hu, rfl⟩ := updateBackWindows_eq_some h
  exact hu.overlay hp

theorem updateLastWindow_overlay
    (hp : PointerPosition s.mouseInfo.xPosition s.mouseInfo.yPosition)
    (h : s.updateLastWindow = some t) : t.Overlay := by
  obtain ⟨u, hu, rfl⟩ := updateLastWindow_eq_some h
  exact hu.overlay hp

/-! ## The focused icon -/

/-- One picture on the screen, drawn into both buffers. -/
theorem Overlay.draw_both (h : s.Overlay) {picture : Picture}
    (hp : ∀ p ∈ picture, OnScreen p.x p.y) :
    ((s.draw screenTemp2 picture).draw screen picture).Overlay where
  drawn := h.drawn
  position := h.position
  agree x y hxy hu := by
    have hr := hxy.offset_range
    have stores : ∀ w ∈ picture.map Point.toStore, 0 ≤ w.1 ∧ w.1 < totalPels := by
      intro w hw
      obtain ⟨p, hp', rfl⟩ := List.mem_map.mp hw
      exact (hp p hp').offset_range
    have there : ((s.draw screenTemp2 picture).draw screen picture).pixels
        (screenTemp2 + offset x y) =
          (s.draw screenTemp2 picture).pixels (screenTemp2 + offset x y) := by
      refine paint_other ?_
      intro w hw e
      have := stores w hw
      simp only [screen, screenTemp2] at e
      omega
    have before : (s.draw screenTemp2 picture).pixels (screen + offset x y) =
        s.pixels (screenTemp2 + offset x y) := by
      refine (paint_other ?_).trans (h.agree x y hxy hu)
      intro w hw e
      have := stores w hw
      simp only [screen, screenTemp2] at e
      omega
    rw [Agree, there]
    exact paint_agree before

/-- The icon at an address is drawn inside the screen when it is drawn in
`window`, whichever of its pixels are transparent. -/
def DrawnInside (s : Gui) (window : Window) (addr : Int) : Prop :=
  ∀ icon image, s.loadIcon addr = some icon →
    ∀ p ∈ drawIconView s.character { icon with image := image } window, OnScreen p.x p.y

theorem DrawnInside.congr {addr : Int} {w : Window} (h : s.DrawnInside w addr)
    (hl : t.loaded = s.loaded) (hi : t.icon = s.icon) (hc : t.character = s.character) :
    t.DrawnInside w addr := by
  intro icon image
  rw [loadIcon, hl, hi, hc]
  exact h icon image

/-- `t` is `s` after some drawing of icons in `window`. -/
structure IconsDrawn (window : Window) (s t : Gui) : Prop where
  overlay : s.Overlay → t.Overlay
  inside : ∀ addr, s.DrawnInside window addr → t.DrawnInside window addr
  focusIcon : t.focusIcon = s.focusIcon

theorem IconsDrawn.refl (window : Window) (s : Gui) : IconsDrawn window s s :=
  ⟨id, fun _ => id, rfl⟩

theorem IconsDrawn.trans {u : Gui} {window : Window} (h : IconsDrawn window s t)
    (k : IconsDrawn window t u) : IconsDrawn window s u where
  overlay := k.overlay ∘ h.overlay
  inside addr := k.inside addr ∘ h.inside addr
  focusIcon := k.focusIcon.trans h.focusIcon

variable {window : Window}

theorem storeImage_iconsDrawn {addr : Int} {icon : IconView} {image : Int → RGB}
    (hi : s.loadIcon addr = some icon)
    (h : s.storeIcon addr { icon with image := image } = some t) : IconsDrawn window s t := by
  cases hl : s.loaded with
  | none => simp [loadIcon, hl] at hi
  | some p =>
    simp only [loadIcon, hl, Option.map_some, Option.some.injEq] at hi
    simp only [storeIcon, hl, Option.map_some, Option.some.injEq] at h
    subst h hi
    refine ⟨fun h => h.congr rfl rfl, ?_, rfl⟩
    intro a ha icon' image' h'
    simp only [loadIcon, Option.map_some, Option.some.injEq, Function.update_self] at h'
    subst h'
    by_cases e : a = addr
    · subst e
      rw [Function.update_self]
      exact ha (s.icon p a) image' (by simp [loadIcon, hl])
    · rw [Function.update_of_ne e]
      exact ha (s.icon p a) image' (by simp [loadIcon, hl])

theorem drawFocus_iconsDrawn (hf : s.DrawnInside window s.focusIcon)
    (h : s.drawFocus window = some t) : IconsDrawn window s t := by
  simp only [drawFocus, Runs.bind_some] at h
  obtain ⟨icon, hi, h⟩ := h
  rw [← Option.some.inj h]
  exact ⟨fun h => h.draw_both (hf icon icon.image hi), fun _ ha => ha, rfl⟩

theorem restoreFocus_iconsDrawn (hf : s.DrawnInside window s.focusIcon)
    (h : s.restoreFocus window = some t) : IconsDrawn window s t := by
  simp only [restoreFocus, Runs.bind_some] at h
  obtain ⟨icon, hi, u, hu, h⟩ := h
  have stored : IconsDrawn window s u := storeImage_iconsDrawn hi hu
  refine stored.trans (drawFocus_iconsDrawn ?_ h)
  rw [stored.focusIcon]
  exact stored.inside _ hf

theorem clearFocus_iconsDrawn (h : s.clearFocus = some t) : IconsDrawn window s t := by
  simp only [clearFocus, Runs.bind_some] at h
  obtain ⟨icon, hi, u, hu, h⟩ := h
  rw [← Option.some.inj h]
  have stored : IconsDrawn window s u := storeImage_iconsDrawn hi hu
  exact stored.trans ⟨fun h => h.congr rfl rfl, fun _ ha => ha, rfl⟩

theorem takeFocus_iconsDrawn (hf : s.DrawnInside window s.focusIcon)
    (h : s.takeFocus window = some t) : IconsDrawn window s t := by
  simp only [takeFocus, Runs.bind_some] at h
  obtain ⟨icon, hi, u, hu, h⟩ := h
  have saved : IconsDrawn window s (s.saveUnder window icon) :=
    ⟨fun h => h.congr (by rw [saveUnder]) (by rw [saveUnder]),
      fun _ ha => ha.congr (by rw [saveUnder]) (by rw [saveUnder]) (by rw [saveUnder]),
      by rw [saveUnder]⟩
  have here : (s.saveUnder window icon).loadIcon (s.saveUnder window icon).focusIcon =
      some icon := by
    rw [saved.focusIcon, loadIcon, saveUnder]
    exact hi
  have stored : IconsDrawn window s u := saved.trans (storeImage_iconsDrawn here hu)
  refine stored.trans (drawFocus_iconsDrawn ?_ h)
  rw [stored.focusIcon]
  exact stored.inside _ hf

theorem undrawFocus_iconsDrawn (hf : s.focusIcon ≠ 0 → s.DrawnInside window s.focusIcon)
    (h : s.undrawFocus window = some t) : IconsDrawn window s t := by
  rw [undrawFocus] at h
  split at h
  · rw [← Option.some.inj h]
    exact .refl window s
  · rename_i hn
    exact restoreFocus_iconsDrawn (hf hn) h

theorem leaveFocus_iconsDrawn (hf : s.focusIcon ≠ 0 → s.DrawnInside window s.focusIcon)
    (h : s.leaveFocus window = some t) : IconsDrawn window s t := by
  rw [leaveFocus] at h
  split at h
  · rw [← Option.some.inj h]
    exact .refl window s
  · rename_i hn
    obtain ⟨u, hu, h⟩ := Runs.bind_some.mp h
    exact (restoreFocus_iconsDrawn (hf hn) hu).trans (clearFocus_iconsDrawn h)

/-- The icon at an address is drawn inside the screen by a focus function
called now: in the last window, under the page table of its process. -/
def FocusInside (s : Gui) (addr : Int) : Prop :=
  ∀ window, { s with loaded := s.lastEntry.proc }.loadWindow s.lastEntry.window = some window →
    { s with loaded := s.lastEntry.proc }.DrawnInside window addr

theorem Overlay.moveFocus {icon : Int} {owner : Option ProcPtr} (ho : s.Overlay)
    (hi : ∀ w, s.loadWindow s.lastEntry.window = some w → s.DrawnInside w icon)
    (hf : ∀ w, s.loadWindow s.lastEntry.window = some w →
      s.focusIcon ≠ 0 → s.DrawnInside w s.focusIcon)
    (h : s.moveFocus icon owner = some t) : t.Overlay := by
  simp only [Gui.moveFocus, Runs.bind_some] at h
  obtain ⟨window, hw, s₁, h₁, s₂, h₂, h₃⟩ := h
  have left := leaveFocus_iconsDrawn (hf window hw) h₁
  have inside : (s₁.setFocus icon owner).DrawnInside window icon :=
    (left.inside icon (hi window hw)).congr rfl rfl rfl
  have taken := takeFocus_iconsDrawn inside h₂
  rw [switchBack_eq_some h₃]
  exact (taken.overlay ((left.overlay ho).congr rfl rfl)).congr rfl rfl

theorem Overlay.focusIconView {icon : Int} (ho : s.Overlay) (hi : s.FocusInside icon)
    (hf : s.focusIcon ≠ 0 → s.FocusInside s.focusIcon)
    (h : s.focusIconView icon = some t) : t.Overlay := by
  simp only [Gui.focusIconView, Runs.bind_some] at h
  obtain ⟨s₁, h₁, h⟩ := h
  have e := switchuvm_eq_some h₁
  have ho₁ : s₁.Overlay := ho.congr (by rw [e]; rfl) (by rw [e]; rfl)
  split at h
  · rw [← Option.some.inj h]
    exact ho₁
  · refine ho₁.moveFocus ?_ ?_ h
    · intro w hw
      subst e
      exact (hi w hw).congr rfl rfl rfl
    · intro w hw hn
      subst e
      exact (hf hn w hw).congr rfl rfl rfl

theorem Overlay.focusDismiss (ho : s.Overlay)
    (hf : s.focusIcon ≠ 0 → s.FocusInside s.focusIcon)
    (h : s.focusDismiss = some t) : t.Overlay := by
  simp only [Gui.focusDismiss, Runs.bind_some] at h
  obtain ⟨s₁, h₁, window, hw, s₂, h₂, s₃, h₃, h₄⟩ := h
  have e := switchuvm_eq_some h₁
  have ho₁ : s₁.Overlay := ho.congr (by rw [e]; rfl) (by rw [e]; rfl)
  have inside : s₁.focusIcon ≠ 0 → s₁.DrawnInside window s₁.focusIcon := by
    intro hn
    subst e
    exact (hf hn window hw).congr rfl rfl rfl
  have undrawn := undrawFocus_iconsDrawn inside h₂
  have cleared : IconsDrawn window s₂ s₃ := clearFocus_iconsDrawn h₃
  rw [switchBack_eq_some h₄]
  exact (cleared.overlay (undrawn.overlay ho₁)).congr rfl rfl

end Gui

/-! ## Runs -/

/-- What changes the screen. -/
inductive ScreenEvent where
  | updateBackWindows
  | updateLastWindow
  /-- The pointer is moved, with some value of `mouse_info.event`. -/
  | updateMouse (x y event : Int)
  | focusIconView (icon : Int)
  | focusDismiss
  /-- Anything that neither draws nor moves the pointer. -/
  | elsewhere

/-- One event.  The icons the focus functions draw lie inside the screen. -/
inductive ScreenStep : Gui → ScreenEvent → Gui → Prop where
  | updateBackWindows {s t : Gui} :
      s.updateBackWindows = some t → ScreenStep s .updateBackWindows t
  | updateLastWindow {s t : Gui} :
      s.updateLastWindow = some t → ScreenStep s .updateLastWindow t
  | updateMouse {s : Gui} (x y event : Int) :
      ScreenStep s (.updateMouse x y event)
        ({ s with mouseInfo := { s.mouseInfo with event := event } }.setMousePosition x y)
  | focusIconView {s t : Gui} {icon : Int} :
      s.FocusInside icon → (s.focusIcon ≠ 0 → s.FocusInside s.focusIcon) →
        s.focusIconView icon = some t → ScreenStep s (.focusIconView icon) t
  | focusDismiss {s t : Gui} :
      (s.focusIcon ≠ 0 → s.FocusInside s.focusIcon) →
        s.focusDismiss = some t → ScreenStep s .focusDismiss t
  | elsewhere {s t : Gui} :
      t.pixels = s.pixels → t.mouseInfo = s.mouseInfo → ScreenStep s .elsewhere t

theorem ScreenStep.overlay {s t : Gui} {e : ScreenEvent} (h : s.Overlay) (step : ScreenStep s e t) :
    t.Overlay := by
  cases step with
  | updateBackWindows ht => exact Gui.updateBackWindows_overlay h.position ht
  | updateLastWindow ht => exact Gui.updateLastWindow_overlay h.position ht
  | updateMouse x y event =>
    refine Gui.Overlay.setMousePosition ?_ x y
    exact ⟨h.drawn, h.position, h.agree⟩
  | focusIconView hi hf ht => exact h.focusIconView hi hf ht
  | focusDismiss hf ht => exact h.focusDismiss hf ht
  | elsewhere hp hm => exact h.congr hp hm

/-- After a first full redraw, in every run, the screen is `screen_temp2` at
every position of the frame outside the rectangle of the pointer last drawn. -/
theorem screen_eq_temp2_outside_pointer {s₀ s₁ s : Gui} {es : List ScreenEvent} {x y : Int}
    (hp : PointerPosition s₀.mouseInfo.xPosition s₀.mouseInfo.yPosition)
    (first : s₀.updateBackWindows = some s₁) (run : Runs.Steps ScreenStep s₁ es s)
    (hxy : OnScreen x y) (hu : ¬ UnderPointer s.mouseInfo x y) :
    s.pixels (screen + offset x y) = s.pixels (screenTemp2 + offset x y) := by
  have start : s₁.Overlay := Gui.updateBackWindows_overlay hp first
  have overlay : s.Overlay := run.invariant start ScreenStep.overlay
  exact overlay.agree x y hxy hu

/-- A window with one icon, in the memory of process 1. -/
def sampleGui : Gui where
  queue :=
    { windowQueue := ⟨none, 0, some (.windowLine 0), none⟩
      windowLine := fun i =>
        if i = 0 then ⟨some 1, 4096, none, some .windowQueue⟩ else ⟨none, 0, none, none⟩
      lastWindow := .windowLine 0 }
  window _ _ :=
    { shown := 1, hasCaption := 1, hasMenu := false, hasFooter := false
      lastLeftTopX := 100, lastLeftTopY := 100, leftTopX := 100, leftTopY := 100
      width := 400, height := 300, caption := fun _ => 0, widgetsNum := 1
      widgets := fun _ => .iconView 64, onFileSystemChangedHandler := ⟨0, false⟩ }
  icon _ _ := ⟨20, 40, 96, 96, fun _ => white, fun _ => 0, ⟨0, false⟩⟩
  pixels _ := black
  mouseInfo := ⟨640, 512, 640, 512, 0⟩
  focusIcon := 0
  background _ := black
  isBg _ := false
  character _ _ _ := false
  loaded := some 1
  proc := some 1
  focusOwner := none
  focusCalls := []

/-- The sample, drawn. -/
def sampleDrawn : Gui := sampleGui.updateBackWindows.getD sampleGui

/-- The sample with an icon in focus. -/
def sampleFocused : Gui := (sampleDrawn.focusIconView 64).getD sampleDrawn

/-- The icon of the sample lies inside the screen. -/
theorem sampleDrawn_focusInside : sampleDrawn.FocusInside 64 := by
  intro window hwindow icon image hicon p hp
  have hx : window.leftTopX = 100 ∧ window.leftTopY = 100 := by
    cases hwindow
    exact ⟨rfl, rfl⟩
  cases hicon
  have empty : cstring (sampleDrawn.icon 1 64).text = [] := by decide
  have sizes : (sampleDrawn.icon 1 64).leftTopX = 20 ∧ (sampleDrawn.icon 1 64).leftTopY = 40 ∧
      (sampleDrawn.icon 1 64).width = 96 ∧ (sampleDrawn.icon 1 64).height = 96 :=
    ⟨rfl, rfl, rfl, rfl⟩
  simp only [drawIconView, empty, drawCharacters, List.append_nil, drawImage,
    List.mem_flatMap, List.mem_map, List.mem_filter, Int.mem_range_iff] at hp
  obtain ⟨j, hj, i, ⟨hi, _⟩, rfl⟩ := hp
  simp only [OnScreen, screenWidth, screenHeight]
  omega

theorem screen_eq_temp2_outside_pointer_sample :
    ∃ s : Gui, sampleGui.updateBackWindows = some sampleDrawn ∧
      Runs.Steps ScreenStep sampleDrawn [.focusIconView 64, .updateMouse 300 200 0] s ∧
        s.pixels (screen + offset 10 10) = s.pixels (screenTemp2 + offset 10 10) := by
  have first : sampleGui.updateBackWindows = some sampleDrawn := rfl
  have focus : ScreenStep sampleDrawn (.focusIconView 64) sampleFocused :=
    .focusIconView sampleDrawn_focusInside (fun h => absurd rfl h) rfl
  have run := (Runs.Steps.single focus).snoc (.updateMouse 300 200 0)
  refine ⟨_, first, run, ?_⟩
  refine screen_eq_temp2_outside_pointer (by decide) first run (by decide) ?_
  show ¬ UnderPointer ⟨300, 200, 300, 200, 0⟩ 10 10
  decide

end Xv6Gui
