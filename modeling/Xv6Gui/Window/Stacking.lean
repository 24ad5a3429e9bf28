import Xv6Gui.Window.RedrawSafety

/-!
# What is clicked and what is seen

`updateBackWindows` draws the windows from the sentinel on, the last one at the end.
`getClickedWindowQueue` looks for a window around the pointer from the last one back.  Both agree
on which window is above which.

They do not agree on which windows there are.  A window with `show` other than 1, or with a null
address, is not drawn, but it is found.  And a window that draws outside of its rectangle and its
outline may hide the pixels of one that is found.
-/

namespace Xv6Gui.Gui

open Canvas Linked

variable {s t : Gui} {l : List Slot} {i j : Slot} {x y : Int}

/-! ## Layers -/

/-- The picture of a slot. -/
def slotPicture (s : Gui) (i : Slot) : Picture :=
  s.nodePicture (.windowLine i = s.queue.lastWindow) (.windowLine i)

/-- What the window in a slot stores, with the offsets in the frame. -/
def slotStores (s : Gui) (i : Slot) : List (Int × RGB) := (s.slotPicture i).map Point.toStore

/-- The windows on an empty frame, in the order of the queue. -/
def stack (s : Gui) (l : List Slot) : Int → Option (Slot × RGB) := paintLayers s.slotStores l

/-- The window of a slot is drawn. -/
def Drawn (s : Gui) (i : Slot) : Prop :=
  ∃ o, (s.queue.entry (.windowLine i)).proc = some o ∧
    (s.queue.entry (.windowLine i)).window ≠ 0 ∧
    (s.window o (s.queue.entry (.windowLine i)).window).shown = 1

/-- The rectangle of the window in a slot, enlarged by one pixel, is around a position. -/
def aroundOutline (s : Gui) (x y : Int) (i : Slot) : Bool :=
  (s.queue.entry (.windowLine i)).proc.any fun p =>
    let w := s.window p (s.queue.entry (.windowLine i)).window
    inRange (w.leftTopX - 1) (w.leftTopY - 1) (w.width + 2) (w.height + 2) x y

/-- The window in a slot draws inside its enlarged rectangle, and not to the left or to the right
of the screen. -/
def Tidy (s : Gui) (i : Slot) : Prop :=
  ∀ p ∈ s.slotPicture i, 0 ≤ p.x ∧ p.x < screenWidth ∧ s.aroundOutline p.x p.y i = true
  deriving Decidable

/-- A position on the outline of the window in a slot. -/
def OnOutline (s : Gui) (x y : Int) (i : Slot) : Prop :=
  s.aroundOutline x y i = true ∧ s.around x y (.windowLine i) = false
  deriving Decidable

/-! ## The frame -/

/-- The picture of all windows but the last, and that of the last. -/
theorem slotPictures (windows : s.queue.Windows l) (ne : l ≠ []) :
    ∃ back o, s.others = some back ∧ s.lastEntry.proc = some o ∧
      l.flatMap s.slotPicture = back ++ s.lastPicture o := by
  obtain ⟨l', i, rfl, last, fresh⟩ := windows.split_last ne
  have links := windows.links.chain
  rw [List.map_append, List.map_singleton, ← last] at links
  have procs : ∀ n ∈ l'.map Node.windowLine, (s.queue.entry n).proc ≠ none := by
    intro n hn
    obtain ⟨j, hj, rfl⟩ := List.mem_map.mp hn
    exact windows.proc_ne_none (by simp [hj])
  have room : (l'.map Node.windowLine).length < Queue.queueFuel := by
    have := windows.length_le
    simp only [List.length_append, List.length_map, List.length_singleton, Queue.queueFuel] at this ⊢
    omega
  have back := backPicture_eq links (by simpa [last] using fresh) procs room
  obtain ⟨o, owner⟩ := Option.ne_none_iff_exists'.mp (windows.proc_ne_none (i := i) (by simp))
  refine ⟨_, o, back, by rw [lastEntry, last, owner], ?_⟩
  rw [List.flatMap_append, List.flatMap_map]
  congr 1
  · refine List.flatMap_congr fun j hj => ?_
    have other : Node.windowLine j ≠ s.queue.lastWindow := by
      rw [last]
      intro e
      cases e
      exact fresh hj
    simp [slotPicture, other]
  · simp [slotPicture, nodePicture, lastPicture, lastEntry, last, owner]

/-- What `updateBackWindows` leaves in `screen_temp2`. -/
theorem updateBackWindows_stack {c : ProcPtr} (windows : s.queue.Windows l) (ne : l ≠ [])
    (current : s.proc = some c)
    (pointer : PointerPosition s.mouseInfo.xPosition s.mouseInfo.yPosition) :
    ∃ t, s.updateBackWindows = some t ∧ ∀ off, 0 ≤ off → off < totalPels →
      t.pixels (screenTemp2 + off) = ((s.stack l off).map Prod.snd).getD black := by
  obtain ⟨back, o, others, owner, pictures⟩ := slotPictures windows ne
  refine ⟨_, updateBackWindows_eq current owner others, ?_⟩
  intro off h₀ h₁
  have above : totalPels ≤ screenTemp2 + off := by
    simp only [screenTemp2, totalPels, screenWidth, screenHeight] at *
    omega
  rw [finish_above pointer above, fullPixels_temp2 h₀ h₁, stack, paintLayers_pixels]
  have stores : l.flatMap s.slotStores =
      back.map Point.toStore ++ (s.lastPicture o).map Point.toStore := by
    rw [← List.map_append, ← pictures, List.map_flatMap]
    rfl
  rw [stores, paint_append]
  rfl

/-! ## Windows -/

/-- A point of a rectangle that is filled row by row. -/
theorem mem_rows {a b x y width px py : Int} (color : Int → RGB) (hx : x ≤ px)
    (hx' : px < x + width) (hy : y + a ≤ py) (hy' : py < y + b) :
    ⟨px, py, color (py - y)⟩ ∈
      (Int.range a b).flatMap fun j => row x (y + j) width (color j) := by
  refine List.mem_flatMap.mpr ⟨py - y, Int.mem_range_iff.mpr (by omega), ?_⟩
  refine List.mem_map.mpr ⟨px - x, Int.mem_range_iff.mpr (by omega), ?_⟩
  simp

/-- A window is drawn all over its rectangle. -/
theorem drawWindow_covers (character : Font) (window : Window) (focus : Bool)
    (inside : inWindowRange window x y = true) :
    ∃ p ∈ drawWindow character window focus, p.x = x ∧ p.y = y := by
  simp only [inWindowRange, inRange, Bool.and_eq_true, decide_eq_true_eq, ge_iff_le] at inside
  obtain ⟨⟨⟨left, right⟩, top⟩, bottom⟩ := inside
  -- the border at the bottom covers what the area below the caption leaves
  suffices body : y < window.leftTopY + window.height - borderWidth →
      ∃ p ∈ (if window.hasCaption = 1 then drawCaption character window focus
        else (Int.range 0 window.height).flatMap fun j =>
          row window.leftTopX (window.leftTopY + j) window.width white), p.x = x ∧ p.y = y by
    by_cases low : y < window.leftTopY + window.height - borderWidth
    · obtain ⟨p, hp, at_⟩ := body low
      refine ⟨p, ?_, at_⟩
      rw [drawWindow, List.append_assoc, List.append_assoc]
      exact List.mem_append_left _ hp
    · have border := mem_rows (a := window.height - borderWidth - 1) (b := window.height)
        (y := window.leftTopY) (fun _ => frameColor focus) left right (by omega) bottom
      refine ⟨⟨x, y, frameColor focus⟩, ?_, rfl, rfl⟩
      rw [drawWindow, drawBorder]
      simp only [List.mem_append]
      exact .inl (.inl (.inr (.inr border)))
  intro low
  split
  · rw [drawCaption]
    by_cases caption : y < window.leftTopY + captionHeight
    · have rows := mem_rows (a := 0) (b := captionHeight) (y := window.leftTopY)
        (fun _ => frameColor focus) left right (by omega) caption
      exact ⟨_, by simp only [List.mem_append]; exact .inl (.inl rows), rfl, rfl⟩
    · have below : y < window.leftTopY + (window.height - borderWidth) := by omega
      have rows := mem_rows (a := captionHeight)
        (fun j => if j < captionHeight + menuHeight ∧ window.hasMenu then panel
          else if j = captionHeight + menuHeight ∧ window.hasMenu then shadow else white)
        left right (by omega) below
      exact ⟨_, by simp only [List.mem_append]; exact .inr rows, rfl, rfl⟩
  · have rows := mem_rows (a := 0) (b := window.height) (y := window.leftTopY) (fun _ => white)
      left right (by omega) bottom
    exact ⟨_, rows, rfl, rfl⟩

theorem Drawn.covers (drawn : s.Drawn i) (inside : s.around x y (.windowLine i) = true) :
    ∃ w ∈ s.slotStores i, w.1 = offset x y := by
  obtain ⟨o, owner, address, shown⟩ := drawn
  rw [around, owner] at inside
  obtain ⟨p, hp, rfl, rfl⟩ := drawWindow_covers s.character _
    (.windowLine i = s.queue.lastWindow : Bool) inside
  refine ⟨p.toStore, List.mem_map_of_mem ?_, rfl⟩
  simp only [slotPicture, nodePicture, owner, entryPicture, address, windowPicture, shown,
    Option.map_some, Option.getD_some, if_true, if_false]
  exact List.mem_append_left _ hp

/-- A window that stores anything is drawn. -/
theorem drawn_of_store {w : Int × RGB} (h : w ∈ s.slotStores i) : s.Drawn i := by
  obtain ⟨p, hp, -⟩ := List.mem_map.mp h
  rw [slotPicture, nodePicture] at hp
  cases owner : (s.queue.entry (.windowLine i)).proc with
  | none => simp [owner] at hp
  | some o =>
    rw [owner, Option.map_some, Option.getD_some, entryPicture] at hp
    split at hp
    · cases hp
    rename_i address
    rw [windowPicture] at hp
    split at hp
    · rename_i shown
      exact ⟨o, owner, address, shown⟩
    · cases hp

/-- A tidy window stores nothing at a position outside of its rectangle and its outline. -/
theorem Tidy.avoids (tidy : s.Tidy i) (pixel : OnScreen x y)
    (outside : s.around x y (.windowLine i) = false) (outline : ¬ s.OnOutline x y i) :
    ∀ w ∈ s.slotStores i, w.1 ≠ offset x y := by
  rintro w hw e
  obtain ⟨p, hp, rfl⟩ := List.mem_map.mp hw
  obtain ⟨left, right, inside⟩ := tidy p hp
  have same : p.x = x ∧ p.y = y := by
    simp only [Point.toStore, offset, OnScreen, screenWidth, screenHeight] at *
    omega
  rw [same.1, same.2] at inside
  exact outline ⟨inside, outside⟩

/-! ## The topmost window -/

/-- With a current process, a click finds the topmost window around the pointer. -/
theorem clicked_eq_topmost (windows : s.queue.Windows l) (current : s.proc ≠ none)
    (inside : ∃ i ∈ l,
      s.around s.mouseInfo.xPosition s.mouseInfo.yPosition (.windowLine i) = true) :
    ∃ i, s.topmost l s.mouseInfo.xPosition s.mouseInfo.yPosition = some i ∧
      s.clicked = some (.windowLine i) := by
  have returns : s.getClickedWindowQueue.isSome := by
    rw [getClickedWindowQueue, windowAt_isSome_iff windows current, sentinel_mem_lookup windows]
    push Not
    obtain ⟨i, hi, inside⟩ := inside
    exact ⟨i, hi, by simp [inside]⟩
  obtain ⟨⟨t, hit⟩, call⟩ := Option.isSome_iff_exists.mp returns
  obtain ⟨i, top, rfl⟩ := windowAt_topmost windows call
  exact ⟨i, top, by rw [clicked, call]; rfl⟩

/-- The window that stored at a position last is the topmost one around it, if that window is drawn
and no window above it stores there. -/
theorem stack_eq {before after : List Slot} (windows : s.queue.Windows (before ++ i :: after))
    (inside : s.around x y (.windowLine i) = true) :
    (s.stack (before ++ i :: after) (offset x y)).map Prod.fst = some i ↔
      s.Drawn i ∧ ∀ j ∈ after, ∀ w ∈ s.slotStores j, w.1 ≠ offset x y := by
  have nodup := windows.nodup
  rw [List.nodup_append, List.nodup_cons] at nodup
  obtain ⟨-, ⟨notAfter, -⟩, apart⟩ := nodup
  have notBefore : i ∉ before := fun mem => apart i mem i (by simp) rfl
  rw [stack, paintLayers_eq s.slotStores notBefore notAfter]
  refine and_congr_left fun _ => ?_
  exact ⟨fun ⟨w, hw, _⟩ => drawn_of_store hw, fun drawn => drawn.covers inside⟩

end Xv6Gui.Gui

namespace Xv6Gui

/-- The window that a click at a pixel finds is the one that `updateBackWindows` drew there last, if
and only if it is drawn and no window above it stores at the pixel.  If the windows above it keep to
their outlines, and the pixel is not on one of them, then it is enough that the window is drawn. -/
theorem clicked_is_seen_iff {s : Gui} {l : List Slot} {c : ProcPtr} {x y : Int}
    (windows : s.queue.Windows l) (current : s.proc = some c)
    (at_ : s.mouseInfo.xPosition = x ∧ s.mouseInfo.yPosition = y) (pixel : OnScreen x y)
    (inside : ∃ i ∈ l, s.around x y (.windowLine i) = true) :
    ∃ before i after t, l = before ++ i :: after ∧ s.clicked = some (.windowLine i) ∧
      s.updateBackWindows = some t ∧
      t.pixels (screenTemp2 + offset x y) =
        ((s.stack l (offset x y)).map Prod.snd).getD black ∧
      ((s.stack l (offset x y)).map Prod.fst = some i ↔
        s.Drawn i ∧ ∀ j ∈ after, ∀ w ∈ s.slotStores j, w.1 ≠ offset x y) ∧
      ((∀ j ∈ after, s.Tidy j ∧ ¬ s.OnOutline x y j) →
        ((s.stack l (offset x y)).map Prod.fst = some i ↔ s.Drawn i)) := by
  obtain ⟨rfl, rfl⟩ := at_
  obtain ⟨i, top, clicked⟩ := Gui.clicked_eq_topmost windows (by simp [current]) inside
  obtain ⟨before, after, rfl, around, above⟩ := Gui.topmost_eq_some.mp top
  have pointer : PointerPosition s.mouseInfo.xPosition s.mouseInfo.yPosition :=
    ⟨pixel.1, pixel.2.1.le, pixel.2.2.1, pixel.2.2.2.le⟩
  obtain ⟨t, drawn, pixels⟩ := Gui.updateBackWindows_stack windows (by simp) current pointer
  have range := pixel.offset_range
  have seen := Gui.stack_eq windows around
  refine ⟨before, i, after, t, rfl, clicked, drawn, pixels _ range.1 range.2, seen, ?_⟩
  intro tidy
  rw [seen]
  refine and_iff_left fun j hj => ?_
  exact (tidy j hj).1.avoids pixel (above j hj) (tidy j hj).2

/-- A queue of two windows. -/
def twoEntries : Queue :=
  ((Queue.initWindow.sysCreateWindow 1 (some 4096)).bind fun r =>
    r.2.sysCreateWindow 1 (some 8192)).elim Queue.initWindow Prod.snd

theorem twoEntries_windows : twoEntries.Windows [0, 1] := by
  have calls : ∃ s t, Queue.initWindow.sysCreateWindow 1 (some 4096) = some (0, s) ∧
      s.sysCreateWindow 1 (some 8192) = some (1, t) ∧ twoEntries = t := ⟨_, _, rfl, rfl, rfl⟩
  obtain ⟨s, t, first, second, rfl⟩ := calls
  obtain ⟨absurd, -⟩ | ⟨-, i, -, hi, -, one, -⟩ := Queue.initWindow_windows.sysCreateWindow first
  · cases absurd
  obtain rfl : i = 0 := by
    apply Fin.ext
    simpa using hi.symm
  obtain ⟨absurd, -⟩ | ⟨-, j, -, hj, -, two, -⟩ := one.sysCreateWindow second
  · cases absurd
  obtain rfl : j = 1 := by
    apply Fin.ext
    exact_mod_cast hj.symm
  exact two

/-- A window over the whole screen, and a small one in front of it with `show` set to `shown`.  The
pointer is at `(x, y)`. -/
def stacked (shown x y : Int) : Gui :=
  { sampleBoot.gui with
    queue := twoEntries
    mouseInfo := ⟨x, y, x, y, 0⟩
    window := fun p a =>
      let w := { sampleBoot.gui.window p a with hasCaption := 0, widgetsNum := 0 }
      if a = 4096 then
        { w with leftTopX := 0, leftTopY := 0, width := screenWidth, height := screenHeight }
      else
        { w with shown := shown, leftTopX := 100, leftTopY := 100, width := 30, height := 45 } }

/-- The small window is shown, and a click beside it finds the large one. -/
theorem clicked_is_seen_iff_beside : ∃ t, (stacked 1 640 512).updateBackWindows = some t ∧
    (stacked 1 640 512).clicked = some (.windowLine 0) ∧
    ((stacked 1 640 512).stack [0, 1] (offset 640 512)).map Prod.fst = some 0 := by
  have found : (stacked 1 640 512).clicked = some (.windowLine 0) := by decide +kernel
  obtain ⟨before, i, after, t, split, clicked, drawn, -, -, seen⟩ :=
    clicked_is_seen_iff (s := stacked 1 640 512) (l := [0, 1]) (c := 1) (x := 640) (y := 512)
      twoEntries_windows rfl ⟨rfl, rfl⟩ (by decide) ⟨0, by simp, by decide +kernel⟩
  obtain rfl : i = 0 := by
    rw [found] at clicked
    cases clicked
    rfl
  obtain ⟨rfl, rfl⟩ : before = [] ∧ after = [1] := by
    cases before with
    | nil => simpa using split.symm
    | cons b before =>
      cases before with
      | nil => cases split
      | cons b' before => simp at split
  refine ⟨t, drawn, found, (seen ?_).mpr ⟨1, rfl, by decide, rfl⟩⟩
  intro j hj
  cases List.mem_singleton.mp hj
  decide +kernel

/-- The small window is hidden.  A click on its place finds it, but the pixel there is from the
large one. -/
theorem hidden_window_clicked : (stacked 0 110 110).clicked = some (.windowLine 1) ∧
    ¬ (stacked 0 110 110).Drawn 1 ∧
    ((stacked 0 110 110).stack [0, 1] (offset 110 110)).map Prod.fst = some 0 := by
  have hidden : ¬ (stacked 0 110 110).Drawn 1 := by
    rintro ⟨o, -, -, shown⟩
    exact absurd shown (show ¬ (0 : Int) = 1 by decide)
  refine ⟨by decide +kernel, hidden, ?_⟩
  have drawn : (stacked 0 110 110).Drawn 0 := ⟨1, rfl, by decide, rfl⟩
  have windows : (stacked 0 110 110).queue.Windows ([] ++ 0 :: [1]) := twoEntries_windows
  refine (Gui.stack_eq windows (by decide +kernel)).mpr ⟨drawn, ?_⟩
  intro j hj w hw
  cases List.mem_singleton.mp hj
  exact absurd (Gui.drawn_of_store hw) hidden

end Xv6Gui
