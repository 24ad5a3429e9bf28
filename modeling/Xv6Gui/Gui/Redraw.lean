import Xv6Gui.Gui.Pointer

/-!
# Partial and full redraw

`updateLastWindow` erases the last window with the background kept in
`screen_temp1` and draws it again.  It leaves what a full redraw leaves as long
as `screen_temp1` holds the background, the other windows on black.

The last window is drawn with an outline one pixel around it.  Over the top of
the frame this outline is in front of `screen_temp2`, which is the last row of
`screen_temp1`; and erasing it there copies the last row of `screen`, pointer
and all, into `screen_temp1`.  Below and to the right of the frame nothing of
this kind happens.

Both updates are first brought into closed form: a picture of the other windows
and a picture of the last one, painted into the buffers.
-/

namespace Xv6Gui.Gui

open Canvas
open Option (bind_eq_bind bind_some)

variable {s t : Gui}

/-! ## Pictures -/

/-- The picture of the window at an address of process `p`. -/
def entryPicture (s : Gui) (p : ProcPtr) (addr : Int) (focus : Bool) : Picture :=
  if addr = 0 then [] else s.windowPicture p (s.window p addr) focus

/-- The pictures of the windows behind the node `p`, up to the last window. -/
def backPicture (s : Gui) : Nat → Node → Option Picture
  | 0, _ => none
  | fuel + 1, p =>
    if s.queue.next p = some s.queue.lastWindow then
      some []
    else do
      let q ← s.queue.next p
      let owner ← (s.queue.entry q).proc
      let rest ← s.backPicture fuel q
      return s.entryPicture owner (s.queue.entry q).window false ++ rest

/-- The windows behind the last one. -/
def others (s : Gui) : Option Picture := s.backPicture Queue.queueFuel .windowQueue

theorem drawEntry_eq (s : Gui) (buf : Int) (p : ProcPtr) (addr : Int) (focus : Bool) :
    s.drawEntry buf p addr focus = s.draw buf (s.entryPicture p addr focus) := by
  rw [drawEntry, entryPicture]
  split <;> rfl

/-- The pictures do not depend on the pixels and the page table. -/
theorem backPicture_pixels (s : Gui) (pixels : Int → RGB) (loaded : Option ProcPtr) :
    ∀ fuel p, ({ s with pixels := pixels, loaded := loaded } : Gui).backPicture fuel p =
      s.backPicture fuel p
  | 0, _ => rfl
  | fuel + 1, p => by
    simp only [backPicture]
    split
    · rfl
    · simp only [backPicture_pixels s pixels loaded fuel]
      rfl

/-- `drawBackWindows` paints the picture of the other windows. -/
theorem drawBackFrom_eq {c : ProcPtr} {fuel : Nat} {p : Node} {picture : Picture}
    (hc : s.proc = some c) (h : s.backPicture fuel p = some picture) :
    ∃ loaded, s.drawBackFrom fuel p =
      some { s.draw screenTemp1 picture with loaded := loaded } := by
  induction fuel generalizing s p picture with
  | zero => cases h
  | succ fuel ih =>
    rw [backPicture] at h
    rw [drawBackFrom]
    split at h
    · rename_i last
      cases h
      rw [if_pos last]
      exact ⟨s.loaded, rfl⟩
    · rename_i inner
      rw [if_neg inner]
      simp only [Runs.bind_some] at h
      obtain ⟨q, hq, owner, ho, rest, hrest, h⟩ := h
      cases h
      have load : s.switchuvm (s.queue.entry q).proc = some { s with loaded := some owner } := by
        rw [switchuvm, hc, ho]
        rfl
      obtain ⟨loaded, e⟩ := ih (s := { s with
          pixels := paint s.pixels screenTemp1
            ((s.entryPicture owner (s.queue.entry q).window false).map Point.toStore),
          loaded := some owner }) hc ((backPicture_pixels s _ _ fuel q).trans hrest)
      refine ⟨loaded, ?_⟩
      simp only [hq, load, bind_eq_bind, bind_some, drawEntry_eq]
      refine e.trans ?_
      simp only [draw, paint, List.map_append, List.foldl_append]

theorem others_isSome {c : ProcPtr} {fuel : Nat} {p : Node} (hc : s.proc = some c)
    (h : s.drawBackFrom fuel p = some t) : ∃ picture, s.backPicture fuel p = some picture := by
  induction fuel generalizing s p with
  | zero => cases h
  | succ fuel ih =>
    rw [drawBackFrom] at h
    rw [backPicture]
    split at h
    · rename_i last
      rw [if_pos last]
      exact ⟨[], rfl⟩
    · rename_i inner
      rw [if_neg inner]
      simp only [Runs.bind_some] at h
      obtain ⟨q, hq, s₁, h₁, owner, ho, h⟩ := h
      have e := switchuvm_eq_some h₁
      subst e
      rw [drawEntry_eq] at h
      obtain ⟨rest, hrest⟩ := ih (s := { s with
          pixels := paint s.pixels screenTemp1 ((({ s with
            loaded := (s.queue.entry q).proc } : Gui).entryPicture owner
              (s.queue.entry q).window false).map Point.toStore),
          loaded := (s.queue.entry q).proc }) hc h
      rw [backPicture_pixels] at hrest
      have owned : (s.queue.entry q).proc = some owner := ho
      simp only [hq, owned, hrest, bind_eq_bind, bind_some]
      exact ⟨_, rfl⟩

/-! ## Closed forms -/

/-- The window of the last entry, in the memory of `o`. -/
def lastOf (s : Gui) (o : ProcPtr) : Window := s.window o s.lastEntry.window

/-- The last window. -/
def lastPicture (s : Gui) (o : ProcPtr) : Picture := s.entryPicture o s.lastEntry.window true

/-- The offsets of the last window where it was last drawn. -/
def outline (s : Gui) (o : ProcPtr) : List Int :=
  outlineOffsets (s.lastOf o).lastLeftTopX (s.lastOf o).lastLeftTopY (s.lastOf o).width
    (s.lastOf o).height

/-- `last_leftTopX = leftTopX; last_leftTopY = leftTopY`. -/
def markDrawn (s : Gui) (o : ProcPtr) : Gui :=
  { s with window := Function.update s.window o (Function.update (s.window o) s.lastEntry.window
      { s.lastOf o with
        lastLeftTopX := (s.lastOf o).leftTopX, lastLeftTopY := (s.lastOf o).leftTopY }) }

/-- The end of an update: new pixels, the window marked as drawn, the frame
shown and the pointer drawn. -/
def finish (s : Gui) (o c : ProcPtr) (pixels : Int → RGB) : Gui :=
  ({ s.markDrawn o with pixels := pixels, loaded := some c }.moveFrame screen screenTemp2).drawMouse

/-- The pixels of a full redraw in front of the copy to `screen`. -/
def fullPixels (m : Int → RGB) (back last : Picture) : Int → RGB :=
  let m := fill m screenTemp1 totalPels black
  let m := paint m screenTemp1 (back.map Point.toStore)
  let m := move m screenTemp2 screenTemp1 totalPels
  paint m screenTemp2 (last.map Point.toStore)

/-- The pixels of a redraw of the last window in front of the copy to
`screen`. -/
def partialPixels (m : Int → RGB) (outline : List Int) (last : Picture) : Int → RGB :=
  paint (copyAt m screenTemp2 screenTemp1 outline) screenTemp2 (last.map Point.toStore)

variable {o c : ProcPtr}

theorem switchuvm_some (hc : s.proc = some c) (o : ProcPtr) :
    s.switchuvm (some o) = some { s with loaded := some o } := by
  rw [switchuvm, hc]
  rfl

theorem switchBack_some (hc : s.proc = some c) :
    s.switchBack = some { s with loaded := some c } := by
  have back : s.switchBack = s.switchuvm (some c) := by
    rw [switchBack]
    split
    · rename_i h
      rw [hc] at h
      cases h
    · rename_i p h
      rw [hc] at h
      cases h
      rfl
  rw [back]
  exact switchuvm_some hc c

theorem drawLastWindow_eq (hc : s.proc = some c) (ho : s.lastEntry.proc = some o) :
    s.drawLastWindow = some { (s.draw screenTemp2 (s.lastPicture o)).markDrawn o with
      loaded := some c } := by
  simp only [drawLastWindow, ho, switchuvm_some hc, bind_eq_bind, bind_some,
    drawEntry_eq]
  simp only [loadWindow, storeWindow, draw, Option.map_some, bind_some]
  exact switchBack_some hc

theorem removeLastWindow_eq (hc : s.proc = some c) (ho : s.lastEntry.proc = some o) :
    s.removeLastWindow = some { s with
      pixels := copyAt s.pixels screenTemp2 screenTemp1 (s.outline o), loaded := some c } := by
  simp only [removeLastWindow, ho, switchuvm_some hc, bind_eq_bind, bind_some]
  simp only [loadWindow, Option.map_some, bind_some]
  exact switchBack_some hc

theorem updateLastWindow_eq (hc : s.proc = some c) (ho : s.lastEntry.proc = some o) :
    s.updateLastWindow =
      some (s.finish o c (partialPixels s.pixels (s.outline o) (s.lastPicture o))) := by
  rw [updateLastWindow, removeLastWindow_eq hc ho]
  simp only [bind_eq_bind, bind_some]
  rw [drawLastWindow_eq (c := c) (o := o) (by exact hc) (by exact ho)]
  rfl

theorem updateBackWindows_eq {back : Picture} (hc : s.proc = some c)
    (ho : s.lastEntry.proc = some o) (hb : s.others = some back) :
    s.updateBackWindows = some (s.finish o c (fullPixels s.pixels back (s.lastPicture o))) := by
  obtain ⟨loaded, e⟩ := drawBackFrom_eq (s := { s with
    pixels := fill s.pixels screenTemp1 totalPels black }) hc
      ((backPicture_pixels s _ s.loaded _ _).trans hb)
  rw [updateBackWindows, drawBackWindows, e]
  simp only [bind_eq_bind, bind_some]
  rw [switchBack_some (c := c) (by exact hc)]
  simp only [bind_some]
  rw [drawLastWindow_eq (c := c) (o := o) (by exact hc) (by exact ho)]
  rfl

/-! ## Pixels -/

/-- The background: the other windows on black. -/
def backdrop (back : Picture) : Int → RGB := paint (fun _ => black) 0 (back.map Point.toStore)

/-- What both updates leave at an offset of `screen_temp2`. -/
def composed (back last : Picture) : Int → RGB :=
  paint (backdrop back) 0 (last.map Point.toStore)

section Pixels

variable {m : Int → RGB} {back last : Picture} {outline : List Int} {off : Int}

theorem fullPixels_temp2 (h₀ : 0 ≤ off) (h₁ : off < totalPels) :
    fullPixels m back last (screenTemp2 + off) = composed back last off := by
  refine paint_origin ?_
  rw [move_inside h₀ h₁]
  exact paint_origin (fill_inside h₀ h₁)

theorem fullPixels_temp1 (hl : ∀ p ∈ last, 0 ≤ p.toStore.1) (h₀ : 0 ≤ off) (h₁ : off < totalPels) :
    fullPixels m back last (screenTemp1 + off) = backdrop back off := by
  refine (paint_other ?_).trans ?_
  · intro w hw e
    obtain ⟨p, hp, rfl⟩ := List.mem_map.mp hw
    have := hl p hp
    simp only [screenTemp1, screenTemp2] at e
    omega
  · rw [move_outside (.inl (by simp only [screenTemp1, screenTemp2]; omega))]
    exact paint_origin (fill_inside h₀ h₁)

/-- With the background in `screen_temp1`, and in `screen_temp2` outside the
outline, erasing restores it everywhere. -/
theorem partialPixels_temp2 (ho : ∀ o ∈ outline, 0 ≤ o)
    (h1 : m (screenTemp1 + off) = backdrop back off)
    (h2 : off ∉ outline → m (screenTemp2 + off) = backdrop back off)
    (h₁ : off < totalPels) :
    partialPixels m outline last (screenTemp2 + off) = composed back last off := by
  refine paint_origin ?_
  rw [copyAt_eq]
  · split
    · exact h1
    · rename_i hn
      exact h2 hn
  · intro o hm e
    have := ho o hm
    simp only [screenTemp1, screenTemp2] at e
    omega

theorem partialPixels_temp1 (ho : ∀ o ∈ outline, 0 ≤ o) (hl : ∀ p ∈ last, 0 ≤ p.toStore.1)
    (h₁ : off < totalPels) :
    partialPixels m outline last (screenTemp1 + off) = m (screenTemp1 + off) := by
  refine (paint_other ?_).trans (copyAt_other ?_)
  · intro w hw e
    obtain ⟨p, hp, rfl⟩ := List.mem_map.mp hw
    have := hl p hp
    simp only [screenTemp1, screenTemp2] at e
    omega
  · intro o hm e
    have := ho o hm
    simp only [screenTemp1, screenTemp2] at e
    omega

/-- Outside the picture of the last window the background shows. -/
theorem composed_outside (hl : ∀ p ∈ last, p.toStore.1 ∈ outline) (hn : off ∉ outline) :
    composed back last off = backdrop back off := by
  refine paint_other ?_
  intro w hw e
  obtain ⟨p, hp, rfl⟩ := List.mem_map.mp hw
  rw [zero_add] at e
  exact hn (e ▸ hl p hp)

end Pixels

variable {pixels : Int → RGB} {off : Int}

/-! ## The end of an update -/

theorem backPicture_congr (hq : t.queue = s.queue)
    (he : ∀ p addr, t.entryPicture p addr false = s.entryPicture p addr false) :
    ∀ fuel p, t.backPicture fuel p = s.backPicture fuel p
  | 0, _ => rfl
  | fuel + 1, p => by
    simp only [backPicture, hq, he, backPicture_congr hq he fuel]

theorem finish_window (s : Gui) (o c : ProcPtr) (pixels : Int → RGB) :
    (s.finish o c pixels).window = (s.markDrawn o).window := rfl

theorem finish_queue (s : Gui) (o c : ProcPtr) (pixels : Int → RGB) :
    (s.finish o c pixels).queue = s.queue := rfl

theorem finish_lastEntry (s : Gui) (o c : ProcPtr) (pixels : Int → RGB) :
    (s.finish o c pixels).lastEntry = s.lastEntry := rfl

theorem finish_pixels (s : Gui) (o c : ProcPtr) (pixels : Int → RGB) :
    (s.finish o c pixels).pixels = paint (move pixels screen screenTemp2 totalPels) screen
      ((pointerPicture s.mouseInfo).map Point.toStore) := rfl

theorem finish_lastOf (s : Gui) (o c : ProcPtr) (pixels : Int → RGB) :
    (s.finish o c pixels).lastOf o = { s.lastOf o with
      lastLeftTopX := (s.lastOf o).leftTopX, lastLeftTopY := (s.lastOf o).leftTopY } := by
  rw [lastOf, finish_window, finish_lastEntry]
  simp only [markDrawn, Function.update_self]

/-- The outline of the last window. -/
def newOutline (s : Gui) (o : ProcPtr) : List Int :=
  outlineOffsets (s.lastOf o).leftTopX (s.lastOf o).leftTopY (s.lastOf o).width (s.lastOf o).height

theorem finish_outline (s : Gui) (o c : ProcPtr) (pixels : Int → RGB) :
    (s.finish o c pixels).outline o = s.newOutline o := by
  rw [outline, finish_lastOf]
  rfl

/-- The windows after an update: at most the position they were last drawn at
is another. -/
theorem finish_window_cases (s : Gui) (o c : ProcPtr) (pixels : Int → RGB) (p : ProcPtr)
    (addr : Int) :
    (s.finish o c pixels).window p addr = s.window p addr ∨
      (s.finish o c pixels).window p addr = { s.window p addr with
        lastLeftTopX := (s.window p addr).leftTopX,
        lastLeftTopY := (s.window p addr).leftTopY } := by
  rw [finish_window]
  simp only [markDrawn]
  by_cases hp : p = o
  · subst hp
    rw [Function.update_self]
    by_cases ha : addr = s.lastEntry.window
    · subst ha
      rw [Function.update_self]
      exact .inr rfl
    · rw [Function.update_of_ne ha]
      exact .inl rfl
  · rw [Function.update_of_ne hp]
    exact .inl rfl

/-- The text of a box depends on the position of the window only. -/
theorem drawText_congr {w w' : Window} (hx : w'.leftTopX = w.leftTopX)
    (hy : w'.leftTopY = w.leftTopY) (font : Font) (textBox : TextBox) :
    ∀ str i posX j, drawText font textBox w' str i posX j = drawText font textBox w str i posX j
  | [], _, _, _ => rfl
  | ch :: str, i, posX, j => by
    simp only [drawText, drawCursorAfter, drawCursor, hx, hy,
      drawText_congr hx hy font textBox str]

/-- The position a window was last drawn at is not part of its picture. -/
theorem windowPicture_last (s : Gui) (p : ProcPtr) (w : Window) (x y : Int) (focus : Bool) :
    s.windowPicture p { w with lastLeftTopX := x, lastLeftTopY := y } focus =
      s.windowPicture p w focus := by
  have widgets : ∀ v, s.drawWidget p { w with lastLeftTopX := x, lastLeftTopY := y } v =
      s.drawWidget p w v := by
    intro v
    cases v with
    | label l | button b | imageView v | iconView addr | other => rfl
    | textBox t =>
      simp only [drawWidget, drawTextBox, drawCursor]
      congr 2
      exact drawText_congr (by rfl) (by rfl) _ _ _ _ _ _
  simp only [windowPicture, widgets]
  rfl

theorem finish_entryPicture (s : Gui) (o c : ProcPtr) (pixels : Int → RGB) (p : ProcPtr)
    (addr : Int) (focus : Bool) :
    (s.finish o c pixels).entryPicture p addr focus = s.entryPicture p addr focus := by
  rw [entryPicture, entryPicture]
  split
  · rfl
  · obtain e | e := finish_window_cases s o c pixels p addr
    · rw [e]
      rfl
    · rw [e]
      exact windowPicture_last s p (s.window p addr) _ _ focus

theorem others_congr (hq : t.queue = s.queue)
    (he : ∀ p addr, t.entryPicture p addr false = s.entryPicture p addr false) :
    t.others = s.others := by
  unfold others
  generalize Queue.queueFuel = fuel
  exact backPicture_congr hq he fuel .windowQueue

theorem finish_others (s : Gui) (o c : ProcPtr) (pixels : Int → RGB) :
    (s.finish o c pixels).others = s.others :=
  others_congr (finish_queue s o c pixels) fun p addr =>
    finish_entryPicture s o c pixels p addr false

/-- The pointer is drawn on `screen` only. -/
theorem paint_pointer_above {m : Int → RGB} {info : MouseInfo} {a : Int}
    (h : PointerPosition info.xPosition info.yPosition) (ha : totalPels ≤ a) :
    paint m screen ((pointerPicture info).map Point.toStore) a = m a := by
  refine paint_other ?_
  intro w hw e
  obtain ⟨p, hp, rfl⟩ := List.mem_map.mp hw
  have range := (pointerPicture_bounds h hp).1.offset_range
  simp only [Point.toStore, offset, screen] at *
  omega

theorem finish_above {a : Int}
    (h : PointerPosition s.mouseInfo.xPosition s.mouseInfo.yPosition) (ha : totalPels ≤ a) :
    (s.finish o c pixels).pixels a = pixels a := by
  rw [finish_pixels, paint_pointer_above h ha]
  refine move_outside (.inr ?_)
  simp only [screen]
  omega

/-- Two updates that agree on `screen_temp2` show the same. -/
theorem finish_agree {pixels' : Int → RGB} (h₀ : 0 ≤ off) (h₁ : off < totalPels)
    (h : pixels (screenTemp2 + off) = pixels' (screenTemp2 + off)) :
    (s.finish o c pixels).pixels (screen + off) = (s.finish o c pixels').pixels (screen + off) := by
  rw [finish_pixels, finish_pixels]
  refine paint_agree ?_
  rw [move_inside h₀ h₁, move_inside h₀ h₁]
  exact h

theorem setMousePosition_above {a x y : Int}
    (h : PointerPosition s.mouseInfo.lastDrawX s.mouseInfo.lastDrawY) (ha : totalPels ≤ a) :
    (s.setMousePosition x y).pixels a = s.pixels a := by
  refine (paint_pointer_above ?_ ha).trans (copyAt_other ?_)
  · simp only [removeMouse, PointerPosition, screenWidth, screenHeight]
    split <;> split <;> split <;> split <;> omega
  · intro o ho e
    have range := pointerOffsets_range (by exact h) ho
    simp only [screen] at e
    omega

/-! ## The cached background -/

/-- Every pixel drawn for the last window lies in its rectangle enlarged by one
pixel. -/
def DrawsInside (s : Gui) (o : ProcPtr) : Prop :=
  ∀ p ∈ s.lastPicture o,
    (s.lastOf o).leftTopX - 1 ≤ p.x ∧ p.x ≤ (s.lastOf o).leftTopX + (s.lastOf o).width ∧
      (s.lastOf o).leftTopY - 1 ≤ p.y ∧ p.y ≤ (s.lastOf o).leftTopY + (s.lastOf o).height
  deriving Decidable

/-- The enlarged rectangle does not begin in front of the buffer. -/
def Fits (s : Gui) (o : ProcPtr) : Prop :=
  0 ≤ offset ((s.lastOf o).leftTopX - 1) ((s.lastOf o).leftTopY - 1)

theorem Fits.newOutline (h : s.Fits o) (ho : off ∈ s.newOutline o) : 0 ≤ off := by
  simp only [Gui.newOutline, outlineOffsets, List.mem_flatMap, List.mem_map,
    Int.mem_range_iff] at ho
  obtain ⟨j, hj, i, hi, rfl⟩ := ho
  simp only [Fits, offset, screenWidth] at *
  omega

theorem DrawsInside.newOutline (h : s.DrawsInside o) {p : Point} (hp : p ∈ s.lastPicture o) :
    p.toStore.1 ∈ s.newOutline o := by
  obtain ⟨h₁, h₂, h₃, h₄⟩ := h p hp
  simp only [Gui.newOutline, outlineOffsets, List.mem_flatMap, List.mem_map, Int.mem_range_iff]
  refine ⟨p.y - (s.lastOf o).leftTopY, by omega, p.x - (s.lastOf o).leftTopX, by omega, ?_⟩
  simp only [Point.toStore, add_sub_cancel]

/-- `screen_temp1` holds the picture `back` of the other windows, and so does
`screen_temp2` outside the last window. -/
structure Cached (s : Gui) (o : ProcPtr) (back : Picture) : Prop where
  owner : s.lastEntry.proc = some o
  current : ∃ c, s.proc = some c
  others : s.others = some back
  position : PointerPosition s.mouseInfo.xPosition s.mouseInfo.yPosition
  drawn : PointerPosition s.mouseInfo.lastDrawX s.mouseInfo.lastDrawY
  fits : ∀ off ∈ s.outline o, 0 ≤ off
  temp1 : ∀ off, 0 ≤ off → off < totalPels → s.pixels (screenTemp1 + off) = backdrop back off
  temp2 : ∀ off, 0 ≤ off → off < totalPels → off ∉ s.outline o →
    s.pixels (screenTemp2 + off) = backdrop back off

variable {back : Picture}

/-- An update that composes the picture and keeps the background. -/
theorem finish_cached (howner : s.lastEntry.proc = some o)
    (hc : s.proc = some c) (hb : s.others = some back)
    (hp : PointerPosition s.mouseInfo.xPosition s.mouseInfo.yPosition) (hin : s.DrawsInside o)
    (hfit : s.Fits o)
    (h1 : ∀ off, 0 ≤ off → off < totalPels → pixels (screenTemp1 + off) = backdrop back off)
    (h2 : ∀ off, 0 ≤ off → off < totalPels →
      pixels (screenTemp2 + off) = composed back (s.lastPicture o) off) :
    (s.finish o c pixels).Cached o back where
  owner := howner
  current := ⟨c, hc⟩
  others := (finish_others s o c pixels).trans hb
  position := hp
  drawn := hp
  fits off ho := hfit.newOutline (finish_outline s o c pixels ▸ ho)
  temp1 off h₀ h₁ := by
    rw [finish_above hp (by simp only [screenTemp1]; omega)]
    exact h1 off h₀ h₁
  temp2 off h₀ h₁ hn := by
    rw [finish_above hp (by simp only [screenTemp2, totalPels, screenWidth, screenHeight]; omega),
      h2 off h₀ h₁]
    rw [finish_outline] at hn
    exact composed_outside (fun p hp => hin.newOutline hp) hn

theorem updateBackWindows_cached (howner : s.lastEntry.proc = some o) (hc : s.proc = some c)
    (hb : s.others = some back)
    (hp : PointerPosition s.mouseInfo.xPosition s.mouseInfo.yPosition) (hin : s.DrawsInside o)
    (hfit : s.Fits o) :
    ∃ t, s.updateBackWindows = some t ∧ t.Cached o back := by
  refine ⟨_, updateBackWindows_eq hc howner hb, ?_⟩
  refine finish_cached howner hc hb hp hin hfit ?_ ?_
  · intro off h₀ h₁
    exact fullPixels_temp1 (fun p hp => hfit.newOutline (hin.newOutline hp)) h₀ h₁
  · intro off h₀ h₁
    exact fullPixels_temp2 h₀ h₁

/-- Redrawing the last window over the cached background leaves what a full
redraw leaves. -/
theorem Cached.partialPixels_eq (h : s.Cached o back) (h₀ : 0 ≤ off)
    (h₁ : off < totalPels) :
    partialPixels s.pixels (s.outline o) (s.lastPicture o) (screenTemp2 + off) =
      composed back (s.lastPicture o) off :=
  partialPixels_temp2 h.fits (h.temp1 off h₀ h₁) (h.temp2 off h₀ h₁) h₁

theorem Cached.updateLastWindow (h : s.Cached o back) (hin : s.DrawsInside o) (hfit : s.Fits o)
    (ht : s.updateLastWindow = some t) : t.Cached o back := by
  obtain ⟨c, hc⟩ := h.current
  rw [updateLastWindow_eq hc h.owner] at ht
  rw [← Option.some.inj ht]
  refine finish_cached h.owner hc h.others h.position hin hfit ?_ ?_
  · intro off h₀ h₁
    rw [partialPixels_temp1 h.fits (fun p hp => hfit.newOutline (hin.newOutline hp)) h₁]
    exact h.temp1 off h₀ h₁
  · intro off h₀ h₁
    exact h.partialPixels_eq h₀ h₁

/-- What happens to the last window between two updates: anything but its
size, its show flag and the position it was last drawn at.  The other windows
look as before. -/
structure Changed (o : ProcPtr) (s t : Gui) : Prop where
  queue : t.queue = s.queue
  current : ∃ c, t.proc = some c
  pixels : t.pixels = s.pixels
  mouseInfo : t.mouseInfo = s.mouseInfo
  others : t.others = s.others
  shown : (t.lastOf o).shown = (s.lastOf o).shown
  width : (t.lastOf o).width = (s.lastOf o).width
  height : (t.lastOf o).height = (s.lastOf o).height
  lastLeftTopX : (t.lastOf o).lastLeftTopX = (s.lastOf o).lastLeftTopX
  lastLeftTopY : (t.lastOf o).lastLeftTopY = (s.lastOf o).lastLeftTopY

theorem Cached.changed (h : s.Cached o back) (k : Changed o s t) : t.Cached o back := by
  have outline : t.outline o = s.outline o := by
    rw [Gui.outline, Gui.outline, k.width, k.height, k.lastLeftTopX, k.lastLeftTopY]
  exact {
    owner := by rw [lastEntry, k.queue]; exact h.owner
    current := k.current
    others := k.others.trans h.others
    position := k.mouseInfo ▸ h.position
    drawn := k.mouseInfo ▸ h.drawn
    fits := outline ▸ h.fits
    temp1 := k.pixels ▸ h.temp1
    temp2 := by
      rw [outline, k.pixels]
      exact h.temp2 }

theorem setMousePosition_drawn (s : Gui) (x y : Int) :
    PointerPosition (s.setMousePosition x y).mouseInfo.xPosition
        (s.setMousePosition x y).mouseInfo.yPosition ∧
      PointerPosition (s.setMousePosition x y).mouseInfo.lastDrawX
        (s.setMousePosition x y).mouseInfo.lastDrawY := by
  simp only [setMousePosition, updateMouse, removeMouse, drawMouse, draw, PointerPosition,
    screenWidth, screenHeight]
  split <;> split <;> split <;> split <;> omega

/-- The pointer and the pixels of `screen` do not matter for the background. -/
theorem Cached.pointer {info : MouseInfo} (h : s.Cached o back)
    (position : PointerPosition info.xPosition info.yPosition)
    (drawn : PointerPosition info.lastDrawX info.lastDrawY)
    (above : ∀ a, totalPels ≤ a → pixels a = s.pixels a) :
    ({ s with pixels := pixels, mouseInfo := info } : Gui).Cached o back where
  owner := h.owner
  current := h.current
  others := (others_congr (by rfl) fun _ _ => by rfl).trans h.others
  position := position
  drawn := drawn
  fits := h.fits
  temp1 off h₀ h₁ := by
    refine (above _ ?_).trans (h.temp1 off h₀ h₁)
    simp only [screenTemp1]
    omega
  temp2 off h₀ h₁ hn := by
    refine (above _ ?_).trans (h.temp2 off h₀ h₁ hn)
    simp only [screenTemp2, totalPels, screenWidth, screenHeight]
    omega

theorem Cached.setMousePosition (h : s.Cached o back) (x y : Int) :
    (s.setMousePosition x y).Cached o back := by
  obtain ⟨position, drawn⟩ := setMousePosition_drawn s x y
  exact h.pointer position drawn fun a ha => setMousePosition_above h.drawn ha

/-! ## Moving the last window -/

/-- `moveWindow` on the last window, with the page table of its process
loaded. -/
def moveLastWindow (s : Gui) (fx fy tx ty : Int) (isdraw : Bool) : Option Gui := do
  let s ← s.switchuvm s.lastEntry.proc
  s.moveWindow s.lastEntry.window fx fy tx ty isdraw

/-- A move that draws is a move followed by `updateLastWindow`. -/
theorem moveLastWindow_true (s : Gui) (fx fy tx ty : Int) :
    s.moveLastWindow fx fy tx ty true =
      (s.moveLastWindow fx fy tx ty false).bind Gui.updateLastWindow := by
  simp only [moveLastWindow, moveWindow, bind_eq_bind, Option.bind_assoc]
  rfl

theorem moveLastWindow_changed {fx fy tx ty : Int} (ho : s.lastEntry.proc = some o)
    (ht : s.moveLastWindow fx fy tx ty false = some t) (hb : t.others = s.others) :
    Changed o s t := by
  simp only [moveLastWindow, moveWindow, ho, Runs.bind_some] at ht
  obtain ⟨s₁, h₁, w, hw, s₂, h₂, ht⟩ := ht
  cases ht
  obtain ⟨c, hc⟩ : ∃ c, s.proc = some c := by
    simp only [switchuvm, Runs.bind_some] at h₁
    obtain ⟨c, hc, _⟩ := h₁
    exact ⟨c, hc⟩
  rw [switchuvm_some hc] at h₁
  cases h₁
  cases hw
  cases h₂
  exact {
    queue := rfl
    current := ⟨c, hc⟩
    pixels := rfl
    mouseInfo := rfl
    others := hb
    shown := by simp only [lastOf, lastEntry, Function.update_self]
    width := by simp only [lastOf, lastEntry, Function.update_self]
    height := by simp only [lastOf, lastEntry, Function.update_self]
    lastLeftTopX := by simp only [lastOf, lastEntry, Function.update_self]
    lastLeftTopY := by simp only [lastOf, lastEntry, Function.update_self] }

theorem Cached.moveLastWindow {u : Gui} {fx fy tx ty : Int} {isdraw : Bool} (h : s.Cached o back)
    (hu : s.moveLastWindow fx fy tx ty false = some u) (hb : u.others = s.others)
    (hin : isdraw = true → u.DrawsInside o) (hfit : isdraw = true → u.Fits o)
    (ht : s.moveLastWindow fx fy tx ty isdraw = some t) : t.Cached o back := by
  have moved : u.Cached o back := h.changed (moveLastWindow_changed h.owner hu hb)
  cases isdraw with
  | false =>
    rw [hu] at ht
    rw [← Option.some.inj ht]
    exact moved
  | true =>
    rw [moveLastWindow_true, hu] at ht
    exact moved.updateLastWindow (hin rfl) (hfit rfl) ht

/-! ## Runs -/

/-- What changes the screen. -/
inductive RedrawEvent where
  | updateLastWindow
  /-- The pointer is moved, with some value of `mouse_info.event`. -/
  | updateMouse (x y event : Int)
  | moveWindow (fx fy tx ty : Int) (isdraw : Bool)
  /-- The program changes its window. -/
  | change

/-- The state in which an event draws the last window, if it does. -/
def drawState (s : Gui) : RedrawEvent → Option Gui
  | .updateLastWindow => some s
  | .moveWindow fx fy tx ty true => s.moveLastWindow fx fy tx ty false
  | _ => none

/-- One event.  The last window is drawn inside its enlarged rectangle, and
moving it does not change how the other windows look. -/
inductive RedrawStep (o : ProcPtr) : Gui → RedrawEvent → Gui → Prop where
  | updateLastWindow {s t : Gui} :
      s.DrawsInside o → s.updateLastWindow = some t → RedrawStep o s .updateLastWindow t
  | updateMouse {s : Gui} (x y event : Int) :
      RedrawStep o s (.updateMouse x y event)
        ({ s with mouseInfo := { s.mouseInfo with event := event } }.setMousePosition x y)
  | moveWindow {s u t : Gui} {fx fy tx ty : Int} {isdraw : Bool} :
      s.moveLastWindow fx fy tx ty false = some u → u.others = s.others →
        (isdraw = true → u.DrawsInside o) →
          s.moveLastWindow fx fy tx ty isdraw = some t →
            RedrawStep o s (.moveWindow fx fy tx ty isdraw) t
  | change {s t : Gui} : Changed o s t → RedrawStep o s .change t

/-- Where an event draws the last window, the enlarged rectangle does not begin
in front of the buffer. -/
def FitsAt (o : ProcPtr) (s : Gui) (e : RedrawEvent) : Prop :=
  ∀ u, s.drawState e = some u → u.Fits o

theorem RedrawStep.cached {e : RedrawEvent} (h : s.Cached o back)
    (step : Runs.Guarded (RedrawStep o) (FitsAt o) s e t) : t.Cached o back := by
  obtain ⟨fits, step⟩ := step
  cases step with
  | updateLastWindow hin ht => exact h.updateLastWindow hin (fits s rfl) ht
  | updateMouse x y event =>
    refine Cached.setMousePosition ?_ x y
    exact h.pointer h.position h.drawn fun _ _ => rfl
  | moveWindow hu hb hin ht =>
    refine h.moveLastWindow hu hb hin ?_ ht
    rintro rfl
    exact fits _ hu
  | change k => exact h.changed k

/-- A full redraw that returns has a current process and other windows it can
draw. -/
theorem updateBackWindows_defined (h : s.updateBackWindows = some t) :
    (∃ c, s.proc = some c) ∧ ∃ back, s.others = some back := by
  simp only [updateBackWindows, drawBackWindows, Runs.bind_some] at h
  obtain ⟨s₁, ⟨s₀, h₀, h₁⟩, s₂, h₂, _⟩ := h
  have current : ∃ c, s.proc = some c := by
    simp only [drawLastWindow, switchuvm, Runs.bind_some] at h₂
    obtain ⟨_, ⟨c, hc, _⟩, _⟩ := h₂
    have kept := (drawBackFrom_unmoved h₀).trans (switchBack_unmoved h₁)
    exact ⟨c, kept.proc.symm.trans hc⟩
  obtain ⟨c, hc⟩ := current
  obtain ⟨back, hb⟩ := others_isSome (by exact hc) h₀
  exact ⟨⟨c, hc⟩, back, (backPicture_pixels s _ s.loaded _ _).symm.trans hb⟩

/-- Over the cached background `updateLastWindow` leaves `screen_temp2` and
`screen` as `updateBackWindows` would. -/
theorem Cached.updates_agree (h : s.Cached o back) :
    ∃ t u, s.updateLastWindow = some t ∧ s.updateBackWindows = some u ∧
      ∀ x y, OnScreen x y →
        t.pixels (screenTemp2 + offset x y) = u.pixels (screenTemp2 + offset x y) ∧
          t.pixels (screen + offset x y) = u.pixels (screen + offset x y) := by
  obtain ⟨c, hc⟩ := h.current
  refine ⟨_, _, updateLastWindow_eq hc h.owner, updateBackWindows_eq hc h.owner h.others, ?_⟩
  intro x y hxy
  obtain ⟨h₀, h₁⟩ := hxy.offset_range
  have same : partialPixels s.pixels (s.outline o) (s.lastPicture o) (screenTemp2 + offset x y) =
      fullPixels s.pixels back (s.lastPicture o) (screenTemp2 + offset x y) := by
    rw [h.partialPixels_eq h₀ h₁, fullPixels_temp2 h₀ h₁]
  constructor
  · have above : totalPels ≤ screenTemp2 + offset x y := by
      simp only [screenTemp2, totalPels, screenWidth, screenHeight]
      omega
    rw [finish_above h.position above, finish_above h.position above]
    exact same
  · exact finish_agree h₀ h₁ same

/-- After a full redraw, in every run whose draws keep the enlarged rectangle
behind the beginning of the buffer, one more `updateLastWindow` leaves
`screen_temp2` and `screen` as `updateBackWindows` would. -/
theorem updateLastWindow_eq_updateBackWindows {s₀ s₁ s : Gui} {es : List RedrawEvent}
    (hp : PointerPosition s₀.mouseInfo.xPosition s₀.mouseInfo.yPosition)
    (ho : s₀.lastEntry.proc = some o) (hin₀ : s₀.DrawsInside o) (hfit₀ : s₀.Fits o)
    (first : s₀.updateBackWindows = some s₁)
    (run : Runs.Steps (Runs.Guarded (RedrawStep o) (FitsAt o)) s₁ es s) :
    ∃ t u, s.updateLastWindow = some t ∧ s.updateBackWindows = some u ∧
      ∀ x y, OnScreen x y →
        t.pixels (screenTemp2 + offset x y) = u.pixels (screenTemp2 + offset x y) ∧
          t.pixels (screen + offset x y) = u.pixels (screen + offset x y) := by
  obtain ⟨⟨c, hc⟩, back, hb⟩ := updateBackWindows_defined first
  obtain ⟨t, ht, start⟩ := updateBackWindows_cached ho hc hb hp hin₀ hfit₀
  rw [first] at ht
  rw [← Option.some.inj ht] at start
  have cached : s.Cached o back := run.invariant start RedrawStep.cached
  exact cached.updates_agree

/-- A shown window without caption and widgets, and the pointer near the bottom
of the screen. -/
def edgeGui (y : Int) : Gui :=
  { sampleGui with
    window := fun _ _ =>
      { shown := 1, hasCaption := 0, hasMenu := false, hasFooter := false
        lastLeftTopX := 100, lastLeftTopY := y, leftTopX := 100, leftTopY := y
        width := 20, height := 20, caption := fun _ => 0, widgetsNum := 0
        widgets := fun _ => .other, onFileSystemChangedHandler := ⟨0, false⟩ }
    mouseInfo := ⟨105, 1020, 105, 1020, 0⟩ }

/-- The window is drawn at height `y`, moved down and drawn there, and moved
again. -/
def edgeDrawn (y : Int) : Gui := (edgeGui y).updateBackWindows.getD (edgeGui y)

@[inherit_doc edgeDrawn]
def edgeMoved (y : Int) : Gui :=
  ((edgeDrawn y).moveLastWindow 0 y 0 1003 false).getD (edgeDrawn y)

@[inherit_doc edgeDrawn]
def edgeRedrawn (y : Int) : Gui := (edgeMoved y).updateLastWindow.getD (edgeMoved y)

@[inherit_doc edgeDrawn]
def edgeRaised (y : Int) : Gui :=
  ((edgeRedrawn y).moveLastWindow 0 503 0 0 false).getD (edgeRedrawn y)

/-- With a single window there are no others. -/
theorem others_nil (h : s.queue.next .windowQueue = some s.queue.lastWindow) :
    s.others = some [] := by
  rw [others, Queue.queueFuel, backPicture, if_pos h]

theorem FitsAt.of_none {e : RedrawEvent} (h : s.drawState e = none) : FitsAt o s e := by
  intro u hu
  rw [h] at hu
  cases hu

/-- The queue with one window of process `1`, which runs. -/
structure SingleWindow (s : Gui) : Prop where
  queue : s.queue = sampleGui.queue
  proc : s.proc = sampleGui.proc

theorem SingleWindow.owner (h : s.SingleWindow) : s.lastEntry.proc = some 1 := by
  rw [lastEntry, h.queue]
  rfl

theorem SingleWindow.others (h : s.SingleWindow) : s.others = some [] :=
  others_nil (by rw [h.queue]; rfl)

theorem SingleWindow.current (h : s.SingleWindow) : s.proc = some 1 := h.proc

theorem SingleWindow.updateBackWindows (h : s.SingleWindow) :
    s.updateBackWindows = some (s.updateBackWindows.getD s) ∧
      (s.updateBackWindows.getD s).SingleWindow := by
  rw [updateBackWindows_eq h.current h.owner h.others]
  exact ⟨rfl, h.queue, h.proc⟩

theorem SingleWindow.updateLastWindow (h : s.SingleWindow) :
    s.updateLastWindow = some (s.updateLastWindow.getD s) ∧
      (s.updateLastWindow.getD s).SingleWindow := by
  rw [updateLastWindow_eq h.current h.owner]
  exact ⟨rfl, h.queue, h.proc⟩

theorem SingleWindow.moveLastWindow (h : s.SingleWindow) (fx fy tx ty : Int) :
    s.moveLastWindow fx fy tx ty false = some ((s.moveLastWindow fx fy tx ty false).getD s) ∧
      ((s.moveLastWindow fx fy tx ty false).getD s).SingleWindow := by
  rw [Gui.moveLastWindow, h.owner, switchuvm_some h.current]
  exact ⟨rfl, h.queue, h.proc⟩

theorem SingleWindow.step (h : s.SingleWindow) (fx fy tx ty : Int) :
    RedrawStep 1 s (.moveWindow fx fy tx ty false)
      ((s.moveLastWindow fx fy tx ty false).getD s) := by
  obtain ⟨moved, single⟩ := h.moveLastWindow fx fy tx ty
  exact .moveWindow moved (single.others.trans h.others.symm) (fun e => by cases e) moved

theorem edgeGui_single (y : Int) : (edgeGui y).SingleWindow := ⟨rfl, rfl⟩

theorem edgeDrawn_single (y : Int) : (edgeDrawn y).SingleWindow :=
  (edgeGui_single y).updateBackWindows.2

theorem edgeMoved_single (y : Int) : (edgeMoved y).SingleWindow :=
  ((edgeDrawn_single y).moveLastWindow 0 y 0 1003).2

theorem edgeRedrawn_single (y : Int) : (edgeRedrawn y).SingleWindow :=
  (edgeMoved_single y).updateLastWindow.2

theorem edge_down (y : Int) :
    RedrawStep 1 (edgeDrawn y) (.moveWindow 0 y 0 1003 false) (edgeMoved y) :=
  (edgeDrawn_single y).step 0 y 0 1003

theorem edge_draw (y : Int) (h : (edgeMoved y).DrawsInside 1) :
    RedrawStep 1 (edgeMoved y) .updateLastWindow (edgeRedrawn y) :=
  .updateLastWindow h (edgeMoved_single y).updateLastWindow.1

theorem edge_up (y : Int) :
    RedrawStep 1 (edgeRedrawn y) (.moveWindow 0 503 0 0 false) (edgeRaised y) :=
  (edgeRedrawn_single y).step 0 503 0 0

/-- A rectangle enlarged by one pixel lies on the screen. -/
def EnlargedOnScreen (x y width height : Int) : Prop :=
  OnScreen (x - 1) (y - 1) ∧ OnScreen (x + width) (y + height)
  deriving Decidable

/-- A window drawn at the top edge, moved down over the pointer, drawn there and
moved up again: its last redraw leaves a part of the pointer behind. -/
theorem updateLastWindow_eq_updateBackWindows_topEdge :
    ∃ (s₀ s₁ s : Gui) (es : List RedrawEvent),
      PointerPosition s₀.mouseInfo.xPosition s₀.mouseInfo.yPosition ∧
      s₀.lastEntry.proc = some 1 ∧ s₀.DrawsInside 1 ∧ s₀.updateBackWindows = some s₁ ∧
      Runs.Steps (RedrawStep 1) s₁ es s ∧ s.DrawsInside 1 ∧
      EnlargedOnScreen (s.lastOf 1).lastLeftTopX (s.lastOf 1).lastLeftTopY (s.lastOf 1).width
        (s.lastOf 1).height ∧
      EnlargedOnScreen (s.lastOf 1).leftTopX (s.lastOf 1).leftTopY (s.lastOf 1).width
        (s.lastOf 1).height ∧
      s.updateLastWindow.map (fun t => t.pixels (screenTemp2 + offset 105 1023)) = some white ∧
      s.updateBackWindows.map (fun t => t.pixels (screenTemp2 + offset 105 1023)) = some black := by
  have down := Runs.Steps.single (edge_down 0)
  have run := (down.snoc (edge_draw 0 (by decide +kernel))).snoc (edge_up 0)
  refine ⟨edgeGui 0, edgeDrawn 0, edgeRaised 0, _, ?_, rfl, ?_, ?_, run, ?_, ?_, ?_, ?_, ?_⟩
  · decide
  · decide +kernel
  · exact (edgeGui_single 0).updateBackWindows.1
  all_goals decide +kernel

theorem updateLastWindow_eq_updateBackWindows_below :
    ∃ t u, (edgeRaised 1).updateLastWindow = some t ∧ (edgeRaised 1).updateBackWindows = some u ∧
      ∀ x y, OnScreen x y →
        t.pixels (screenTemp2 + offset x y) = u.pixels (screenTemp2 + offset x y) ∧
          t.pixels (screen + offset x y) = u.pixels (screen + offset x y) := by
  have first : (edgeGui 1).updateBackWindows = some (edgeDrawn 1) :=
    (edgeGui_single 1).updateBackWindows.1
  have fits : (edgeMoved 1).Fits 1 := by
    show 0 ≤ offset _ _
    decide +kernel
  have down : Runs.Guarded (RedrawStep 1) (FitsAt 1) _ _ _ :=
    ⟨FitsAt.of_none rfl, edge_down 1⟩
  have fitsAt : FitsAt 1 (edgeMoved 1) .updateLastWindow := by
    intro u hu
    rw [← Option.some.inj hu]
    exact fits
  have draw : Runs.Guarded (RedrawStep 1) (FitsAt 1) _ _ _ :=
    ⟨fitsAt, edge_draw 1 (by decide +kernel)⟩
  have up : Runs.Guarded (RedrawStep 1) (FitsAt 1) _ _ _ :=
    ⟨FitsAt.of_none rfl, edge_up 1⟩
  have run := ((Runs.Steps.single down).snoc draw).snoc up
  refine updateLastWindow_eq_updateBackWindows (o := 1) ?_ rfl ?_ ?_ first run
  · decide
  · decide +kernel
  · show 0 ≤ offset _ _
    decide

end Xv6Gui.Gui
