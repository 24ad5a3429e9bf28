import Xv6Gui.Gui.Bounds

/-!
# The layout of a text box

`drawTextBox` draws a frame and then the text, character by character.  The *layout* of a text
is the list of its characters with the line and the column of each, and the place of the caret
behind it.

A line is broken in front of a character that starts more than `width - 9`, so the characters
stay inside of the frame from left to right.  Two things are not looked at: the caret is drawn
behind the last character of a line, up to eleven pixels on, and nothing ends the text at the
bottom of the frame.  A text box therefore holds its text if and only if the *lines* of the text,
counted by the widths of the characters alone, leave room for their ink and for the caret.
-/

namespace Xv6Gui

variable {s : Spot}

/-- A character of a text with the place where it is drawn, and the place of the caret behind
it. -/
structure Spot where
  ch : UInt8
  line : Int
  column : Int
  nextLine : Int
  nextColumn : Int

/-- The place of a character when the text has come to the column `posX` of the line `j`. -/
def spot (character : Font) (width : Int) (ch : UInt8) (posX j : Int) : Spot :=
  let wrap := posX > width - 9
  let posX := if wrap then 9 else posX
  let j := if wrap then j + 1 else j
  if ch = 10 then ⟨ch, j, posX, j + 1, 9⟩ else ⟨ch, j, posX, j, posX + glyphAdvance character ch⟩

/-- The layout of a text from the column `posX` of the line `j` on. -/
def layout (character : Font) (width : Int) : List UInt8 → Int → Int → List Spot
  | [], _, _ => []
  | ch :: str, posX, j =>
    let s := spot character width ch posX j
    s :: layout character width str s.nextColumn s.nextLine

variable {character : Font} {width posX j : Int} {ch : UInt8} {str : List UInt8}

/-! ## Places -/

theorem spot_ch : (spot character width ch posX j).ch = ch := by
  rw [spot]
  split <;> rfl

/-- A character is behind the place where the text has come to, and the next one behind it. -/
theorem spot_behind (character : Font) (width posX j : Int) (text : Displayable ch)
    (h : s = spot character width ch posX j) :
    (j < s.line ∨ (s.line = j ∧ posX ≤ s.column)) ∧
      (s.line < s.nextLine ∨ (s.nextLine = s.line ∧ s.column < s.nextColumn)) := by
  have wrap : j < (if posX > width - 9 then j + 1 else j) ∨
      ((if posX > width - 9 then j + 1 else j) = j ∧
        posX ≤ (if posX > width - 9 then 9 else posX)) := by
    split <;> omega
  subst h
  rw [spot]
  split
  · exact ⟨wrap, .inl (by simp only; omega)⟩
  · rename_i glyph
    obtain ⟨low, high⟩ := text.resolve_left glyph
    have := (glyphAdvance_bounds character low high).1
    exact ⟨wrap, .inr ⟨rfl, by simp only; omega⟩⟩

/-- A character is behind the left margin and starts in front of the right one. -/
theorem spot_columns (character : Font) (j : Int) (text : Displayable ch) (wide : 18 ≤ width)
    (left : 9 ≤ posX) (h : s = spot character width ch posX j) :
    9 ≤ s.column ∧ s.column ≤ width - 9 ∧ 9 ≤ s.nextColumn := by
  have wrap : 9 ≤ (if posX > width - 9 then 9 else posX) ∧
      (if posX > width - 9 then 9 else posX) ≤ width - 9 := by
    split <;> omega
  subst h
  rw [spot]
  split
  · exact ⟨wrap.1, wrap.2, Int.le_refl 9⟩
  · rename_i glyph
    obtain ⟨low, high⟩ := text.resolve_left glyph
    have := (glyphAdvance_bounds character low high).1
    exact ⟨wrap.1, wrap.2, by simp only; omega⟩

/-- Every character is behind the place where the layout starts. -/
theorem layout_behind (text : ∀ ch ∈ str, Displayable ch)
    (h : s ∈ layout character width str posX j) :
    j < s.line ∨ (s.line = j ∧ posX ≤ s.column) := by
  induction str generalizing posX j with
  | nil => cases h
  | cons ch str ih =>
    obtain ⟨here, next⟩ := spot_behind character width posX j (text ch (.head _)) rfl
    obtain rfl | h := List.mem_cons.mp h
    · exact here
    · have := ih (fun c hc => text c (.tail _ hc)) h
      omega

/-- Along a line the columns increase. -/
theorem layout_increases (text : ∀ ch ∈ str, Displayable ch) :
    (layout character width str posX j).Pairwise fun a b =>
      a.line = b.line → a.column < b.column := by
  induction str generalizing posX j with
  | nil => exact .nil
  | cons ch str ih =>
    have rest := fun c (hc : c ∈ str) => text c (.tail _ hc)
    have next := (spot_behind character width posX j (text ch (.head _)) rfl).2
    refine .cons (fun s hs same => ?_) (ih rest)
    have := layout_behind rest hs
    omega

theorem layout_columns (text : ∀ ch ∈ str, Displayable ch) (wide : 18 ≤ width) (left : 9 ≤ posX)
    (h : s ∈ layout character width str posX j) :
    j ≤ s.line ∧ 9 ≤ s.column ∧ s.column ≤ width - 9 ∧ j ≤ s.nextLine ∧ 9 ≤ s.nextColumn := by
  induction str generalizing posX j with
  | nil => cases h
  | cons ch str ih =>
    have lines := spot_behind character width posX j (text ch (.head _)) rfl
    have columns := spot_columns character j (text ch (.head _)) wide left rfl
    obtain rfl | h := List.mem_cons.mp h
    · omega
    · have := ih (fun c hc => text c (.tail _ hc)) columns.2.2 h
      omega

/-! ## Lines -/

/-- The pixels that some characters take. -/
def textWidth (character : Font) (str : List UInt8) : Int :=
  (str.map (glyphAdvance character)).sum

/-- The lines of a text, with `room` pixels left on the first one.  A line ends with a newline, or
with the first character that takes more than the room. -/
def linesFrom (character : Font) (width : Int) : Int → List UInt8 → List (List UInt8)
  | _, [] => []
  | room, ch :: str =>
    if ch = 10 ∨ room < glyphAdvance character ch then
      [ch] :: linesFrom character width (width - 18) str
    else
      match linesFrom character width (room - glyphAdvance character ch) str with
      | [] => [[ch]]
      | line :: rest => (ch :: line) :: rest

/-- The characters of some lines, with the number of the line. -/
def numbered (j : Int) : List (List UInt8) → List (UInt8 × Int)
  | [] => []
  | line :: rest => line.map (·, j) ++ numbered (j + 1) rest

theorem mem_numbered {lines : List (List UInt8)} {n : Int} : (ch, n) ∈ numbered j lines ↔
    ∃ (i : Nat) (line : List UInt8), lines[i]? = some line ∧ ch ∈ line ∧ n = j + i := by
  induction lines generalizing j with
  | nil => simp [numbered]
  | cons line rest ih =>
    rw [numbered, List.mem_append, ih]
    constructor
    · rintro (here | ⟨i, l, hl, mem, rfl⟩)
      · obtain ⟨c, mem, e⟩ := List.mem_map.mp here
        cases e
        exact ⟨0, line, rfl, mem, by simp⟩
      · exact ⟨i + 1, l, hl, mem, by omega⟩
    · rintro ⟨i, l, hl, mem, rfl⟩
      cases i with
      | zero =>
        cases hl
        exact .inl (List.mem_map.mpr ⟨ch, mem, by simp⟩)
      | succ i => exact .inr ⟨i, l, hl, mem, by omega⟩

/-- A character that starts before the right margin stays on its line. -/
theorem spot_same (before : posX ≤ width - 9) : spot character width ch posX j =
    if ch = 10 then ⟨ch, j, posX, j + 1, 9⟩
    else ⟨ch, j, posX, j, posX + glyphAdvance character ch⟩ := by
  rw [spot]
  simp only [not_lt.mpr before, if_false]

/-- Behind the right margin the text goes on with the next line. -/
theorem layout_wrap (wide : 18 ≤ width) (behind : width - 9 < posX) :
    layout character width str posX j = layout character width str 9 (j + 1) := by
  cases str with
  | nil => rfl
  | cons ch str =>
    have same : spot character width ch posX j = spot character width ch 9 (j + 1) := by
      rw [spot_same (show 9 ≤ width - 9 by omega), spot]
      simp only [gt_iff_lt, behind, if_true]
    rw [layout, layout, same]

/-- Behind a character that ends a line. -/
theorem layout_end (wide : 18 ≤ width) (before : posX ≤ width - 9)
    (ends : ch = 10 ∨ width - 9 - posX < glyphAdvance character ch) :
    layout character width (ch :: str) posX j =
      spot character width ch posX j :: layout character width str 9 (j + 1) := by
  rw [layout, spot_same before]
  split
  · rfl
  · rename_i glyph
    have behind : width - 9 < posX + glyphAdvance character ch := by
      have := ends.resolve_left glyph
      omega
    dsimp only
    rw [layout_wrap wide behind]

/-- Behind a character in a line. -/
theorem layout_within (before : posX ≤ width - 9)
    (within : ¬ (ch = 10 ∨ width - 9 - posX < glyphAdvance character ch)) :
    layout character width (ch :: str) posX j = ⟨ch, j, posX, j, posX + glyphAdvance character ch⟩ ::
      layout character width str (posX + glyphAdvance character ch) j := by
  rw [layout, spot_same before, if_neg (not_or.mp within).1]

/-- The layout numbers the lines. -/
theorem layout_numbered (character : Font) (str : List UInt8) (j : Int) (wide : 18 ≤ width)
    (before : posX ≤ width - 9) :
    (layout character width str posX j).map (fun s => (s.ch, s.line)) =
      numbered j (linesFrom character width (width - 9 - posX) str) := by
  induction str generalizing posX j with
  | nil => rfl
  | cons ch str ih =>
    by_cases ends : ch = 10 ∨ width - 9 - posX < glyphAdvance character ch
    · have here : ((spot character width ch posX j).ch, (spot character width ch posX j).line) =
          (ch, j) := by
        rw [spot_same before]
        split <;> rfl
      have next := ih (j + 1) (show 9 ≤ width - 9 by omega)
      rw [show width - 9 - 9 = width - 18 by omega] at next
      rw [layout_end wide before ends, linesFrom, if_pos ends, numbered, List.map_cons, here, next]
      rfl
    · have next := ih j (show posX + glyphAdvance character ch ≤ width - 9 by
        have := (not_or.mp ends).2
        omega)
      rw [← sub_sub] at next
      rw [layout_within before ends, linesFrom, if_neg ends, List.map_cons, next]
      cases linesFrom character width (width - 9 - posX - glyphAdvance character ch) str with
      | nil => rfl
      | cons line rest => rfl

theorem linesFrom_ne_nil (character : Font) (width room : Int) (some : str ≠ []) :
    linesFrom character width room str ≠ [] := by
  cases str with
  | nil => exact absurd rfl some
  | cons ch str =>
    rw [linesFrom]
    split
    · exact List.cons_ne_nil _ _
    · split <;> exact List.cons_ne_nil _ _

/-- The place of the caret behind a text. -/
theorem layout_getLast (character : Font) (j : Int) (wide : 18 ≤ width) (before : posX ≤ width - 9)
    (some : str ≠ []) {lines : List (List UInt8)}
    (e : lines = linesFrom character width (width - 9 - posX) str) :
    ∃ s, (layout character width str posX j).getLast? = Option.some s ∧
      if str.getLast? = Option.some 10 then s.nextLine = j + lines.length ∧ s.nextColumn = 9
      else s.nextLine + 1 = j + lines.length ∧ s.nextColumn =
        (if lines.length = 1 then posX else 9) + textWidth character (lines.getLastD []) := by
  induction str generalizing posX j lines with
  | nil => exact absurd rfl some
  | cons ch str ih =>
    by_cases ends : ch = 10 ∨ width - 9 - posX < glyphAdvance character ch
    · rw [linesFrom, if_pos ends] at e
      rw [layout_end wide before ends]
      cases str with
      | nil =>
        refine ⟨spot character width ch posX j, rfl, ?_⟩
        rw [e, spot_same before]
        by_cases newline : ch = 10
        · simp [newline, linesFrom]
        · simp [newline, linesFrom, textWidth]
      | cons c str =>
        obtain ⟨s, last, place⟩ := ih (j + 1) (show 9 ≤ width - 9 by omega)
          (List.cons_ne_nil c str) rfl
        obtain ⟨line, rest, split⟩ := List.exists_cons_of_ne_nil
          (linesFrom_ne_nil character width (width - 9 - 9) (List.cons_ne_nil c str))
        rw [split] at place
        rw [show width - 18 = width - 9 - 9 by omega, split] at e
        refine ⟨s, by rw [List.getLast?_cons, last]; rfl, ?_⟩
        rw [List.getLast?_cons_cons, e]
        simp only [ite_self, List.length_cons, List.getLastD_cons, Nat.add_eq_right,
          Nat.add_eq_zero_iff, one_ne_zero, and_false, if_false] at place ⊢
        split_ifs at place ⊢ <;> omega
    · rw [linesFrom, if_neg ends] at e
      rw [layout_within before ends]
      cases str with
      | nil =>
        refine ⟨⟨ch, j, posX, j, posX + glyphAdvance character ch⟩, rfl, ?_⟩
        simp [e, linesFrom, textWidth, (not_or.mp ends).1]
      | cons c str =>
        obtain ⟨s, last, place⟩ := ih j
          (show posX + glyphAdvance character ch ≤ width - 9 by
            have := (not_or.mp ends).2
            omega)
          (List.cons_ne_nil c str) rfl
        obtain ⟨line, rest, split⟩ := List.exists_cons_of_ne_nil
          (linesFrom_ne_nil character width (width - 9 - posX - glyphAdvance character ch)
            (List.cons_ne_nil c str))
        rw [← sub_sub, split] at place
        rw [split] at e
        refine ⟨s, by rw [List.getLast?_cons, last]; rfl, ?_⟩
        rw [List.getLast?_cons_cons, e]
        cases rest with
        | nil =>
          simp only [List.length_singleton, if_true, List.getLastD_cons, List.getLastD_nil, textWidth,
            List.map_cons, List.sum_cons] at place ⊢
          split_ifs at place ⊢ <;> omega
        | cons next rest =>
          exact place

theorem length_layout : (layout character width str posX j).length = str.length := by
  induction str generalizing posX j with
  | nil => rfl
  | cons ch str ih => rw [layout, List.length_cons, List.length_cons, ih]

/-- The layout of a text starts with that of its beginning. -/
theorem layout_append (character : Font) (width posX j : Int) (front back : List UInt8) :
    ∃ rest, layout character width (front ++ back) posX j =
      layout character width front posX j ++ rest := by
  induction front generalizing posX j with
  | nil => exact ⟨_, rfl⟩
  | cons ch front ih =>
    obtain ⟨rest, e⟩ := ih (spot character width ch posX j).nextColumn
      (spot character width ch posX j).nextLine
    exact ⟨rest, by rw [List.cons_append, layout, layout, e]; rfl⟩

/-- The character in front of the rest of a text. -/
theorem layout_front (character : Font) (width posX j : Int) (back : List UInt8)
    {front : List UInt8} {k : Nat} (length : front.length = k + 1) :
    (layout character width (front ++ back) posX j)[k]? =
      (layout character width front posX j).getLast? := by
  obtain ⟨rest, e⟩ := layout_append character width posX j front back
  have inside : k < (layout character width front posX j).length := by
    rw [length_layout]
    omega
  rw [e, List.getElem?_append_left inside, List.getLast?_eq_getElem?, length_layout, length]
  rfl

/-! ## Points -/

section Points

variable {box : TextBox} {window : Window} {i : Int} {p : Point}

/-- One round of the text loop. -/
theorem drawText_cons {s : Spot} (h : s = spot character box.width ch posX j) :
    drawText character box window (ch :: str) i posX j =
      (drawCharacter character (window.leftTopX + box.leftTopX + s.column)
          (window.leftTopY + box.leftTopY + s.line * characterHeight) ch black).1 ++
        (drawCursorAfter box window i s.nextLine s.nextColumn ++
          drawText character box window str (i + 1) s.nextColumn s.nextLine) := by
  subst h
  rw [drawText, spot]
  split
  · rename_i newline
    subst newline
    rfl
  · simp only [drawCharacter_glyphAdvance, List.append_assoc]

theorem mem_drawCursorAfter {lines x : Int} : p ∈ drawCursorAfter box window i lines x ↔
    i = box.cursor - 1 ∧ p ∈ drawCursor box window lines x := by
  rw [drawCursorAfter]
  split
  · simp [*]
  · simp [*]

/-- What is drawn of a text: the ink of each character, and the caret behind the one in front of
the cursor. -/
theorem mem_drawText : p ∈ drawText character box window str i posX j ↔
    ∃ (k : Nat) (s : Spot), (layout character box.width str posX j)[k]? = some s ∧
      (p ∈ (drawCharacter character (window.leftTopX + box.leftTopX + s.column)
          (window.leftTopY + box.leftTopY + s.line * characterHeight) s.ch black).1 ∨
        (i + k = box.cursor - 1 ∧ p ∈ drawCursor box window s.nextLine s.nextColumn)) := by
  induction str generalizing i posX j with
  | nil => simp [drawText, layout]
  | cons ch str ih =>
    have next : ∀ k : Nat, i + 1 + (k : Int) = i + ((k + 1 : Nat) : Int) := by
      intro k
      omega
    rw [drawText_cons rfl, List.mem_append, List.mem_append, mem_drawCursorAfter, ih]
    simp only [next]
    constructor
    · rintro (hp | ⟨here, hp⟩ | ⟨k, s, hs, hp⟩)
      · exact ⟨0, _, rfl, .inl (by rwa [spot_ch])⟩
      · exact ⟨0, _, rfl, .inr ⟨by simpa using here, hp⟩⟩
      · exact ⟨k + 1, s, hs, hp⟩
    · rintro ⟨k, s, hs, hp⟩
      cases k with
      | zero =>
        cases hs
        obtain hp | ⟨here, hp⟩ := hp
        · exact .inl (by rwa [spot_ch] at hp)
        · exact .inr (.inl ⟨by simpa using here, hp⟩)
      | succ k => exact .inr (.inr ⟨k, s, hs, hp⟩)

end Points

/-! ## The frame -/

/-- The frame of a text box. -/
def TextBox.rect (box : TextBox) (window : Window) : Rect where
  left := window.leftTopX + box.leftTopX
  top := window.leftTopY + box.leftTopY
  right := window.leftTopX + box.leftTopX + box.width
  bottom := window.leftTopY + box.leftTopY + box.height

/-- The lines of a text in a text box, between margins of nine pixels. -/
def TextBox.lines (character : Font) (box : TextBox) (str : List UInt8) : List (List UInt8) :=
  linesFrom character box.width (box.width - 18) str

/-- There is room for the lines of the text as far as they have ink, and for the line where the
caret stands: behind a newline the next one, and otherwise one that is not wider than the frame. -/
structure TextBox.Holds (character : Font) (box : TextBox) : Prop where
  ink : ∀ (n : Nat) (line : List UInt8), (box.lines character (cstring box.text))[n]? = some line →
    ∀ ch ∈ line, ∀ i j, Ink character ch i j → (n : Int) * 18 + i < box.height
  caret : ∀ front back, front ++ back = cstring box.text → front ≠ [] →
    (front.length : Int) = box.cursor →
      if front.getLast? = some 10 then
        ((box.lines character front).length + 1 : Int) * 18 ≤ box.height
      else
        ((box.lines character front).length : Int) * 18 ≤ box.height ∧
          9 + textWidth character ((box.lines character front).getLastD []) < box.width

variable {box : TextBox} {window : Window}

theorem caret_bounds_iff (window : Window) {lines x : Int} (low : 0 ≤ lines) (left : 0 ≤ x) :
    (box.rect window).Bounds (drawCursor box window lines x) ↔
      lines * 18 + 18 ≤ box.height ∧ x < box.width := by
  constructor
  · intro h
    have := h ⟨window.leftTopX + box.leftTopX + x,
      window.leftTopY + box.leftTopY + lines * 18 + (17 : Nat), black⟩
      (List.mem_map.mpr ⟨17, by decide, rfl⟩)
    simp only [Rect.Contains, TextBox.rect] at this
    omega
  · rintro ⟨bottom, right⟩ p hp
    obtain ⟨s, hs, rfl⟩ := List.mem_map.mp hp
    rw [List.mem_range, characterHeight] at hs
    simp only [Rect.Contains, TextBox.rect]
    omega

theorem frame_bounds (wide : 18 ≤ box.width) (high : 18 ≤ box.height) :
    (box.rect window).Bounds (drawTextBox character box window) ↔
      (box.rect window).Bounds
        (drawText character box window (cstring box.text) 0 9 0) := by
  have caret : (box.rect window).Bounds
      (if box.cursor = 0 then drawCursor box window 0 9 else []) :=
    Rect.bounds_ite (fun _ => (caret_bounds_iff window (by omega) (by omega)).mpr ⟨by omega, by omega⟩)
      fun _ => Rect.bounds_nil
  have sides : (box.rect window).Bounds ((Int.range 0 box.height).flatMap fun j =>
      [⟨window.leftTopX + box.leftTopX, window.leftTopY + box.leftTopY + j, shadow⟩,
        ⟨window.leftTopX + box.leftTopX + (box.width - 1), window.leftTopY + box.leftTopY + j,
          shadow⟩]) := by
    refine Rect.bounds_sides ?_ ?_ ?_ ?_ <;> simp only [TextBox.rect] <;> omega
  rw [drawTextBox]
  simp only [Rect.bounds_append, caret, sides, and_true]
  constructor
  · exact fun h => h.2
  · intro h
    refine ⟨⟨⟨?_, ?_⟩, ?_⟩, h⟩
    · exact Rect.bounds_rows (Int.le_refl _) (Int.le_refl _) (by simp [TextBox.rect])
        (Int.le_refl _)
    all_goals
      refine Rect.bounds_row ?_ ?_ ?_ ?_ <;> simp only [TextBox.rect] <;> omega

/-- The caret behind the beginning of a text. -/
theorem caret_inside_iff (window : Window) (wide : 40 ≤ box.width) {front : List UInt8} {s : Spot}
    (some : front ≠ [])
    (last : (layout character box.width front 9 0).getLast? = Option.some s) (low : 0 ≤ s.nextLine)
    (left : 9 ≤ s.nextColumn) :
    (box.rect window).Bounds (drawCursor box window s.nextLine s.nextColumn) ↔
      if front.getLast? = Option.some 10 then
        ((box.lines character front).length + 1 : Int) * 18 ≤ box.height
      else
        ((box.lines character front).length : Int) * 18 ≤ box.height ∧
          9 + textWidth character ((box.lines character front).getLastD []) < box.width := by
  obtain ⟨s', last', place⟩ := layout_getLast character 0 (by omega : 18 ≤ box.width)
    (by omega : 9 ≤ box.width - 9) some rfl
  cases last.symm.trans last'
  rw [show box.width - 9 - 9 = box.width - 18 by omega] at place
  rw [caret_bounds_iff window low (by omega), TextBox.lines]
  split_ifs at place ⊢ <;> omega

/-- A text box is drawn inside of its frame if and only if its lines leave room for what is
drawn. -/
theorem text_box_inside_iff (wide : 40 ≤ box.width) (high : 18 ≤ box.height)
    (text : ∀ ch ∈ cstring box.text, Displayable ch) :
    (box.rect window).Bounds (drawTextBox character box window) ↔ box.Holds character := by
  have places : ∀ {k : Nat} {s : Spot},
      (layout character box.width (cstring box.text) 9 0)[k]? = some s → 0 ≤ s.line ∧ 9 ≤ s.column ∧
      s.column ≤ box.width - 9 ∧ 0 ≤ s.nextLine ∧ 9 ≤ s.nextColumn := fun hs =>
    layout_columns text (by omega) (by omega) (List.mem_of_getElem? hs)
  have lines := layout_numbered character (cstring box.text) 0 (by omega : 18 ≤ box.width)
    (by omega : 9 ≤ box.width - 9)
  rw [show box.width - 9 - 9 = box.width - 18 by omega, ← TextBox.lines] at lines
  rw [frame_bounds (by omega) high]
  constructor
  · intro h
    constructor
    case ink =>
      intro n line hn ch mem i j ink
      have placed := mem_numbered.mpr ⟨n, line, hn, mem, (zero_add _).symm⟩
      rw [← lines] at placed
      obtain ⟨s, mem, e⟩ := List.mem_map.mp placed
      obtain ⟨k, hs⟩ := List.getElem?_of_mem mem
      obtain ⟨rfl, line⟩ := Prod.mk.inj e
      have inside := h _ (mem_drawText.mpr ⟨k, s, hs, .inl (mem_drawCharacter.mpr ⟨i, j, ink, rfl⟩)⟩)
      simp only [Rect.Contains, TextBox.rect, characterHeight] at inside
      omega
    case caret =>
      intro front back whole some length
      obtain ⟨k, hk⟩ := Nat.exists_eq_succ_of_ne_zero (mt List.length_eq_zero_iff.mp some)
      have here := layout_front character box.width 9 0 back hk
      obtain ⟨s, last, -⟩ := layout_getLast character 0 (by omega : 18 ≤ box.width)
        (by omega : 9 ≤ box.width - 9) some rfl
      rw [whole, last] at here
      obtain ⟨-, -, -, nextLine, nextColumn⟩ := places here
      refine (caret_inside_iff window wide some last nextLine nextColumn).mp fun p hp => ?_
      exact h p (mem_drawText.mpr ⟨k, s, here, .inr ⟨by omega, hp⟩⟩)
  · intro h p hp
    obtain ⟨k, s, hs, hp⟩ := mem_drawText.mp hp
    obtain ⟨line, column, right, nextLine, nextColumn⟩ := places hs
    obtain hp | ⟨here, hp⟩ := hp
    · obtain ⟨i, j, ink, rfl⟩ := mem_drawCharacter.mp hp
      have placed : (s.ch, s.line) ∈ numbered 0 (box.lines character (cstring box.text)) := by
        rw [← lines]
        exact List.mem_map.mpr ⟨s, List.mem_of_getElem? hs, rfl⟩
      obtain ⟨n, row, hn, mem, number⟩ := mem_numbered.mp placed
      have bottom := h.ink n row hn _ mem i j ink
      have columns : j < 9 := ink.2.2.2.1
      simp only [Rect.Contains, TextBox.rect, characterHeight]
      omega
    · have length : ((cstring box.text).take (k + 1)).length = k + 1 := by
        have inside := (List.getElem?_eq_some_iff.mp hs).1
        rw [length_layout] at inside
        rw [List.length_take]
        omega
      have some : (cstring box.text).take (k + 1) ≠ [] := List.ne_nil_of_length_pos (by omega)
      have last := layout_front character box.width 9 0 ((cstring box.text).drop (k + 1)) length
      rw [List.take_append_drop, hs] at last
      refine (caret_inside_iff window wide some last.symm nextLine nextColumn).mpr ?_ p hp
      exact h.caret _ _ (List.take_append_drop ..) some (by omega)

/-- A narrow text box. -/
def narrowBox (height : Int) (text : Chars) (cursor : Int) : TextBox where
  leftTopX := 10
  leftTopY := 105
  width := 40
  height := height
  cursor := cursor
  textLength := (cstring text).length
  text := text

/-- A newline and nothing else. -/
def newlineOnly : Chars := fun i => if i = 0 then 10 else 0

/-- A letter, a newline and another letter. -/
def twoLetters : Chars := fun i => [0x61, 10, 0x62].getD i 0

/-- Two lines in a text box for two lines, with the caret behind the last letter. -/
theorem text_box_inside_iff_lines : cstring twoLetters = [0x61, 10, 0x62] ∧
    ∀ (character : Font) (window : Window),
      (narrowBox 36 twoLetters 3).lines character [0x61, 10, 0x62] = [[0x61, 10], [0x62]] ∧
      ((narrowBox 36 twoLetters 3).rect window).Bounds
        (drawTextBox character (narrowBox 36 twoLetters 3) window) := by
  have text : cstring twoLetters = [0x61, 10, 0x62] := by decide +kernel
  refine ⟨text, fun character window => ?_⟩
  have first := (glyphAdvance_bounds character (show 0x20 ≤ 0x61 by decide) (by decide)).2
  have second := (glyphAdvance_bounds character (show 0x20 ≤ 0x62 by decide) (by decide)).2
  have lines : (narrowBox 36 twoLetters 3).lines character [0x61, 10, 0x62] =
      [[0x61, 10], [0x62]] := by
    have a : glyphAdvance character 97 ≤ 22 := by omega
    have b : glyphAdvance character 98 ≤ 22 := by omega
    simp [TextBox.lines, narrowBox, linesFrom, not_lt.mpr a, not_lt.mpr b]
  refine ⟨lines, (text_box_inside_iff (by decide) (by decide) ?_).mpr ⟨?_, ?_⟩⟩
  · rw [show cstring (narrowBox 36 twoLetters 3).text = _ from text]
    simp [Displayable]
  · intro n line hn ch _ i j ink
    rw [show cstring (narrowBox 36 twoLetters 3).text = _ from text, lines] at hn
    have few : n < 2 := (List.getElem?_eq_some_iff.mp hn).1
    have low : i < 18 := ink.2.2.1
    show (n : Int) * 18 + i < 36
    omega
  · intro front back whole _ length
    rw [show cstring (narrowBox 36 twoLetters 3).text = _ from text] at whole
    have length : front.length = 3 := by
      have : (front.length : Int) = 3 := length
      omega
    obtain ⟨rfl, -⟩ := List.append_inj (whole.trans (List.append_nil _).symm) length
    rw [lines, if_neg (by decide)]
    refine ⟨by decide, ?_⟩
    show 9 + textWidth character [0x62] < 40
    simp only [textWidth, List.map_cons, List.map_nil, List.sum_cons, List.sum_nil]
    omega

/-- Behind a newline the caret is drawn below a text box of one line. -/
theorem text_box_caret_outside : cstring newlineOnly = [10] ∧
    ∀ (character : Font) (window : Window), ¬ ((narrowBox 18 newlineOnly 1).rect window).Bounds
      (drawTextBox character (narrowBox 18 newlineOnly 1) window) := by
  have text : cstring newlineOnly = [10] := by decide +kernel
  refine ⟨text, fun character window h => ?_⟩
  rw [frame_bounds (by decide) (by decide)] at h
  have caret := h ⟨window.leftTopX + 10 + 9, window.leftTopY + 105 + 1 * 18 + (0 : Nat), black⟩ ?_
  · simp only [Rect.Contains, TextBox.rect, narrowBox] at caret
    omega
  · refine mem_drawText.mpr ⟨0, ⟨10, 0, 9, 1, 9⟩, ?_, .inr ⟨rfl, ?_⟩⟩
    · rw [show cstring (narrowBox 18 newlineOnly 1).text = [10] from text]
      rfl
    · exact List.mem_map.mpr ⟨0, by decide, rfl⟩

end Xv6Gui
