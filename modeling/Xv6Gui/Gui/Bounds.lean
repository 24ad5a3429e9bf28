import Xv6Gui.Gui.Pointer

/-!
# Where pictures are

A rectangle of points, the pictures that stay inside of one, and what is drawn of a character:
its *ink*, and how far it moves the next one.  An image inside of the screen stores each of its
pixels once.
-/

namespace Xv6Gui

open Canvas

/-- The points from `left` and `top` to in front of `right` and `bottom`. -/
structure Rect where
  left : Int
  top : Int
  right : Int
  bottom : Int
deriving DecidableEq, Repr

namespace Rect

/-- A point is in the rectangle. -/
def Contains (r : Rect) (p : Point) : Prop :=
  r.left ≤ p.x ∧ p.x < r.right ∧ r.top ≤ p.y ∧ p.y < r.bottom

/-- Every point of a picture is in the rectangle. -/
def Bounds (r : Rect) (picture : Picture) : Prop := ∀ p ∈ picture, r.Contains p

variable {r : Rect} {first second : Picture}

@[simp] theorem bounds_nil : r.Bounds [] := fun _ h => nomatch h

@[simp] theorem bounds_append : r.Bounds (first ++ second) ↔ r.Bounds first ∧ r.Bounds second :=
  List.forall_mem_append

@[simp] theorem bounds_cons {p : Point} : r.Bounds (p :: first) ↔ r.Contains p ∧ r.Bounds first :=
  List.forall_mem_cons

theorem bounds_flatMap {α : Type*} {l : List α} {f : α → Picture} :
    r.Bounds (l.flatMap f) ↔ ∀ a ∈ l, r.Bounds (f a) := by
  constructor
  · intro h a ha p hp
    exact h p (List.mem_flatMap.mpr ⟨a, ha, hp⟩)
  · intro h p hp
    obtain ⟨a, ha, hp⟩ := List.mem_flatMap.mp hp
    exact h a ha p hp

theorem bounds_ite {c : Prop} [Decidable c] (pos : c → r.Bounds first)
    (neg : ¬ c → r.Bounds second) : r.Bounds (if c then first else second) := by
  split
  · exact pos ‹_›
  · exact neg ‹_›

end Rect

variable {width : Int} {p : Point}

theorem mem_row {x y : Int} {color : RGB} :
    p ∈ row x y width color ↔ x ≤ p.x ∧ p.x < x + width ∧ p.y = y ∧ p.color = color := by
  obtain ⟨px, py, c⟩ := p
  rw [row, List.mem_map]
  constructor
  · rintro ⟨i, hi, e⟩
    rw [Int.mem_range_iff] at hi
    cases e
    exact ⟨by simp only; omega, by simp only; omega, rfl, rfl⟩
  · rintro ⟨low, high, rfl, rfl⟩
    simp only at low high
    exact ⟨px - x, Int.mem_range_iff.mpr (by omega), by simp⟩

theorem Rect.bounds_row {r : Rect} {x y : Int} {color : RGB} (left : r.left ≤ x)
    (right : x + width ≤ r.right) (top : r.top ≤ y) (bottom : y < r.bottom) :
    r.Bounds (row x y width color) := by
  intro p hp
  obtain ⟨low, high, here, -⟩ := mem_row.mp hp
  exact ⟨by omega, by omega, by omega, by omega⟩

/-- Rows below each other. -/
theorem Rect.bounds_rows {r : Rect} {x y a b : Int} {color : Int → RGB} (left : r.left ≤ x)
    (right : x + width ≤ r.right) (top : r.top ≤ y + a) (bottom : y + b ≤ r.bottom) :
    r.Bounds ((Int.range a b).flatMap fun j => row x (y + j) width (color j)) := by
  refine bounds_flatMap.mpr fun j hj => ?_
  rw [Int.mem_range_iff] at hj
  exact bounds_row left right (by omega) (by omega)

/-- Two columns of points. -/
theorem Rect.bounds_sides {r : Rect} {y a b x u : Int} {color : RGB} (first : r.left ≤ x ∧ x < r.right)
    (second : r.left ≤ u ∧ u < r.right) (top : r.top ≤ y + a) (bottom : y + b ≤ r.bottom) :
    r.Bounds ((Int.range a b).flatMap fun j => [⟨x, y + j, color⟩, ⟨u, y + j, color⟩]) := by
  refine bounds_flatMap.mpr fun j hj => ?_
  rw [Int.mem_range_iff] at hj
  simp only [bounds_cons, bounds_nil, Contains, and_true]
  omega

/-! ## Characters -/

/-- The newline character and those with a glyph. -/
def Displayable (ch : UInt8) : Prop := ch = 10 ∨ (0x20 ≤ ch ∧ ch ≤ 0x7e)
  deriving Decidable

/-- The glyph of a character has a point in the row `i` and the column `j`. -/
def Ink (character : Font) (ch : UInt8) (i j : Nat) : Prop :=
  0x20 ≤ ch ∧ ch ≤ 0x7e ∧ i < characterHeight ∧ j < characterWidth ∧
    character (ch.toNat - 0x20) i j = true

/-- The result of `drawCharacter`. -/
def glyphAdvance (character : Font) (ch : UInt8) : Int := (drawCharacter character 0 0 ch black).2

variable {character : Font} {ch : UInt8} {x y : Int} {color : RGB}

theorem drawCharacter_glyphAdvance :
    (drawCharacter character x y ch color).2 = glyphAdvance character ch := by
  simp only [glyphAdvance, drawCharacter]
  split <;> rfl

theorem drawCharacters_cons {str : List UInt8} :
    drawCharacters character x y (ch :: str) color =
      (drawCharacter character x y ch color).1 ++
        drawCharacters character (x + glyphAdvance character ch) y str color := by
  rw [← drawCharacter_glyphAdvance (x := x) (y := y)]
  rfl

theorem glyph_iff : ¬ ((ch.toNat : Int) - 0x20 > 94 ∨ (ch.toNat : Int) - 0x20 < 0) ↔
    0x20 ≤ ch ∧ ch ≤ 0x7e := by
  rw [UInt8.le_iff_toNat_le, UInt8.le_iff_toNat_le, show (0x20 : UInt8).toNat = 32 from rfl,
    show (0x7e : UInt8).toNat = 126 from rfl]
  omega

theorem mem_glyphColumns {ord j : Nat} : j ∈ glyphColumns character ord ↔
    j < characterWidth ∧ (j ≤ 1 ∨ ∃ i < characterHeight, character ord i j = true) := by
  simp [glyphColumns]

theorem mem_drawCharacter : p ∈ (drawCharacter character x y ch color).1 ↔
    ∃ i j, Ink character ch i j ∧ p = ⟨x + j, y + i, color⟩ := by
  rw [drawCharacter]
  dsimp only
  split
  · rename_i none
    refine ⟨fun h => absurd h List.not_mem_nil, ?_⟩
    rintro ⟨i, j, ⟨low, high, -⟩, -⟩
    exact absurd none (glyph_iff.mpr ⟨low, high⟩)
  · rename_i glyph
    obtain ⟨low, high⟩ := glyph_iff.mp glyph
    have ord : ((ch.toNat : Int) - 0x20).toNat = ch.toNat - 0x20 := by omega
    simp only [ord, List.mem_flatMap, List.mem_map, List.mem_filter, List.mem_range]
    constructor
    · rintro ⟨j, hj, i, ⟨hi, ink⟩, rfl⟩
      exact ⟨i, j, ⟨low, high, hi, (mem_glyphColumns.mp hj).1, ink⟩, rfl⟩
    · rintro ⟨i, j, ⟨-, -, hi, hj, ink⟩, rfl⟩
      exact ⟨j, mem_glyphColumns.mpr ⟨hj, .inr ⟨i, hi, ink⟩⟩, i, ⟨hi, ink⟩, rfl⟩

theorem glyphColumns_length (character : Font) (ord : Nat) :
    2 ≤ (glyphColumns character ord).length ∧ (glyphColumns character ord).length ≤ 9 := by
  have columns : List.range characterWidth = 0 :: 1 :: (List.range 7).map (· + 2) := rfl
  rw [glyphColumns, columns, List.filter_cons_of_pos (by simp), List.filter_cons_of_pos (by simp)]
  have rest := List.length_filter_le (fun j : Nat =>
    j ≤ 1 ∨ (List.range characterHeight).any fun i => character ord i j) ((List.range 7).map (· + 2))
  rw [List.length_map, List.length_range] at rest
  simp only [List.length_cons]
  omega

/-- A character with a glyph moves the next one by four to eleven pixels. -/
theorem glyphAdvance_bounds (character : Font) (low : 0x20 ≤ ch) (high : ch ≤ 0x7e) :
    4 ≤ glyphAdvance character ch ∧ glyphAdvance character ch ≤ 11 := by
  rw [glyphAdvance, drawCharacter]
  dsimp only
  rw [if_neg (glyph_iff.mpr ⟨low, high⟩)]
  have := glyphColumns_length character ((ch.toNat : Int) - 0x20).toNat
  dsimp only
  omega

theorem glyphAdvance_eq_neg_one : glyphAdvance character ch = -1 ↔ ¬ (0x20 ≤ ch ∧ ch ≤ 0x7e) := by
  constructor
  · rintro none ⟨low, high⟩
    have := (glyphAdvance_bounds character low high).1
    omega
  · intro none
    rw [glyphAdvance, drawCharacter]
    dsimp only
    rw [if_pos (not_not.mp (glyph_iff.not.mpr none))]

/-- Text is as high as a character. -/
theorem drawCharacters_rows {str : List UInt8}
    (h : p ∈ drawCharacters character x y str color) : y ≤ p.y ∧ p.y < y + 18 := by
  induction str generalizing x with
  | nil => cases h
  | cons ch str ih =>
    rw [drawCharacters_cons] at h
    obtain h | h := List.mem_append.mp h
    · obtain ⟨i, j, ⟨-, -, hi, -⟩, rfl⟩ := mem_drawCharacter.mp h
      rw [characterHeight] at hi
      exact ⟨by simp only; omega, by simp only; omega⟩
    · exact ih h

/-! ## Images -/

theorem isAlpha_iff {c : RGB} : isAlpha c = true ↔ c = black := by
  obtain ⟨r, g, b⟩ := c
  simp only [isAlpha, black, decide_eq_true_eq, RGB.mk.injEq]
  constructor
  · rintro ⟨rfl, rfl, rfl⟩
    exact ⟨rfl, rfl, rfl⟩
  · rintro ⟨rfl, rfl, rfl⟩
    exact ⟨rfl, rfl, rfl⟩

/-- The points of an image. -/
theorem mem_drawImage {f : Int → RGB} {height : Int} {transparent : RGB → Bool} :
    p ∈ drawImage f x y width height transparent ↔ ∃ i j, 0 ≤ i ∧ i < width ∧ 0 ≤ j ∧ j < height ∧
      transparent (f ((height - 1 - j) * width + i)) = false ∧
        p = ⟨x + i, y + j, f ((height - 1 - j) * width + i)⟩ := by
  simp only [drawImage, List.mem_flatMap, List.mem_map, List.mem_filter, Int.mem_range_iff]
  constructor
  · rintro ⟨j, ⟨top, bottom⟩, i, ⟨⟨low, high⟩, color⟩, rfl⟩
    exact ⟨i, j, low, high, top, bottom, by simpa using color, rfl⟩
  · rintro ⟨i, j, low, high, top, bottom, color, rfl⟩
    exact ⟨j, ⟨top, bottom⟩, i, ⟨⟨low, high⟩, by simpa using color⟩, rfl⟩

/-- An image inside of the screen stores its pixels that are not transparent. -/
theorem paint_drawImage {m : Int → RGB} {base height i j : Int} {f : Int → RGB}
    {transparent : RGB → Bool} (left : 0 ≤ x) (right : x + width ≤ screenWidth) (upper : 0 ≤ y)
    (lower : y + height ≤ screenHeight) (low : 0 ≤ i) (high : i < width) (top : 0 ≤ j)
    (bottom : j < height) :
    paint m base ((drawImage f x y width height transparent).map Point.toStore)
        (base + offset (x + i) (y + j)) =
      if transparent (f ((height - 1 - j) * width + i)) then m (base + offset (x + i) (y + j))
      else f ((height - 1 - j) * width + i) := by
  have inside : ∀ {i j : Int}, 0 ≤ i → i < width → 0 ≤ j → j < height →
      OnScreen (x + i) (y + j) := by
    intro i j _ _ _ _
    simp only [OnScreen]
    omega
  -- a point of the image that is stored here is the one with these coordinates
  have only : ∀ p ∈ drawImage f x y width height transparent,
      p.toStore.1 = offset (x + i) (y + j) →
        transparent (f ((height - 1 - j) * width + i)) = false ∧
          p.color = f ((height - 1 - j) * width + i) := by
    intro p hp e
    obtain ⟨i', j', low', high', top', bottom', color, rfl⟩ := mem_drawImage.mp hp
    have same := (inside low' high' top' bottom').offset_inj (inside low high top bottom) e
    obtain rfl : i' = i := by omega
    obtain rfl : j' = j := by omega
    exact ⟨color, rfl⟩
  split
  · rename_i alpha
    refine paint_other fun w hw e => ?_
    obtain ⟨p, hp, rfl⟩ := List.mem_map.mp hw
    have := (only p hp (by omega)).1
    rw [alpha] at this
    cases this
  · rename_i color
    have mem := (mem_drawImage (x := x) (y := y)).mpr
      ⟨i, j, low, high, top, bottom, by simpa using color, rfl⟩
    have hit : ∃ w ∈ (drawImage f x y width height transparent).map Point.toStore,
        base + offset (x + i) (y + j) = base + w.1 := ⟨_, List.mem_map_of_mem mem, rfl⟩
    obtain ⟨w, hw, e, pixel⟩ := paint_mem (m := m) hit
    obtain ⟨p, hp, rfl⟩ := List.mem_map.mp hw
    exact pixel.trans (only p hp (by omega)).2

end Xv6Gui
