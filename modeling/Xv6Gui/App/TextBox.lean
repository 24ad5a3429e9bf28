import Mathlib.Data.List.GetD
import Mathlib.Data.List.InsertIdx
import Mathlib.Data.Nat.Init
import Xv6Gui.Lib.Effect
import Xv6Gui.Lib.Runs
import Xv6Gui.Param

/-!
# Text boxes

The kernel edits the text box of an application when a key is pressed: `keyboardHandler` of
`kbd.c` with `insertCharacter`, `deleteCharacter` and `moveCursor`.  The editor sets up its
text box from a file with `cat`.

An access to `text` outside of its bounds is an error of the model (`Fault`).  What the
functions draw is not part of the state.

A text box is well formed if it represents a document with a cursor in it (`Represents`).
The functions are then insertion and removal in a list.  `insertCharacter` does not look
whether there is room, and `cat` takes whatever is in the file.
-/

namespace Xv6Gui.App

open Effect Runs
open Function (update update_of_ne)

variable {i pos rounds start stop : Nat}

/-- `TextBox`, up to its place on the screen. -/
structure TextBox where
  cursor : Int
  textLength : Int
  text : Nat → UInt8

/-- An access to `text[i]` with `i` outside of the array. -/
inductive Fault where
  | outside (i : Int)
deriving DecidableEq

/-- Code that edits a text box. -/
abbrev TextM := StateT TextBox (Except Fault)

/-- `textbox->text[i]`. -/
def readText (i : Int) : TextM UInt8 := do
  let box ← get
  if 0 ≤ i ∧ i < maxStringNum then return box.text i.toNat else throw (.outside i)

/-- `textbox->text[i] = c`. -/
def writeText (i : Int) (c : UInt8) : TextM Unit := do
  let box ← get
  if 0 ≤ i ∧ i < maxStringNum then
    set { box with text := update box.text i.toNat c }
  else
    throw (.outside i)

/-- The loop of `insertCharacter` down to `pos`, with what is left of its rounds. -/
def insertLoop (pos : Int) : Nat → TextM Unit
  | 0 => return ()
  | rounds + 1 => do
    writeText (pos + rounds + 1) (← readText (pos + rounds))
    insertLoop pos rounds

/-- `insertCharacter`. -/
def insertCharacter (ch : UInt8) : TextM Unit := do
  let box ← get
  let pos := box.cursor
  let len := box.textLength + 1
  set { box with cursor := pos + 1, textLength := len }
  insertLoop pos (len - pos).toNat
  writeText (min len pos) ch

/-- The loop of `deleteCharacter` from `i` on, with what is left of its rounds. -/
def deleteLoop : Nat → Int → TextM Unit
  | 0, _ => return ()
  | rounds + 1, i => do
    writeText i (← readText (i + 1))
    deleteLoop rounds (i + 1)

/-- `deleteCharacter`. -/
def deleteCharacter : TextM Unit := do
  let box ← get
  let pos := box.cursor
  let len := box.textLength
  if pos = 0 then
    return ()
  else
    set { box with cursor := pos - 1, textLength := len - 1 }
    deleteLoop (len - (pos - 1)).toNat (pos - 1)

/-- The character `\n`. -/
def newline : UInt8 := 10

/-- The loop of `moveCursor` back to a newline, with what is left of its rounds.  It returns
`i` and `lineIndex`. -/
def lineStartLoop : Nat → Int → Int → TextM (Int × Int)
  | 0, i, lineIndex => return (i, lineIndex)
  | rounds + 1, i, lineIndex => do
    if i ≥ 0 then
      if (← readText i) ≠ newline then
        lineStartLoop rounds (i - 1) (lineIndex + 1)
      else
        return (i, lineIndex)
    else
      return (i, lineIndex)

/-- The loop of `moveCursor` on to a newline, with what is left of its rounds.  It returns
`j`, unless it is at the end of the text. -/
def lineEndLoop : Nat → Int → TextM (Option Int)
  | 0, j => return some j
  | rounds + 1, j => do
    if j ≤ (← get).textLength then
      if (← readText j) = newline then
        return some j
      else if (← readText j) = 0 then
        return none
      else
        lineEndLoop rounds (j + 1)
    else
      return some j

/-- The loop of `moveCursor` on to a newline or to the end of the text. -/
def nextEndLoop : Nat → Int → TextM Int
  | 0, i => return i
  | rounds + 1, i => do
    if i ≤ (← get).textLength then
      if (← readText i) = newline ∨ (← readText i) = 0 then
        return i
      else
        nextEndLoop rounds (i + 1)
    else
      return i

/-- The end of `moveCursor`: at `lineIndex` in the line between `j` and `i`. -/
def setCursor (i j lineIndex : Int) : TextM Unit :=
  modify fun box =>
    { box with cursor := if i < j + 1 + lineIndex then i else j + 1 + lineIndex }

/-- `KEY_LF`. -/
def keyLf : UInt8 := 228

/-- `KEY_RT`. -/
def keyRt : UInt8 := 229

/-- `KEY_UP`. -/
def keyUp : UInt8 := 226

/-- `KEY_DN`. -/
def keyDn : UInt8 := 227

/-- `moveCursor`. -/
def moveCursor (ch : UInt8) : TextM Unit := do
  let box ← get
  if box.textLength = 0 then
    return ()
  else if ch = keyLf then
    set { box with cursor := if box.cursor > 0 then box.cursor - 1 else box.cursor }
  else if ch = keyRt then
    if (← readText box.cursor) ≠ 0 ∧ (← readText box.cursor) ≠ newline then
      set { box with cursor := box.cursor + 1 }
    else
      return ()
  else if ch = keyUp then
    let (i, lineIndex) ← lineStartLoop box.cursor.toNat (box.cursor - 1) 0
    if i = -1 then
      return ()
    else
      let (j, _) ← lineStartLoop i.toNat (i - 1) 0
      setCursor i j lineIndex
  else if ch = keyDn then
    let (i, lineIndex) ← lineStartLoop box.cursor.toNat (box.cursor - 1) 0
    match ← lineEndLoop (box.textLength - i).toNat (i + 1) with
    | none => return ()
    | some j =>
      let i ← nextEndLoop (box.textLength - j).toNat (j + 1)
      setCursor i j lineIndex
  else
    return ()

/-- The first part of `keyboardHandler`: keys that change the text. -/
def editText (ch : UInt8) : TextM Unit :=
  if ch < 225 ∧ ch ≠ 8 then
    insertCharacter ch
  else if ch = 8 then
    deleteCharacter
  else
    return ()

/-- `keyboardHandler`, for a window with a text box. -/
def keyboardHandler (ch : UInt8) : TextM Unit := do
  editText ch
  if ch = 226 ∨ ch = 227 ∨ ch = 228 ∨ ch = 229 then
    moveCursor ch
  else
    return ()

/-- The end of `kbdintr`: a key without a code is not delivered. -/
def kbdintr (c : UInt8) : TextM Unit := if c ≠ 0 then keyboardHandler c else return ()

/-- The text box of the editor after `cat`, for a file with these bytes. -/
def cat (file : List UInt8) : TextBox where
  cursor := (file.take maxStringNum).length
  textLength := (file.take maxStringNum).length
  text i := (file.take maxStringNum).getD i 0

/-! ## Documents -/

/-- The text ends with the first zero, at `textLength`, and the cursor is in it. -/
structure TextBox.WellFormed (box : TextBox) : Prop where
  nonneg : 0 ≤ box.cursor
  inside : box.cursor ≤ box.textLength
  fits : box.textLength < maxStringNum
  stop : box.text box.textLength.toNat = 0
  nonzero : ∀ i : Nat, i < box.textLength → box.text i ≠ 0

/-- A text box represents a document and a position in it. -/
structure Represents (box : TextBox) (doc : List UInt8) (cur : Nat) : Prop where
  cursor : box.cursor = cur
  length : box.textLength = doc.length
  inside : cur ≤ doc.length
  fits : doc.length < maxStringNum
  text : ∀ i ≤ doc.length, box.text i = doc.getD i 0
  nonzero : 0 ∉ doc

variable {box box' : TextBox} {doc : List UInt8} {cur : Nat} {ch : UInt8}

theorem Represents.wellFormed (h : Represents box doc cur) : box.WellFormed := by
  constructor
  case nonneg => simp [h.cursor]
  case inside => simpa [h.cursor, h.length] using h.inside
  case fits => simpa [h.length] using h.fits
  case stop => simp [h.length, h.text]
  case nonzero =>
    intro i hi
    rw [h.length] at hi
    have lt : i < doc.length := by omega
    rw [h.text i (Nat.le_of_lt lt), List.getD_eq_getElem _ _ lt]
    exact fun zero => h.nonzero (zero ▸ List.getElem_mem lt)

theorem TextBox.WellFormed.represents (h : box.WellFormed) :
    Represents box ((List.range box.textLength.toNat).map box.text) box.cursor.toNat := by
  have := h.nonneg
  have := h.inside
  have := h.fits
  constructor
  case cursor => omega
  case length => simp; omega
  case inside => simp; omega
  case fits => simp; omega
  case text =>
    intro i hi
    simp only [List.length_map, List.length_range] at hi
    obtain lt | rfl := Nat.lt_or_eq_of_le hi
    · simp [lt]
    · simpa using h.stop
  case nonzero =>
    intro zero
    obtain ⟨i, hi, e⟩ := List.mem_map.mp zero
    have lt := List.mem_range.mp hi
    exact h.nonzero i (by omega) e

/-! ## Accesses -/

theorem readText_run (box : TextBox) (h : i < maxStringNum) :
    (readText i).run box = .ok (box.text i, box) := by
  have inside : 0 ≤ (i : Int) ∧ (i : Int) < maxStringNum := by omega
  rw [readText, run_get_bind, if_pos inside]
  rfl

theorem writeText_run (box : TextBox) (h : i < maxStringNum) (c : UInt8) :
    (writeText i c).run box = .ok ((), { box with text := update box.text i c }) := by
  have inside : 0 ≤ (i : Int) ∧ (i : Int) < maxStringNum := by omega
  rw [writeText, run_get_bind, if_pos inside]
  rfl

theorem writeText_outside (box : TextBox) {i : Int} (h : maxStringNum ≤ i) (c : UInt8) :
    (writeText i c).run box = .error (.outside i) := by
  rw [writeText, run_get_bind, if_neg (by omega)]
  rfl

/-! ## Insertion -/

/-- The text with `n` characters behind `pos` moved by one. -/
def moveUp (text : Nat → UInt8) (pos n i : Nat) : UInt8 :=
  if pos < i ∧ i ≤ pos + n then text (i - 1) else text i

theorem moveUp_succ (text : Nat → UInt8) (pos n : Nat) :
    moveUp (update text (pos + n + 1) (text (pos + n))) pos n = moveUp text pos (n + 1) := by
  funext i
  simp only [moveUp]
  by_cases last : i = pos + n + 1
  · subst last
    rw [if_neg (by omega), if_pos (by omega), Function.update_self]
    rfl
  · have same : pos < i ∧ i ≤ pos + (n + 1) ↔ pos < i ∧ i ≤ pos + n := by omega
    simp only [same, update_of_ne last]
    split
    · rw [update_of_ne (by omega)]
    · rfl

theorem insertLoop_run (box : TextBox) (h : pos + rounds < maxStringNum) :
    (insertLoop pos rounds).run box =
      .ok ((), { box with text := moveUp box.text pos rounds }) := by
  induction rounds generalizing box with
  | zero =>
    have none : moveUp box.text pos 0 = box.text := by
      funext i
      exact if_neg (by omega)
    rw [none]
    rfl
  | succ rounds ih =>
    have read := readText_run box (i := pos + rounds) (by omega)
    have write := writeText_run box (i := pos + rounds + 1) (by omega)
      (box.text (pos + rounds))
    push_cast at read write
    rw [insertLoop, run_bind read, run_bind write, ← moveUp_succ]
    exact ih _ (by omega)

/-- A character is inserted at the cursor, if there is room. -/
theorem Represents.insert (h : Represents box doc cur) (room : doc.length + 1 < maxStringNum)
    (ne : ch ≠ 0) :
    ∃ box', (insertCharacter ch).run box = .ok ((), box') ∧
      Represents box' (doc.insertIdx cur ch) (cur + 1) := by
  have inside := h.inside
  obtain ⟨cursor, textLength, text⟩ := box
  obtain rfl : cursor = cur := h.cursor
  obtain rfl : textLength = doc.length := h.length
  have rounds : ((doc.length : Int) + 1 - cur).toNat = doc.length + 1 - cur := by omega
  have spot : min ((doc.length : Int) + 1) cur = cur := by omega
  have loop := insertLoop_run ⟨cur + 1, doc.length + 1, text⟩
    (show cur + (doc.length + 1 - cur) < maxStringNum by omega)
  have write := writeText_run ⟨cur + 1, doc.length + 1, moveUp text cur (doc.length + 1 - cur)⟩
    (show cur < maxStringNum by omega) ch
  have length : (doc.insertIdx cur ch).length = doc.length + 1 :=
    List.length_insertIdx_of_le_length inside ch
  refine ⟨⟨cur + 1, doc.length + 1,
    update (moveUp text cur (doc.length + 1 - cur)) cur ch⟩, ?_, ?_⟩
  · rw [insertCharacter, run_get_bind]
    simp only [rounds, spot]
    rw [run_set_bind, run_bind loop, write]
  · constructor
    case cursor => rfl
    case length => simp [length]
    case inside => omega
    case fits => omega
    case text =>
      intro i hi
      rw [length] at hi
      rw [List.getD_eq_getElem?_getD, List.getElem?_insertIdx]
      obtain lt | rfl | gt := Nat.lt_trichotomy i cur
      · have low : ¬ (cur < i ∧ i ≤ cur + (doc.length + 1 - cur)) := by omega
        simp only [update_of_ne (Nat.ne_of_lt lt), moveUp, if_neg low, if_pos lt]
        rw [← List.getD_eq_getElem?_getD]
        exact h.text i (by omega)
      · simp [inside]
      · have high : cur < i ∧ i ≤ cur + (doc.length + 1 - cur) := by omega
        simp only [update_of_ne (Nat.ne_of_gt gt), moveUp, if_pos high]
        rw [if_neg (by omega), if_neg (by omega), ← List.getD_eq_getElem?_getD]
        exact h.text (i - 1) (by omega)
    case nonzero =>
      rw [List.mem_insertIdx inside]
      rintro (zero | mem)
      · exact ne zero.symm
      · exact h.nonzero mem

/-- Without room the terminating zero is written behind the array. -/
theorem Represents.insert_outside (h : Represents box doc cur)
    (full : doc.length + 1 = maxStringNum) :
    (insertCharacter ch).run box = .error (.outside maxStringNum) := by
  have inside := h.inside
  obtain ⟨cursor, textLength, text⟩ := box
  obtain rfl : cursor = cur := h.cursor
  obtain rfl : textLength = doc.length := h.length
  have rounds : ((doc.length : Int) + 1 - cur).toNat = doc.length - cur + 1 := by omega
  have spot : (cur : Int) + ((doc.length - cur : Nat) : Int) = doc.length := by omega
  have last : ((doc.length : Int) + 1) = maxStringNum := by omega
  have read := readText_run ⟨cur + 1, doc.length + 1, text⟩ (show doc.length < maxStringNum by omega)
  have write := writeText_outside ⟨cur + 1, doc.length + 1, text⟩
    (Int.le_of_eq last.symm) (text doc.length)
  rw [insertCharacter, run_get_bind]
  simp only [rounds, insertLoop, spot]
  rw [run_set_bind]
  refine run_bind_error ?_
  rw [run_bind read, ← last]
  exact run_bind_error write

/-! ## Removal -/

/-- The text with the characters behind `pos` up to `stop` moved back by one. -/
def moveDown (text : Nat → UInt8) (pos stop i : Nat) : UInt8 :=
  if pos ≤ i ∧ i < stop then text (i + 1) else text i

theorem deleteLoop_run (box : TextBox) (h : pos + rounds < maxStringNum) :
    (deleteLoop rounds pos).run box =
      .ok ((), { box with text := moveDown box.text pos (pos + rounds) }) := by
  induction rounds generalizing box pos with
  | zero =>
    have none : moveDown box.text pos (pos + 0) = box.text := by
      funext i
      exact if_neg (by omega)
    rw [none]
    rfl
  | succ rounds ih =>
    have read := readText_run box (i := pos + 1) (by omega)
    have write := writeText_run box (i := pos) (by omega) (box.text (pos + 1))
    have rest := ih { box with text := update box.text pos (box.text (pos + 1)) }
      (show pos + 1 + rounds < maxStringNum by omega)
    have moved : moveDown (update box.text pos (box.text (pos + 1))) (pos + 1)
        (pos + 1 + rounds) = moveDown box.text pos (pos + (rounds + 1)) := by
      funext i
      simp only [moveDown]
      by_cases first : i = pos
      · subst first
        simp
      · have same : pos + 1 ≤ i ∧ i < pos + 1 + rounds ↔ pos ≤ i ∧ i < pos + (rounds + 1) := by
          omega
        simp only [same, update_of_ne first]
        split
        · rw [update_of_ne (by omega)]
        · rfl
    push_cast at read rest
    rw [deleteLoop, run_bind read, run_bind write, rest, moved]

/-- The character before the cursor is removed, if there is one. -/
theorem Represents.delete (h : Represents box doc cur) :
    ∃ box', deleteCharacter.run box = .ok ((), box') ∧
      Represents box' (if cur = 0 then doc else doc.eraseIdx (cur - 1)) (cur - 1) := by
  have inside := h.inside
  have fits := h.fits
  obtain ⟨cursor, textLength, text⟩ := box
  obtain rfl : cursor = cur := h.cursor
  obtain rfl : textLength = doc.length := h.length
  rw [deleteCharacter, run_get_bind]
  cases cur with
  | zero => exact ⟨_, rfl, by simpa using h⟩
  | succ cur =>
    have rounds : ((doc.length : Int) - cur).toNat = doc.length - cur := by omega
    have spot : ((cur + 1 : Nat) : Int) - 1 = cur := by omega
    have ne : ¬ ((cur + 1 : Nat) : Int) = 0 := by omega
    have loop := deleteLoop_run ⟨cur, doc.length - 1, text⟩
      (show cur + (doc.length - cur) < maxStringNum by omega)
    have length : (doc.eraseIdx cur).length = doc.length - 1 := by
      rw [List.length_eraseIdx, if_pos (by omega)]
    refine ⟨⟨cur, doc.length - 1, moveDown text cur (cur + (doc.length - cur))⟩, ?_, ?_⟩
    · simp only [if_neg ne, spot, rounds]
      rw [run_set_bind, loop]
    · simp only [Nat.succ_ne_zero, if_false, Nat.add_sub_cancel]
      constructor
      case cursor => rfl
      case length =>
        simp only [length]
        omega
      case inside => omega
      case fits => omega
      case text =>
        intro i hi
        rw [length] at hi
        rw [List.getD_eq_getElem?_getD, List.getElem?_eraseIdx]
        simp only [moveDown]
        by_cases low : i < cur
        · rw [if_neg (by omega), if_pos low, ← List.getD_eq_getElem?_getD]
          exact h.text i (by omega)
        · rw [if_pos (by omega), if_neg low, ← List.getD_eq_getElem?_getD]
          exact h.text (i + 1) (by omega)
      case nonzero => exact fun mem => h.nonzero (List.mem_of_mem_eraseIdx mem)

/-! ## Lines -/

/-- The characters from `start` to `stop` are a line of the document. -/
structure IsLine (doc : List UInt8) (start stop : Nat) : Prop where
  ordered : start ≤ stop
  inside : stop ≤ doc.length
  plain : ∀ i, start ≤ i → i < stop → doc[i]? ≠ some newline
  starts : start = 0 ∨ doc[start - 1]? = some newline
  ends : stop = doc.length ∨ doc[stop]? = some newline

theorem exists_line_start (doc : List UInt8) (cur : Nat) :
    ∃ start ≤ cur, (∀ i, start ≤ i → i < cur → doc[i]? ≠ some newline) ∧
      (start = 0 ∨ doc[start - 1]? = some newline) := by
  induction cur with
  | zero => exact ⟨0, Nat.le_refl 0, by omega, .inl rfl⟩
  | succ cur ih =>
    by_cases stop : doc[cur]? = some newline
    · exact ⟨cur + 1, Nat.le_refl _, by omega, .inr stop⟩
    · obtain ⟨start, le, plain, starts⟩ := ih
      refine ⟨start, Nat.le_succ_of_le le, ?_, starts⟩
      intro i low high
      obtain lt | rfl := Nat.lt_succ_iff_lt_or_eq.mp high
      · exact plain i low lt
      · exact stop

theorem exists_line_end (doc : List UInt8) {cur : Nat} (h : cur ≤ doc.length) :
    ∃ stop, cur ≤ stop ∧ stop ≤ doc.length ∧
      (∀ i, cur ≤ i → i < stop → doc[i]? ≠ some newline) ∧
      (stop = doc.length ∨ doc[stop]? = some newline) := by
  induction h using Nat.decreasingInduction with
  | self => exact ⟨doc.length, Nat.le_refl _, Nat.le_refl _, by omega, .inl rfl⟩
  | of_succ cur lt ih =>
    by_cases stop : doc[cur]? = some newline
    · exact ⟨cur, Nat.le_refl _, Nat.le_of_lt lt, by omega, .inr stop⟩
    · obtain ⟨stop', le, inside, plain, ends⟩ := ih
      refine ⟨stop', Nat.le_of_succ_le le, inside, ?_, ends⟩
      intro i low high
      obtain rfl | low := Nat.eq_or_lt_of_le low
      · exact stop
      · exact plain i low high

/-- Every position is in a line. -/
theorem exists_line (h : cur ≤ doc.length) :
    ∃ start stop, IsLine doc start stop ∧ start ≤ cur ∧ cur ≤ stop := by
  obtain ⟨start, low, before, starts⟩ := exists_line_start doc cur
  obtain ⟨stop, high, inside, after, ends⟩ := exists_line_end doc h
  refine ⟨start, stop, ⟨Nat.le_trans low high, inside, ?_, starts, ends⟩, low, high⟩
  intro i hi lt
  by_cases left : i < cur
  · exact before i hi left
  · exact after i (by omega) lt

/-- A line that does not start the document is behind another. -/
theorem IsLine.previous (h : IsLine doc start stop) (pos : 0 < start) :
    ∃ start', IsLine doc start' (start - 1) := by
  obtain ⟨start', low, plain, starts⟩ := exists_line_start doc (start - 1)
  have ordered := h.ordered
  have inside := h.inside
  exact ⟨start', low, by omega, plain, starts, .inr (h.starts.resolve_left (by omega))⟩

/-- A line that does not end the document is in front of another. -/
theorem IsLine.next (h : IsLine doc start stop) (more : stop < doc.length) :
    ∃ stop', IsLine doc (stop + 1) stop' := by
  obtain ⟨stop', low, inside, plain, ends⟩ := exists_line_end doc (show stop + 1 ≤ doc.length from more)
  exact ⟨stop', low, inside, plain, .inr (h.ends.resolve_left (by omega)), ends⟩

/-! ## The cursor -/

theorem Represents.text_eq_newline (h : Represents box doc cur) (inside : i ≤ doc.length) :
    box.text i = newline ↔ doc[i]? = some newline := by
  rw [h.text i inside, List.getD_eq_getElem?_getD]
  cases found : doc[i]? with
  | none => simp [newline]
  | some c => simp

theorem Represents.text_eq_zero (h : Represents box doc cur) (inside : i ≤ doc.length) :
    box.text i = 0 ↔ i = doc.length := by
  rw [h.text i inside]
  obtain lt | rfl := Nat.lt_or_eq_of_le inside
  · rw [List.getD_eq_getElem _ _ lt]
    have ne : doc[i] ≠ 0 := fun zero => h.nonzero (zero ▸ List.getElem_mem lt)
    simp only [ne, false_iff]
    omega
  · simp

theorem Represents.cursor_eq (h : Represents box doc cur) : { box with cursor := (cur : Int) } = box := by
  rw [← h.cursor]

theorem Represents.withCursor (h : Represents box doc cur) {cur' : Nat} (inside : cur' ≤ doc.length) :
    Represents { box with cursor := cur' } doc cur' :=
  ⟨rfl, h.length, inside, h.fits, h.text, h.nonzero⟩

/-- The loop back to a newline ends in front of the line. -/
theorem Represents.lineStartLoop_run (h : Represents box doc cur)
    (line : IsLine doc start stop) (low : start ≤ pos) (high : pos ≤ stop)
    (lineIndex : Int) :
    (lineStartLoop pos (pos - 1) lineIndex).run box =
      .ok (((start : Int) - 1, lineIndex + (pos - start)), box) := by
  have fits := h.fits
  have inside := line.inside
  induction pos generalizing lineIndex with
  | zero =>
    obtain rfl : start = 0 := by omega
    have column : lineIndex + (((0 : Nat) : Int) - (0 : Nat)) = lineIndex := by omega
    rw [column]
    rfl
  | succ pos ih =>
    have index : ((pos + 1 : Nat) : Int) - 1 = pos := by omega
    have read := readText_run box (show pos < maxStringNum by omega)
    rw [index, lineStartLoop, if_pos (by omega), run_bind read]
    by_cases here : start = pos + 1
    · have stop : box.text pos = newline := by
        rw [h.text_eq_newline (by omega)]
        simpa [here] using line.starts
      have column : lineIndex + (((pos + 1 : Nat) : Int) - (pos + 1 : Nat)) = lineIndex := by omega
      rw [if_neg (not_not.mpr stop), here, index, column]
      rfl
    · have plain : box.text pos ≠ newline := by
        rw [Ne, h.text_eq_newline (by omega)]
        exact line.plain pos (by omega) (by omega)
      have column : lineIndex + 1 + ((pos : Int) - start) =
          lineIndex + (((pos + 1 : Nat) : Int) - start) := by omega
      rw [if_pos plain, ih (by omega) (by omega), column]

/-- The loop on to a newline ends behind the line, or finds the end of the text. -/
theorem Represents.lineEndLoop_run (h : Represents box doc cur)
    (line : IsLine doc start stop) {j : Nat} (low : start ≤ j) (high : j ≤ stop)
    (enough : j + rounds = doc.length + 1) :
    (lineEndLoop rounds j).run box =
      .ok (if stop = doc.length then none else some (stop : Int), box) := by
  have fits := h.fits
  have inside := line.inside
  induction rounds generalizing j with
  | zero => omega
  | succ rounds ih =>
    have read := readText_run box (show j < maxStringNum by omega)
    have more : (j : Int) ≤ box.textLength := by
      rw [h.length]
      omega
    rw [lineEndLoop, run_get_bind, if_pos more, run_bind read]
    obtain lt | rfl := Nat.lt_or_eq_of_le high
    · have plain : box.text j ≠ newline := by
        rw [Ne, h.text_eq_newline (by omega)]
        exact line.plain j low lt
      have nonzero : box.text j ≠ 0 := by
        rw [Ne, h.text_eq_zero (by omega)]
        omega
      rw [if_neg plain, run_bind read, if_neg nonzero]
      exact ih (j := j + 1) (by omega) lt (by omega)
    · obtain last | newline := line.ends
      · have plain : box.text j ≠ App.newline := by
          rw [Ne, h.text_eq_newline inside, last]
          simp
        rw [if_neg plain, run_bind read, if_pos ((h.text_eq_zero inside).mpr last), if_pos last]
        rfl
      · have lt : j ≠ doc.length := by
          rintro rfl
          simp at newline
        rw [if_pos ((h.text_eq_newline inside).mpr newline), if_neg lt]
        rfl

/-- The loop on to the end of the next line. -/
theorem Represents.nextEndLoop_run (h : Represents box doc cur)
    (line : IsLine doc start stop) (low : start ≤ i) (high : i ≤ stop)
    (enough : i + rounds = doc.length + 1) :
    (nextEndLoop rounds i).run box = .ok ((stop : Int), box) := by
  have fits := h.fits
  have inside := line.inside
  induction rounds generalizing i with
  | zero => omega
  | succ rounds ih =>
    have read := readText_run box (show i < maxStringNum by omega)
    have more : (i : Int) ≤ box.textLength := by
      rw [h.length]
      omega
    rw [nextEndLoop, run_get_bind, if_pos more, run_bind read, run_bind read]
    obtain lt | rfl := Nat.lt_or_eq_of_le high
    · have plain : ¬ (box.text i = newline ∨ box.text i = 0) := by
        rw [h.text_eq_newline (by omega), h.text_eq_zero (by omega)]
        rintro (stop | stop)
        · exact line.plain i low lt stop
        · omega
      rw [if_neg plain]
      exact ih (i := i + 1) (by omega) lt (by omega)
    · have found : box.text i = newline ∨ box.text i = 0 := by
        rw [h.text_eq_newline inside, h.text_eq_zero inside]
        exact line.ends.symm
      rw [if_pos found]
      rfl

theorem setCursor_run (box : TextBox) (stop start column : Nat) :
    (setCursor stop ((start : Int) - 1) column).run box =
      .ok ((), { box with cursor := (min (start + column) stop : Nat) }) := by
  have spot : (if (stop : Int) < (start : Int) - 1 + 1 + column then (stop : Int)
      else (start : Int) - 1 + 1 + column) = (min (start + column) stop : Nat) := by
    split <;> omega
  show Except.ok _ = _
  rw [spot]

/-- The key to the left. -/
theorem Represents.left (h : Represents box doc cur) :
    (moveCursor keyLf).run box = .ok ((), { box with cursor := (cur - 1 : Nat) }) := by
  have inside := h.inside
  have left : (if box.cursor > 0 then box.cursor - 1 else box.cursor) = ((cur - 1 : Nat) : Int) := by
    rw [h.cursor]
    split <;> omega
  rw [moveCursor, run_get_bind]
  by_cases empty : box.textLength = 0
  · rw [if_pos empty]
    rw [h.length] at empty
    obtain rfl : cur = 0 := by omega
    exact congrArg (fun box => Except.ok ((), box)) h.cursor_eq.symm
  · rw [if_neg empty, if_pos rfl, left]
    rfl

/-- Where the key to the right leads: it stops in front of a newline. -/
def rightOf (doc : List UInt8) (cur : Nat) : Nat :=
  if doc[cur]? = none ∨ doc[cur]? = some newline then cur else cur + 1

theorem rightOf_le (h : cur ≤ doc.length) : rightOf doc cur ≤ doc.length := by
  rw [rightOf]
  split
  · exact h
  · rename_i more
    by_contra
    exact more (.inl (List.getElem?_eq_none (by omega)))

/-- The key to the right. -/
theorem Represents.right (h : Represents box doc cur) :
    (moveCursor keyRt).run box = .ok ((), { box with cursor := (rightOf doc cur : Nat) }) := by
  have inside := h.inside
  have fits := h.fits
  have stays : (moveCursor keyRt).run box = .ok ((), box) → rightOf doc cur = cur →
      (moveCursor keyRt).run box = .ok ((), { box with cursor := (rightOf doc cur : Nat) }) := by
    intro run same
    rw [run, same, h.cursor_eq]
  by_cases empty : box.textLength = 0
  · refine stays ?_ ?_
    · rw [moveCursor, run_get_bind, if_pos empty]
      rfl
    · rw [h.length] at empty
      exact if_pos (.inl (List.getElem?_eq_none (by omega)))
  have read := readText_run box (show cur < maxStringNum by omega)
  have guard : (box.text cur ≠ 0 ∧ box.text cur ≠ newline) ↔
      ¬ (doc[cur]? = none ∨ doc[cur]? = some newline) := by
    rw [Ne, Ne, h.text_eq_zero inside, h.text_eq_newline inside, List.getElem?_eq_none_iff]
    have : cur = doc.length ↔ doc.length ≤ cur := by omega
    simp [this]
  rw [moveCursor, run_get_bind, if_neg empty, if_neg (by decide), if_pos rfl, h.cursor,
    run_bind read, run_bind read, rightOf]
  by_cases more : box.text cur ≠ 0 ∧ box.text cur ≠ newline
  · rw [if_pos more, if_neg (guard.mp more)]
    rfl
  · rw [if_neg more, if_pos (not_not.mp (guard.not.mp more)), h.cursor_eq]
    rfl

section UpDown

variable {start stop : Nat}

theorem Represents.lineIndex (h : Represents box doc cur) (line : IsLine doc start stop)
    (low : start ≤ cur) (high : cur ≤ stop) :
    (lineStartLoop box.cursor.toNat (box.cursor - 1) 0).run box =
      .ok (((start : Int) - 1, ((cur - start : Nat) : Int)), box) := by
  have column : (0 : Int) + ((cur : Int) - start) = ((cur - start : Nat) : Int) := by omega
  rw [h.cursor, Int.toNat_natCast, h.lineStartLoop_run line low high, column]

/-- The key up does nothing in the first line. -/
theorem Represents.up_first (h : Represents box doc cur) (line : IsLine doc 0 stop)
    (high : cur ≤ stop) : (moveCursor keyUp).run box = .ok ((), box) := by
  rw [moveCursor, run_get_bind]
  split
  · rfl
  · rw [if_neg (by decide), if_neg (by decide), if_pos rfl,
      run_bind (h.lineIndex line (Nat.zero_le _) high)]
    rfl

/-- The key up keeps the column in the line above, as far as that line goes. -/
theorem Represents.up (h : Represents box doc cur) (line : IsLine doc start stop)
    (low : start ≤ cur) (high : cur ≤ stop) (pos : 0 < start) {above : Nat}
    (previous : IsLine doc above (start - 1)) :
    (moveCursor keyUp).run box =
      .ok ((), { box with cursor := (min (above + (cur - start)) (start - 1) : Nat) }) := by
  have inside := line.inside
  have length : ¬ box.textLength = 0 := by
    rw [h.length]
    omega
  have before : (start : Int) - 1 = ((start - 1 : Nat) : Int) := by omega
  have back := h.lineStartLoop_run previous previous.ordered (Nat.le_refl _) 0
  rw [moveCursor, run_get_bind, if_neg length, if_neg (by decide), if_neg (by decide), if_pos rfl,
    run_bind (h.lineIndex line low high)]
  dsimp only
  rw [before, if_neg (by omega), Int.toNat_natCast, run_bind back]
  exact setCursor_run box (start - 1) above (cur - start)

/-- The loops of the key down, in a line. -/
theorem Represents.down_line (h : Represents box doc cur) (line : IsLine doc start stop)
    (low : start ≤ cur) (high : cur ≤ stop) :
    (lineEndLoop (box.textLength - ((start : Int) - 1)).toNat ((start : Int) - 1 + 1)).run box =
      .ok (if stop = doc.length then none else some (stop : Int), box) := by
  have inside := line.inside
  have rounds : (box.textLength - ((start : Int) - 1)).toNat = doc.length + 1 - start := by
    rw [h.length]
    omega
  have first : (start : Int) - 1 + 1 = (start : Nat) := by omega
  rw [rounds, first]
  exact h.lineEndLoop_run line (Nat.le_refl _) line.ordered (by omega)

/-- The key down does nothing in the last line. -/
theorem Represents.down_last (h : Represents box doc cur) (line : IsLine doc start doc.length)
    (low : start ≤ cur) : (moveCursor keyDn).run box = .ok ((), box) := by
  have loop := h.down_line line low h.inside
  rw [if_pos rfl] at loop
  rw [moveCursor, run_get_bind]
  split
  · rfl
  · rw [if_neg (by decide), if_neg (by decide), if_neg (by decide), if_pos rfl,
      run_bind (h.lineIndex line low h.inside)]
    dsimp only
    rw [run_bind loop]
    rfl

/-- The key down keeps the column in the line below, as far as that line goes. -/
theorem Represents.down (h : Represents box doc cur) (line : IsLine doc start stop)
    (low : start ≤ cur) (high : cur ≤ stop) (more : stop < doc.length) {below : Nat}
    (next : IsLine doc (stop + 1) below) :
    (moveCursor keyDn).run box =
      .ok ((), { box with cursor := (min (stop + 1 + (cur - start)) below : Nat) }) := by
  have inside := next.inside
  have ordered := next.ordered
  have length : ¬ box.textLength = 0 := by
    rw [h.length]
    omega
  have loop := h.down_line line low high
  rw [if_neg (by omega)] at loop
  have rounds : (box.textLength - stop).toNat = doc.length - stop := by
    rw [h.length]
    omega
  have last := h.nextEndLoop_run next (Nat.le_refl _) ordered
    (show stop + 1 + (doc.length - stop) = doc.length + 1 by omega)
  have set := setCursor_run box below (stop + 1) (cur - start)
  have cast : ((stop + 1 : Nat) : Int) = stop + 1 := rfl
  rw [cast] at last
  rw [cast, Int.add_sub_cancel] at set
  rw [moveCursor, run_get_bind, if_neg length, if_neg (by decide), if_neg (by decide),
    if_neg (by decide), if_pos rfl, run_bind (h.lineIndex line low high)]
  dsimp only
  rw [run_bind loop]
  dsimp only
  rw [rounds, run_bind last]
  exact set

end UpDown

/-- Another key does not move the cursor. -/
theorem moveCursor_other (box : TextBox) (left : ch ≠ keyLf) (right : ch ≠ keyRt) (up : ch ≠ keyUp)
    (down : ch ≠ keyDn) : (moveCursor ch).run box = .ok ((), box) := by
  rw [moveCursor, run_get_bind]
  split
  · rfl
  · rfl

/-- The cursor moves in the text. -/
theorem Represents.move (h : Represents box doc cur) (ch : UInt8) :
    ∃ cur' : Nat, cur' ≤ doc.length ∧
      (moveCursor ch).run box = .ok ((), { box with cursor := cur' }) := by
  have inside := h.inside
  have stays : (moveCursor ch).run box = .ok ((), box) → ∃ cur' : Nat, cur' ≤ doc.length ∧
      (moveCursor ch).run box = .ok ((), { box with cursor := cur' }) := by
    intro run
    exact ⟨cur, inside, by rw [run, h.cursor_eq]⟩
  obtain ⟨start, stop, line, low, high⟩ := exists_line inside
  by_cases left : ch = keyLf
  · subst left
    exact ⟨cur - 1, by omega, h.left⟩
  by_cases right : ch = keyRt
  · subst right
    exact ⟨rightOf doc cur, rightOf_le inside, h.right⟩
  by_cases up : ch = keyUp
  · subst up
    obtain rfl | pos := Nat.eq_zero_or_pos start
    · exact stays (h.up_first line high)
    · obtain ⟨above, previous⟩ := line.previous pos
      have := previous.inside
      exact ⟨_, by omega, h.up line low high pos previous⟩
  by_cases down : ch = keyDn
  · subst down
    obtain more | rfl := Nat.lt_or_eq_of_le line.inside
    · obtain ⟨below, next⟩ := line.next more
      have := next.inside
      exact ⟨_, by omega, h.down line low high more next⟩
    · exact stays (h.down_last line low)
  exact stays (moveCursor_other box left right up down)

/-! ## Keys -/

/-- The keys that insert a character. -/
def Inserts (c : UInt8) : Prop := c ≠ 0 ∧ c < 225 ∧ c ≠ 8
  deriving Decidable

/-- There is room for what a key inserts. -/
def TextBox.Takes (box : TextBox) (c : UInt8) : Prop :=
  Inserts c → box.textLength + 1 < maxStringNum

/-- The text after a key. -/
def edited (c : UInt8) (doc : List UInt8) (cur : Nat) : List UInt8 :=
  if Inserts c then doc.insertIdx cur c
  else if c = 8 ∧ cur ≠ 0 then doc.eraseIdx (cur - 1)
  else doc

theorem Represents.edit (h : Represents box doc cur) {c : UInt8} (ne : c ≠ 0)
    (takes : box.Takes c) :
    ∃ box' cur', (editText c).run box = .ok ((), box') ∧
      Represents box' (edited c doc cur) cur' := by
  rw [editText, edited]
  by_cases inserts : c < 225 ∧ c ≠ 8
  · have room := takes ⟨ne, inserts⟩
    rw [h.length] at room
    obtain ⟨box', run, represents⟩ := h.insert (by omega) ne
    have yes : Inserts c := ⟨ne, inserts⟩
    simp only [if_pos inserts, if_pos yes]
    exact ⟨box', _, run, represents⟩
  · have no : ¬ Inserts c := fun h => inserts h.2
    simp only [if_neg inserts, if_neg no]
    by_cases back : c = 8
    · obtain ⟨box', run, represents⟩ := h.delete
      simp only [if_pos back]
      refine ⟨box', cur - 1, run, ?_⟩
      by_cases first : cur = 0
      · simpa [first] using represents
      · simpa [first, back] using represents
    · simp only [back, false_and, if_false]
      exact ⟨box, cur, rfl, h⟩

theorem Represents.key (h : Represents box doc cur) {c : UInt8} (takes : box.Takes c) :
    ∃ box' cur', (kbdintr c).run box = .ok ((), box') ∧
      Represents box' (edited c doc cur) cur' := by
  rw [kbdintr]
  split
  · rename_i ne
    obtain ⟨box', cur', edit, h'⟩ := h.edit ne takes
    rw [keyboardHandler, run_bind edit]
    split
    · obtain ⟨cur'', inside, move⟩ := h'.move c
      exact ⟨_, cur'', move, h'.withCursor inside⟩
    · exact ⟨box', cur', rfl, h'⟩
  · rename_i zero
    obtain rfl := not_not.mp zero
    exact ⟨box, cur, rfl, h⟩

/-- A key that is inserted into a full text box ends in an access outside of it. -/
theorem Represents.key_outside (h : Represents box doc cur) {c : UInt8} (full : ¬ box.Takes c) :
    (kbdintr c).run box = .error (.outside maxStringNum) := by
  rw [TextBox.Takes, Classical.not_imp, h.length] at full
  obtain ⟨⟨ne, inserts⟩, full⟩ := full
  have fits := h.fits
  rw [kbdintr, if_pos ne, keyboardHandler, editText, if_pos inserts]
  exact run_bind_error (h.insert_outside (by omega))

/-- The text box is well formed after `cat` if and only if the file is a string that fits. -/
theorem cat_wellFormed_iff (file : List UInt8) :
    (cat file).WellFormed ↔ file.length < maxStringNum ∧ 0 ∉ file := by
  constructor
  · intro h
    have fits := h.fits
    simp only [cat, List.length_take] at fits
    have short : file.length < maxStringNum := by omega
    refine ⟨short, fun zero => ?_⟩
    obtain ⟨i, hi, e⟩ := List.mem_iff_getElem.mp zero
    refine h.nonzero i ?_ ?_
    · simp only [cat, List.take_of_length_le (Nat.le_of_lt short)]
      omega
    · simp only [cat, List.take_of_length_le (Nat.le_of_lt short)]
      rw [List.getD_eq_getElem _ _ hi, e]
  · rintro ⟨short, nonzero⟩
    have all := List.take_of_length_le (Nat.le_of_lt short)
    have represents : Represents (cat file) file file.length := by
      constructor
      case cursor => simp [cat, all]
      case length => simp [cat, all]
      case inside => exact Nat.le_refl _
      case fits => exact short
      case text => simp [cat, all]
      case nonzero => exact nonzero
    exact represents.wellFormed

/-- A key is handled without an access outside of the text. -/
def KeyStep (box : TextBox) (c : UInt8) (box' : TextBox) : Prop :=
  (kbdintr c).run box = .ok ((), box')

/-- Text boxes stay well formed exactly if they are set up from a string that fits and every
key that is inserted finds room. -/
theorem text_box_well_formed (file : List UInt8) :
    ((cat file).WellFormed ↔ file.length < maxStringNum ∧ 0 ∉ file) ∧
    (∀ box : TextBox, box.WellFormed → ∀ c,
      ((∃ box', KeyStep box c box' ∧ box'.WellFormed) ↔ box.Takes c)) ∧
    ∀ keys box, file.length < maxStringNum → 0 ∉ file →
      Steps (Guarded KeyStep TextBox.Takes) (cat file) keys box → box.WellFormed := by
  have step : ∀ box : TextBox, box.WellFormed → ∀ c,
      ((∃ box', KeyStep box c box' ∧ box'.WellFormed) ↔ box.Takes c) := by
    intro box h c
    constructor
    · rintro ⟨box', run, _⟩
      by_contra full
      have outside := h.represents.key_outside full
      rw [KeyStep, outside] at run
      cases run
    · intro takes
      obtain ⟨box', cur', run, represents⟩ := h.represents.key takes
      exact ⟨box', run, represents.wellFormed⟩
  refine ⟨cat_wellFormed_iff file, step, ?_⟩
  intro keys box short nonzero run
  refine run.invariant ((cat_wellFormed_iff file).mpr ⟨short, nonzero⟩) ?_
  rintro box c box' h ⟨takes, next⟩
  obtain ⟨box'', run, h'⟩ := (step box h c).mpr takes
  cases run.symm.trans next
  exact h'

theorem text_box_well_formed_one_key :
    ∃ box, Steps (Guarded KeyStep TextBox.Takes) (cat [97]) [98] box ∧ box.WellFormed := by
  have run : Steps (Guarded KeyStep TextBox.Takes) (cat [97]) [98] _ :=
    .single ⟨fun _ => by decide, rfl⟩
  exact ⟨_, run, (text_box_well_formed [97]).2.2 [98] _ (by decide) (by decide) run⟩

/-- A key pressed in a document of 255 characters is written behind the text, and a file with
a zero, as the editor writes it, or of 256 characters gives a text box that is not well
formed. -/
theorem text_box_overflows :
    (cat (.replicate 255 97)).WellFormed ∧
      (kbdintr 98).run (cat (.replicate 255 97)) = .error (.outside 256) ∧
      ¬ (cat [97, 0]).WellFormed ∧ ¬ (cat (.replicate 256 97)).WellFormed := by
  have full : (cat (.replicate 255 97)).WellFormed := by
    rw [cat_wellFormed_iff, List.length_replicate]
    exact ⟨by decide, fun mem => absurd (List.eq_of_mem_replicate mem) (by decide)⟩
  refine ⟨full, full.represents.key_outside ?_, ?_, ?_⟩
  · intro takes
    have room := takes (by decide)
    simp only [cat, List.length_take, List.length_replicate] at room
    exact absurd room (by decide)
  · rw [cat_wellFormed_iff]
    decide
  · rw [cat_wellFormed_iff, List.length_replicate]
    exact fun h => absurd h.1 (by decide)

end Xv6Gui.App
