import Xv6Gui.App.TextBox

/-!
# The line editor

What the keys do to the document of a text box.  A character is inserted at the cursor, the
backspace key removes the one before it, and the keys up and down keep the column in the line
above or below.

The keys to the left and to the right are not the same: the key to the left goes back over a
newline, the key to the right stops in front of one.  So each undoes the other only within a
line, and the two alone never lead over a newline to the right.
-/

namespace Xv6Gui.App

open Effect Runs

variable {box box' : TextBox} {doc : List UInt8} {cur : Nat}

variable {pos : Nat}

/-- A key that only moves the cursor. -/
theorem keyboardHandler_move (ch : UInt8) (move : ch = 226 ∨ ch = 227 ∨ ch = 228 ∨ ch = 229) :
    (keyboardHandler ch).run box = (moveCursor ch).run box := by
  have edit : (editText ch).run box = .ok ((), box) := by
    rcases move with rfl | rfl | rfl | rfl <;> rfl
  rw [keyboardHandler, run_bind edit, if_pos move]

/-- The last character that was inserted is the one that is removed. -/
theorem Represents.insert_delete (h : Represents box doc cur)
    (room : doc.length + 1 < maxStringNum) {ch : UInt8} (ne : ch ≠ 0) :
    ∃ box' box'', (insertCharacter ch).run box = .ok ((), box') ∧
      Represents box' (doc.insertIdx cur ch) (cur + 1) ∧
      deleteCharacter.run box' = .ok ((), box'') ∧ Represents box'' doc cur := by
  obtain ⟨box', insert, h'⟩ := h.insert room ne
  obtain ⟨box'', delete, h''⟩ := h'.delete
  rw [if_neg (Nat.succ_ne_zero cur), Nat.add_sub_cancel, List.eraseIdx_insertIdx_self] at h''
  exact ⟨box', box'', insert, h', delete, h''⟩

theorem Represents.delete_first (h : Represents box doc 0) :
    deleteCharacter.run box = .ok ((), box) := by
  rw [deleteCharacter, run_get_bind]
  dsimp only
  rw [if_pos (show box.cursor = 0 from h.cursor)]
  rfl

/-- The key handlers implement a line editor. -/
theorem key_handlers_edit_lines (h : box.WellFormed) (short : box.textLength ≤ 254) :
    ∃ doc cur, Represents box doc cur ∧
      (∀ ch, ch ≠ 0 → ∃ box' box'', (insertCharacter ch).run box = .ok ((), box') ∧
        Represents box' (doc.insertIdx cur ch) (cur + 1) ∧
        deleteCharacter.run box' = .ok ((), box'') ∧ Represents box'' doc cur) ∧
      (cur = 0 → deleteCharacter.run box = .ok ((), box)) ∧
      (0 < cur → ∃ box', deleteCharacter.run box = .ok ((), box') ∧
        Represents box' (doc.eraseIdx (cur - 1)) (cur - 1)) ∧
      ∃ start stop, IsLine doc start stop ∧ start ≤ cur ∧ cur ≤ stop ∧
        (start = 0 → (keyboardHandler keyUp).run box = .ok ((), box)) ∧
        (0 < start → ∃ above, IsLine doc above (start - 1) ∧ (keyboardHandler keyUp).run box =
          .ok ((), { box with cursor := (min (above + (cur - start)) (start - 1) : Nat) })) ∧
        (stop = doc.length → (keyboardHandler keyDn).run box = .ok ((), box)) ∧
        (stop < doc.length → ∃ below, IsLine doc (stop + 1) below ∧
          (keyboardHandler keyDn).run box =
            .ok ((), { box with cursor := (min (stop + 1 + (cur - start)) below : Nat) })) := by
  obtain ⟨doc, cur, h⟩ : ∃ doc cur, Represents box doc cur := ⟨_, _, h.represents⟩
  have room : doc.length + 1 < maxStringNum := by
    rw [h.length] at short
    unfold maxStringNum
    omega
  obtain ⟨start, stop, line, low, high⟩ := exists_line h.inside
  refine ⟨doc, cur, h, fun ch ne => h.insert_delete room ne, ?_, ?_, start, stop, line, low, high,
    ?_, ?_, ?_, ?_⟩
  · rintro rfl
    exact h.delete_first
  · intro pos
    obtain ⟨box', delete, h'⟩ := h.delete
    rw [if_neg (Nat.ne_of_gt pos)] at h'
    exact ⟨box', delete, h'⟩
  · rintro rfl
    rw [keyboardHandler_move keyUp (by decide)]
    exact h.up_first line high
  · intro pos
    obtain ⟨above, previous⟩ := line.previous pos
    refine ⟨above, previous, ?_⟩
    rw [keyboardHandler_move keyUp (by decide)]
    exact h.up line low high pos previous
  · rintro rfl
    rw [keyboardHandler_move keyDn (by decide)]
    exact h.down_last line low
  · intro more
    obtain ⟨below, next⟩ := line.next more
    refine ⟨below, next, ?_⟩
    rw [keyboardHandler_move keyDn (by decide)]
    exact h.down line low high more next

theorem key_handlers_edit_lines_two :
    ∃ doc cur, Represents (cat [97, 10, 98]) doc cur ∧ (0 < cur →
      ∃ box', deleteCharacter.run (cat [97, 10, 98]) = .ok ((), box') ∧
        Represents box' (doc.eraseIdx (cur - 1)) (cur - 1)) := by
  have wellFormed : (cat [97, 10, 98]).WellFormed := by
    rw [cat_wellFormed_iff]
    decide
  obtain ⟨doc, cur, h, -, -, delete, -⟩ := key_handlers_edit_lines wellFormed (by decide)
  exact ⟨doc, cur, h, delete⟩

/-! ## Words -/

theorem insertIdx_append (p q : List UInt8) (c : UInt8) :
    (p ++ q).insertIdx p.length c = p ++ [c] ++ q := by
  induction p with
  | nil => rfl
  | cons d p ih => simpa using ih

/-- A word that is typed stands at the cursor, and as many backspaces remove it. -/
theorem word_undone {p q word : List UInt8} (h : Represents box (p ++ q) p.length)
    (keys : ∀ c ∈ word, c ≠ 0 ∧ c < 225 ∧ c ≠ 8) (room : (p ++ word ++ q).length < maxStringNum) :
    ∃ box' box'', Steps KeyStep box word box' ∧
      Represents box' (p ++ word ++ q) (p ++ word).length ∧
      Steps KeyStep box' (.replicate word.length 8) box'' ∧ Represents box'' (p ++ q) p.length := by
  induction word generalizing box p with
  | nil => exact ⟨box, box, .nil, by simpa using h, .nil, h⟩
  | cons c word ih =>
    obtain ⟨⟨ne, inserts⟩, keys⟩ := List.forall_mem_cons.mp keys
    obtain ⟨box₁, insert, h₁⟩ := h.insert (by grind) ne
    have key : KeyStep box c box₁ := by
      rw [KeyStep, kbdintr, if_pos ne, keyboardHandler, editText, if_pos inserts, run_bind insert,
        if_neg (by rintro (rfl | rfl | rfl | rfl) <;> simp at inserts)]
      rfl
    rw [List.append_cons] at room ⊢
    obtain ⟨box', box₂, typed, h', back, h₂⟩ :=
      ih (p := p ++ [c]) (by simpa [insertIdx_append] using h₁) keys room
    obtain ⟨box'', delete, h''⟩ := h₂.delete
    refine ⟨box', box'', (Steps.single key).trans typed, h', ?_,
      by simpa [List.eraseIdx_append_of_length_le] using h''⟩
    rw [List.length_cons, List.replicate_succ']
    exact .snoc back (run_bind delete)

theorem word_undone_ab : ∃ box' box'', Steps KeyStep (cat []) [97, 98] box' ∧
    Represents box' [97, 98] 2 ∧ Steps KeyStep box' [8, 8] box'' ∧ Represents box'' [] 0 :=
  word_undone (p := []) (q := [])
    ((cat_wellFormed_iff []).mpr (by decide)).represents (by simp) (by decide)

/-! ## Left and right -/

/-- The keys that move along a line. -/
def Sideways (c : UInt8) : Prop := c = keyLf ∨ c = keyRt

theorem Represents.key_left (h : Represents box doc cur) :
    (kbdintr keyLf).run box = .ok ((), { box with cursor := (cur - 1 : Nat) }) := by
  rw [kbdintr, if_pos (by decide), keyboardHandler_move keyLf (by decide)]
  exact h.left

theorem Represents.key_right (h : Represents box doc cur) :
    (kbdintr keyRt).run box = .ok ((), { box with cursor := (rightOf doc cur : Nat) }) := by
  rw [kbdintr, if_pos (by decide), keyboardHandler_move keyRt (by decide)]
  exact h.right

theorem rightOf_of_ne (more : cur < doc.length) (ne : doc[cur]? ≠ some newline) :
    rightOf doc cur = cur + 1 := by
  refine if_neg ?_
  rintro (none | stop)
  · rw [List.getElem?_eq_none_iff] at none
    omega
  · exact ne stop

/-- A run of keys to the left and to the right from one position of the text to another. -/
def Reaches (box : TextBox) (pos : Nat) : Prop :=
  ∃ keys, (∀ c ∈ keys, Sideways c) ∧ Steps KeyStep box keys { box with cursor := pos }

theorem Reaches.step {c : UInt8} {next : Nat} (run : Reaches box pos) (key : Sideways c)
    (step : KeyStep { box with cursor := pos } c { box with cursor := next }) :
    Reaches box next := by
  obtain ⟨keys, sideways, run⟩ := run
  refine ⟨keys ++ [c], ?_, .snoc run step⟩
  intro d mem
  obtain mem | rfl := List.mem_append.mp mem |>.imp_right List.mem_singleton.mp
  · exact sideways d mem
  · exact key

theorem Represents.reaches_back (h : Represents box doc cur) {n : Nat} (le : n ≤ cur) :
    Reaches box (cur - n) := by
  induction n with
  | zero => exact ⟨[], by simp, by rw [Nat.sub_zero, h.cursor_eq]; exact .nil⟩
  | succ n ih =>
    have inside := h.inside
    refine (ih (by omega)).step (.inl rfl) ?_
    exact (h.withCursor (show cur - n ≤ doc.length by omega)).key_left

theorem Represents.reaches_on (h : Represents box doc cur) (le : cur ≤ pos)
    (inside : pos ≤ doc.length) (plain : ∀ i, cur ≤ i → i < pos → doc[i]? ≠ some newline) :
    Reaches box pos := by
  induction le with
  | refl => exact h.reaches_back (Nat.zero_le _)
  | @step pos le ih =>
    have step := (h.withCursor (show pos ≤ doc.length by omega)).key_right
    rw [rightOf_of_ne inside (plain pos le (Nat.lt_succ_self _))] at step
    exact (ih (by omega) fun i low high => plain i low (by omega)).step (.inr rfl) step

/-- A key to the left or to the right does not lead over a newline to the right. -/
theorem Represents.sideways_step {c : UInt8} (h : Represents box doc pos)
    (key : Sideways c) (step : KeyStep box c box') (plain : ∀ i, cur ≤ i → i < pos →
      doc[i]? ≠ some newline) :
    ∃ pos', Represents box' doc pos' ∧ ∀ i, cur ≤ i → i < pos' → doc[i]? ≠ some newline := by
  rcases key with rfl | rfl
  · cases step.symm.trans h.key_left
    have inside := h.inside
    exact ⟨pos - 1, h.withCursor (by omega), fun i low high => plain i low (by omega)⟩
  · cases step.symm.trans h.key_right
    refine ⟨rightOf doc pos, h.withCursor (rightOf_le h.inside), ?_⟩
    intro i low high
    rw [rightOf] at high
    split at high
    · exact plain i low high
    · rename_i more
      obtain lt | rfl := Nat.lt_succ_iff_lt_or_eq.mp high
      · exact plain i low lt
      · exact fun stop => more (.inr stop)

theorem Represents.reaches_iff (h : Represents box doc cur) (inside : pos ≤ doc.length) :
    Reaches box pos ↔ ∀ i, cur ≤ i → i < pos → doc[i]? ≠ some newline := by
  constructor
  · rintro ⟨keys, sideways, run⟩
    have reached : (∀ c ∈ keys, Sideways c) →
        ∃ pos', Represents { box with cursor := (pos : Int) } doc pos' ∧
          ∀ i, cur ≤ i → i < pos' → doc[i]? ≠ some newline := by
      refine run.invariant_hist (I := fun keys box' => (∀ c ∈ keys, Sideways c) →
        ∃ pos', Represents box' doc pos' ∧ ∀ i, cur ≤ i → i < pos' → doc[i]? ≠ some newline) ?_ ?_
      · exact fun _ => ⟨cur, h, fun i low high => by omega⟩
      · intro keys box' c box'' ih step sideways
        obtain ⟨pos', h', plain⟩ := ih fun d mem => sideways d (List.mem_append_left _ mem)
        exact h'.sideways_step (sideways c (by simp)) step plain
    obtain ⟨pos', h', plain⟩ := reached sideways
    obtain rfl : pos = pos' := by
      have := h'.cursor
      simp only at this
      omega
    exact plain
  · intro plain
    obtain le | le := Nat.le_total cur pos
    · exact h.reaches_on le inside plain
    · obtain ⟨n, rfl⟩ := Nat.exists_eq_add_of_le le
      simpa using h.reaches_back (n := n) (by omega)

/-- Two keys that set the cursor undo each other if the second one sets it back. -/
theorem Represents.undone_iff (h : Represents box doc cur) {c d : UInt8} {m n : Nat}
    (first : KeyStep box c { box with cursor := m })
    (second : KeyStep { box with cursor := m } d { box with cursor := n }) :
    (∃ box', KeyStep box c box' ∧ KeyStep box' d box) ↔ n = cur := by
  constructor
  · rintro ⟨box', step, step'⟩
    cases step.symm.trans first
    have same : box = { box with cursor := (n : Int) } :=
      congrArg Prod.snd (Except.ok.inj (step'.symm.trans second))
    have cursor := h.cursor
    rw [same] at cursor
    exact Int.ofNat.inj cursor
  · rintro rfl
    rw [h.cursor_eq] at second
    exact ⟨_, first, second⟩

/-- The keys to the left and to the right undo each other within a line: left then right does
unless a newline is before the cursor, right then left unless one is under it, and a position
is reached by the two alone if no newline is between. -/
theorem left_right_within_lines (h : box.WellFormed) :
    ∃ doc cur, Represents box doc cur ∧
      (0 < cur → ((∃ box', KeyStep box keyLf box' ∧ KeyStep box' keyRt box) ↔
        doc[cur - 1]? ≠ some newline)) ∧
      (cur < doc.length → ((∃ box', KeyStep box keyRt box' ∧ KeyStep box' keyLf box) ↔
        cur = 0 ∨ doc[cur]? ≠ some newline)) ∧
      ∀ pos ≤ doc.length, (Reaches box pos ↔
        ∀ i, cur ≤ i → i < pos → doc[i]? ≠ some newline) := by
  obtain ⟨doc, cur, h⟩ : ∃ doc cur, Represents box doc cur := ⟨_, _, h.represents⟩
  have inside := h.inside
  refine ⟨doc, cur, h, ?_, ?_, fun pos inside => h.reaches_iff inside⟩
  · intro pos
    rw [h.undone_iff h.key_left (h.withCursor (by omega)).key_right]
    constructor
    · intro same stop
      rw [rightOf, if_pos (.inr stop)] at same
      omega
    · intro ne
      rw [rightOf_of_ne (by omega) ne]
      omega
  · intro more
    rw [h.undone_iff h.key_right (h.withCursor (rightOf_le inside)).key_left]
    by_cases stop : doc[cur]? = some newline
    · rw [rightOf, if_pos (.inr stop)]
      simp only [stop, ne_eq, not_true_eq_false, or_false]
      omega
    · rw [rightOf_of_ne more stop]
      simp [stop]

theorem left_right_within_lines_abc :
    ∃ doc cur, Represents (cat [97, 98, 99]) doc cur ∧ (0 < cur →
      ((∃ box', KeyStep (cat [97, 98, 99]) keyLf box' ∧ KeyStep box' keyRt (cat [97, 98, 99])) ↔
        doc[cur - 1]? ≠ some newline)) := by
  have wellFormed : (cat [97, 98, 99]).WellFormed := by
    rw [cat_wellFormed_iff]
    decide
  obtain ⟨doc, cur, h, leftRight, -⟩ := left_right_within_lines wellFormed
  exact ⟨doc, cur, h, leftRight⟩

/-- Behind a newline, left then right leads one position back. -/
theorem left_right_over_newline :
    (cat [97, 10]).WellFormed ∧ (cat [97, 10]).cursor = 2 ∧
      ∃ box' box'', KeyStep (cat [97, 10]) keyLf box' ∧ KeyStep box' keyRt box'' ∧
        box''.cursor = 1 := by
  have wellFormed : (cat [97, 10]).WellFormed := by
    rw [cat_wellFormed_iff]
    decide
  exact ⟨wellFormed, rfl, _, _, rfl, rfl, rfl⟩

end Xv6Gui.App
