import Xv6Gui.App.TextBox
import Xv6Gui.Gui.TextLayout
import Xv6Gui.Kbd.Modifiers

/-!
# Typing

What scan codes do to a document.  `kbdintr` decodes them to characters, and `keyboardHandler`
inserts every character below 225 other than the backspace.  Which keys insert a character
(`Types`) and which of these characters have no glyph (`Unseen`) depends on the prefix `0xe0` and on
Ctrl, but not on Shift and Caps Lock.  Without a glyph are the escape and the tab key, almost all keys
with Ctrl, and `KEY_HOME`, which is 224: the first of the special keys is not among those that
`keyboardHandler` leaves out.
-/

namespace Xv6Gui.App

open Effect Runs

/-! ## The keys that insert a character -/

/-- The keys that insert a character: those after the prefix `0xe0`, those with Ctrl held, and
the others. -/
def Types (extended ctl : Bool) (data : UInt8) : Prop :=
  if extended then data = 0x17 ∨ data = 0x1c ∨ data = 0x35 ∧ ctl = false
  else if ctl then
    0x10 ≤ data ∧ data ≤ 0x19 ∨ data = 0x1c ∨ 0x1e ≤ data ∧ data ≤ 0x26 ∧ data ≠ 0x23 ∨
      0x2b ≤ data ∧ data ≤ 0x32
  else
    0x01 ≤ data ∧ data ≤ 0x39 ∧ data ∉ [0x0e, 0x1d, 0x2a, 0x36, 0x38] ∨
      0x47 ≤ data ∧ data ≤ 0x53
  deriving Decidable

/-- The keys among them whose character has no glyph: Home, and the keypad's Enter with Ctrl; with
Ctrl all but J, which is a newline; Escape and Tab. -/
def Unseen (extended ctl : Bool) (data : UInt8) : Prop :=
  if extended then data = 0x17 ∨ data = 0x1c ∧ ctl = true
  else if ctl then data ≠ 0x24
  else data = 0x01 ∨ data = 0x0f
  deriving Decidable

/-- The table that `charcode` takes. -/
def keymaps (ctl : Bool) : List (UInt8 → UInt8) :=
  if ctl then [Kbd.ctlmap] else [Kbd.normalmap, Kbd.shiftmap]

/-- What `Types` and `Unseen` say of a key is right for its character. -/
def Describes (extended ctl : Bool) (data c : UInt8) : Prop :=
  (Inserts c ↔ Types extended ctl data) ∧
    (Types extended ctl data → (Displayable c ↔ ¬ Unseen extended ctl data))
  deriving Decidable

/-- So it is for every character that the tables have for a key. -/
def Charted (data : UInt8) : Prop :=
  ∀ extended ctl, (keymaps ctl).all fun map =>
    Describes extended ctl data (map (if extended then data ||| 0x80 else data))
  deriving Decidable

theorem Charted.describes {data : UInt8} {ctl : Bool} {map : UInt8 → UInt8}
    (h : Charted data) (extended : Bool) (mem : map ∈ keymaps ctl) :
    Describes extended ctl data (map (if extended then data ||| 0x80 else data)) :=
  of_decide_eq_true (List.all_eq_true.mp (h extended ctl) map mem)

theorem keymaps_types (data : UInt8) : data &&& 0x80 ≠ 0 ∨ Charted data :=
  Kbd.forall_byte (by decide +kernel) data

theorem Types.low {extended ctl : Bool} {data : UInt8} :
    Types extended ctl data → data &&& 0x80 = 0 :=
  Kbd.forall_byte (P := fun data => ∀ extended ctl, Types extended ctl data → data &&& 0x80 = 0)
    (by decide +kernel) data extended ctl

/-- Caps Lock does not matter. -/
theorem swapCase_inserts (c : UInt8) : (Inserts (Kbd.swapCase c) ↔ Inserts c) ∧
    (Displayable (Kbd.swapCase c) ↔ Displayable c) :=
  Kbd.forall_byte (by decide +kernel) c

/-- The Ctrl keys have no character. -/
theorem ctl_silent (data : UInt8) : Kbd.togglecode data &&& Kbd.ctlBit = 0 ∧
    (Kbd.shiftcode data &&& Kbd.ctlBit = 0 ∨ ∀ ctl, (keymaps ctl).all fun map => map data = 0) :=
  Kbd.forall_byte (by decide +kernel) data

theorem charcode_mem (shift data : UInt8) :
    ∃ map ∈ keymaps (shift &&& Kbd.ctlBit ≠ 0), Kbd.charcode shift data = map data := by
  rw [Kbd.charcode]
  split_ifs with ctl held
  · exact ⟨Kbd.ctlmap, by simp [keymaps, ctl], rfl⟩
  · exact ⟨Kbd.shiftmap, by simp [keymaps, ctl], rfl⟩
  · exact ⟨Kbd.normalmap, by simp [keymaps, ctl], rfl⟩

/-- The character of a key is in the table for the modifiers before it. -/
theorem pressed_mem (shift data : UInt8) : ∃ map ∈ keymaps (shift &&& Kbd.ctlBit ≠ 0),
    (Kbd.pressed shift data).2 = map data ∨ (Kbd.pressed shift data).2 = Kbd.swapCase (map data) := by
  obtain ⟨map, mem, char⟩ :=
    charcode_mem ((shift ||| Kbd.shiftcode data) ^^^ Kbd.togglecode data) data
  have found : ∃ map ∈ keymaps (shift &&& Kbd.ctlBit ≠ 0),
      Kbd.charcode ((shift ||| Kbd.shiftcode data) ^^^ Kbd.togglecode data) data = map data := by
    obtain ⟨toggle, same | silent⟩ := ctl_silent data
    · rw [Kbd.xor_and_distrib, Kbd.or_and_distrib, toggle, same, UInt8.xor_zero, UInt8.or_zero] at mem
      exact ⟨map, mem, char⟩
    · obtain ⟨other, here, -⟩ := charcode_mem shift data
      have zero {ctl : Bool} {map : UInt8 → UInt8} (mem : map ∈ keymaps ctl) : map data = 0 :=
        of_decide_eq_true (List.all_eq_true.mp (silent ctl) map mem)
      exact ⟨other, here, by rw [char, zero mem, zero here]⟩
  obtain ⟨map, mem, char⟩ := found
  refine ⟨map, mem, ?_⟩
  simp only [Kbd.pressed, char]
  split
  · exact .inr rfl
  · exact .inl rfl

/-- What a scan code inserts, by the modifiers before it. -/
theorem scan_types (shift data : UInt8) :
    Describes (shift &&& Kbd.e0esc ≠ 0) (shift &&& Kbd.ctlBit ≠ 0) data
      (Kbd.scan shift data).2 := by
  by_cases low : data &&& 0x80 = 0
  · have press : data ≠ 0xe0 := by
      rintro rfl
      exact absurd low (by decide)
    have charted := (keymaps_types data).resolve_left (not_not.mpr low)
    have found : ∃ map ∈ keymaps (shift &&& Kbd.ctlBit ≠ 0), ∃ c,
        c = map (if shift &&& Kbd.e0esc ≠ 0 then data ||| 0x80 else data) ∧
        ((Kbd.scan shift data).2 = c ∨ (Kbd.scan shift data).2 = Kbd.swapCase c) := by
      rw [Kbd.scan, if_neg press, if_neg (not_not.mpr low)]
      split_ifs with extended
      · obtain ⟨map, mem, char⟩ := pressed_mem (shift &&& ~~~Kbd.e0esc) (data ||| 0x80)
        have kept : shift &&& ~~~Kbd.e0esc &&& Kbd.ctlBit = shift &&& Kbd.ctlBit :=
          Kbd.forall_byte (by decide +kernel) shift
        rw [kept] at mem
        exact ⟨map, mem, _, rfl, char⟩
      · obtain ⟨map, mem, char⟩ := pressed_mem shift data
        exact ⟨map, mem, _, rfl, char⟩
    obtain ⟨map, mem, c, rfl, char⟩ := found
    have table := charted.describes (shift &&& Kbd.e0esc ≠ 0) mem
    simp only [decide_eq_true_eq] at table
    obtain char | char := char
    · rw [char]
      exact table
    · obtain ⟨inserts, displayable⟩ := swapCase_inserts
        (map (if shift &&& Kbd.e0esc ≠ 0 then data ||| 0x80 else data))
      rw [char, Describes, inserts, displayable]
      exact table
  · have none : (Kbd.scan shift data).2 = 0 := by
      rw [Kbd.scan]
      split_ifs <;> rfl
    rw [none]
    exact ⟨iff_of_false (by decide) (low ·.low), fun types => absurd types.low low⟩

/-! ## Documents -/

/-- The modifiers of the keyboard and the text box it types into. -/
structure Typing where
  shift : UInt8
  box : TextBox

namespace Typing

/-- The character that a scan code stands for, 0 when there is none. -/
def decode (s : Typing) (data : UInt8) : UInt8 := (Kbd.scan s.shift data).2

/-- `kbdintr` for a scan code, without an access outside of the text. -/
def Step (s : Typing) (data : UInt8) (t : Typing) : Prop :=
  t.shift = (Kbd.scan s.shift data).1 ∧ KeyStep s.box (s.decode data) t.box

/-- A key that inserts a character is not one without a glyph, and the text has room. -/
def Allowed (s : Typing) (data : UInt8) : Prop :=
  Types (s.shift &&& Kbd.e0esc ≠ 0) (s.shift &&& Kbd.ctlBit ≠ 0) data →
    ¬ Unseen (s.shift &&& Kbd.e0esc ≠ 0) (s.shift &&& Kbd.ctlBit ≠ 0) data ∧
      s.box.textLength + 1 < maxStringNum

theorem allowed_iff {s : Typing} {data : UInt8} : s.Allowed data ↔
    (Inserts (s.decode data) →
      Displayable (s.decode data) ∧ s.box.textLength + 1 < maxStringNum) := by
  obtain ⟨types, displayable⟩ := scan_types s.shift data
  rw [Allowed, decode, types]
  exact forall_congr' fun here => by rw [displayable here]

end Typing

/-- The text is well formed, and all of it can be drawn. -/
structure TextBox.Legible (box : TextBox) : Prop where
  wellFormed : box.WellFormed
  displayable : ∀ i : Nat, i < box.textLength → Displayable (box.text i)

variable {box : TextBox} {doc : List UInt8} {cur : Nat}

theorem Represents.legible_iff (h : Represents box doc cur) :
    box.Legible ↔ ∀ c ∈ doc, Displayable c := by
  have text : ∀ (i : Nat) (lt : i < doc.length), box.text i = doc[i] := by
    intro i lt
    rw [h.text i (Nat.le_of_lt lt), List.getD_eq_getElem _ _ lt]
  constructor
  · intro legible c mem
    obtain ⟨i, lt, rfl⟩ := List.mem_iff_getElem.mp mem
    rw [← text i lt]
    exact legible.displayable i (by rw [h.length]; omega)
  · intro all
    refine ⟨h.wellFormed, fun i hi => ?_⟩
    have lt : i < doc.length := by
      rw [h.length] at hi
      omega
    rw [text i lt]
    exact all _ (List.getElem_mem lt)

/-- The drawing code reads the document. -/
theorem Represents.cstring_eq (h : Represents box doc cur) : cstring box.text = doc := by
  have fits := h.fits
  have stop : box.text doc.length = 0 := (h.text_eq_zero (Nat.le_refl _)).mpr rfl
  obtain ⟨n, split⟩ := Nat.exists_eq_add_of_lt fits
  have front : (List.range doc.length).map box.text = doc := by
    refine List.ext_getElem (by simp) fun i hi lt => ?_
    rw [List.getElem_map, List.getElem_range, h.text i (Nat.le_of_lt lt),
      List.getD_eq_getElem _ _ lt]
  have nonzero : ∀ c ∈ doc, decide (c ≠ 0) = true := by
    intro c mem
    rw [decide_eq_true_eq]
    exact fun zero => h.nonzero (zero ▸ mem)
  have range : List.range maxStringNum =
      List.range doc.length ++ doc.length :: (List.range n).map (doc.length + 1 + ·) := by
    rw [show maxStringNum = doc.length + 1 + n by rw [← Nat.add_right_comm]; exact split,
      List.range_add, List.range_succ, List.append_assoc]
    rfl
  rw [cstring, range, List.map_append, front, List.map_cons, List.takeWhile_append_of_pos nonzero,
    stop, List.takeWhile_cons_of_neg (by simp), List.append_nil]

/-- What a key leaves is displayable exactly if what it inserts is. -/
theorem edited_displayable {c : UInt8} (inside : cur ≤ doc.length)
    (all : ∀ c ∈ doc, Displayable c) :
    (∀ d ∈ edited c doc cur, Displayable d) ↔ (Inserts c → Displayable c) := by
  by_cases inserts : Inserts c
  · rw [edited, if_pos inserts]
    constructor
    · intro h _
      exact h c ((List.mem_insertIdx inside).mpr (.inl rfl))
    · intro h d mem
      obtain rfl | mem := (List.mem_insertIdx inside).mp mem
      · exact h inserts
      · exact all d mem
  · rw [edited, if_neg inserts]
    refine ⟨fun _ h => absurd h inserts, fun _ d mem => ?_⟩
    split at mem
    · exact all d (List.mem_of_mem_eraseIdx mem)
    · exact all d mem

/-- A scan code leaves a legible text exactly if it is allowed. -/
theorem Typing.step_iff {s : Typing} (legible : s.box.Legible) (data : UInt8) :
    (∃ t, s.Step data t ∧ t.box.Legible) ↔ s.Allowed data := by
  rw [allowed_iff]
  obtain ⟨doc, cur, h⟩ : ∃ doc cur, Represents s.box doc cur := ⟨_, _, legible.wellFormed.represents⟩
  have all := h.legible_iff.mp legible
  by_cases takes : s.box.Takes (s.decode data)
  · obtain ⟨box', cur', run, h'⟩ := h.key takes
    have iff : box'.Legible ↔ (Inserts (s.decode data) → Displayable (s.decode data)) := by
      rw [h'.legible_iff, edited_displayable h.inside all]
    constructor
    · rintro ⟨t, ⟨-, step⟩, legible'⟩ inserts
      cases step.symm.trans run
      exact ⟨iff.mp legible' inserts, takes inserts⟩
    · intro allowed
      exact ⟨⟨_, box'⟩, ⟨rfl, run⟩, iff.mpr fun inserts => (allowed inserts).1⟩
  · constructor
    · rintro ⟨t, ⟨-, step⟩, -⟩
      cases step.symm.trans (h.key_outside takes)
    · intro allowed
      exact absurd (fun inserts => (allowed inserts).2) takes

/-- Every character of a legible text has a glyph, and along a line each is drawn to the right
of the one before. -/
theorem TextBox.Legible.drawn (legible : box.Legible) (character : Font) (width : Int) :
    (∀ c ∈ cstring box.text, c ≠ newline → ∀ x y color,
      (drawCharacter character x y c color).2 ≠ -1) ∧
    (layout character width (cstring box.text) 9 0).Pairwise fun a b =>
      a.line = b.line → a.column < b.column := by
  obtain ⟨doc, cur, h⟩ : ∃ doc cur, Represents box doc cur := ⟨_, _, legible.wellFormed.represents⟩
  have all := h.legible_iff.mp legible
  rw [h.cstring_eq]
  refine ⟨fun c mem ne x y color => ?_, layout_increases all⟩
  rw [drawCharacter_glyphAdvance, Ne, glyphAdvance_eq_neg_one, not_not]
  exact (all c mem).resolve_left ne

/-- `KEY_HOME`. -/
def keyHome : UInt8 := 0xe0

/-- A document stays legible along every run of scan codes that insert only what is displayable
and finds room, and no other scan code keeps it so.  Of the special keys `KEY_HOME` alone is
inserted. -/
theorem typing_legible_iff (s₀ : Typing) :
    (s₀.box.Legible → ∀ data,
      ((∃ t, s₀.Step data t ∧ t.box.Legible) ↔ s₀.Allowed data)) ∧
    (∀ (s : Typing) (codes : List UInt8), s₀.box.Legible →
      Steps (Guarded Typing.Step Typing.Allowed) s₀ codes s → s.box.Legible) ∧
    (∀ box : TextBox, box.Legible → ∀ (character : Font) (width : Int),
      (∀ c ∈ cstring box.text, c ≠ newline → ∀ x y color,
        (drawCharacter character x y c color).2 ≠ -1) ∧
      (layout character width (cstring box.text) 9 0).Pairwise fun a b =>
        a.line = b.line → a.column < b.column) ∧
    ∀ key ∈ Kbd.specialKeys, Inserts key.2 ↔ key.2 = keyHome := by
  refine ⟨fun legible data => Typing.step_iff legible data, ?_,
    fun box legible character width => legible.drawn character width,
    List.forall_iff_forall_mem.mp (by decide)⟩
  intro s codes legible run
  refine run.invariant (I := fun s => s.box.Legible) legible ?_
  rintro s data t h ⟨allowed, step⟩
  obtain ⟨t', step', legible'⟩ := (Typing.step_iff h data).mpr allowed
  have same : t.box = t'.box :=
    congrArg Prod.snd (Except.ok.inj (step.2.symm.trans step'.2))
  rwa [same]

theorem empty_legible : (cat []).Legible := by
  constructor
  case wellFormed =>
    rw [cat_wellFormed_iff]
    decide
  case displayable =>
    intro i lt
    simp [cat] at lt
    omega

/-- A capital letter, and the Enter of the keypad. -/
theorem typing_legible_iff_line :
    ∃ t : Typing, Steps (Guarded Typing.Step Typing.Allowed) ⟨0, cat []⟩
      [0x2a, 0x1e, 0xaa, 0xe0, 0x1c] t ∧ t.box.textLength = 2 ∧ t.box.text 0 = 0x41 ∧
      t.box.text 1 = newline ∧ t.box.Legible := by
  have shift : Steps (Guarded Typing.Step Typing.Allowed) ⟨0, cat []⟩ [0x2a]
      ⟨Kbd.shiftBit, cat []⟩ :=
    .single ⟨fun types => absurd types (by decide +kernel), by decide +kernel, rfl⟩
  have letter : Steps (Guarded Typing.Step Typing.Allowed) ⟨0, cat []⟩ [0x2a, 0x1e]
      ⟨Kbd.shiftBit, _⟩ :=
    shift.snoc ⟨fun _ => ⟨by decide +kernel, by decide⟩, by decide +kernel, rfl⟩
  have release : Steps (Guarded Typing.Step Typing.Allowed) ⟨0, cat []⟩ [0x2a, 0x1e, 0xaa]
      ⟨0, _⟩ :=
    letter.snoc ⟨fun types => absurd types (by decide +kernel), by decide +kernel, rfl⟩
  have extended : Steps (Guarded Typing.Step Typing.Allowed) ⟨0, cat []⟩ [0x2a, 0x1e, 0xaa, 0xe0]
      ⟨Kbd.e0esc, _⟩ :=
    release.snoc ⟨fun types => absurd types (by decide +kernel), by decide +kernel, rfl⟩
  have enter : Steps (Guarded Typing.Step Typing.Allowed) ⟨0, cat []⟩ [0x2a, 0x1e, 0xaa, 0xe0, 0x1c]
      ⟨0, _⟩ :=
    extended.snoc ⟨fun _ => ⟨by decide +kernel, by decide⟩, by decide +kernel, rfl⟩
  exact ⟨_, enter, rfl, rfl, rfl, (typing_legible_iff _).2.1 _ _ empty_legible enter⟩

/-- The key `KEY_HOME` is inserted into an empty document, and has no glyph. -/
theorem home_key_inserted : (cat []).Legible ∧
    ∃ t : Typing, Steps Typing.Step ⟨0, cat []⟩ [0xe0, 0x17] t ∧ ¬ t.box.Legible ∧
      t.box.textLength = 1 ∧ t.box.text 0 = keyHome ∧
      ∀ (character : Font) (x y : Int) (color : RGB),
        (drawCharacter character x y keyHome color).2 = -1 := by
  have first : Typing.Step ⟨0, cat []⟩ 0xe0 ⟨0x40, cat []⟩ := ⟨by decide +kernel, rfl⟩
  have second : Typing.Step ⟨0x40, cat []⟩ 0x17 ⟨0, _⟩ := ⟨by decide +kernel, rfl⟩
  refine ⟨empty_legible, _, .snoc (.single first) second, ?_, rfl, rfl, ?_⟩
  · intro legible'
    exact absurd (legible'.displayable 0 (by decide)) (by decide)
  · intro character x y color
    rw [drawCharacter_glyphAdvance, glyphAdvance_eq_neg_one]
    decide

end Xv6Gui.App
