import Mathlib.Data.Finset.Insert
import Mathlib.Data.Finset.Erase
import Xv6Gui.Kbd.Scan

/-!
# Modifiers and the keys held

What a keyboard sends for its keys, decoded by `scan`.  The two keys of a modifier share one bit of
`shift`: each press sets it, repeated ones included, and each release clears it.  So the bit says
whether a key of the modifier is held until one of the two is released while the other is down.
-/

namespace Xv6Gui.Kbd

/-- A key of the keyboard.  It sends its code when it is pressed and the code with the high bit when
it is released, and `0xe0` before each if it is one of the extended keys. -/
structure Key where
  extended : Bool
  code : UInt8
  low : code < 0x80
  /-- The code of its release is not the prefix itself. -/
  plain : code ≠ 0x60
deriving DecidableEq

/-- The bytes of a key, for its code. -/
def Key.codes (k : Key) (data : UInt8) : List UInt8 :=
  if k.extended then [0xe0, data] else [data]

/-- Where the tables have the key. -/
def Key.index (k : Key) : UInt8 := if k.extended then k.code ||| 0x80 else k.code

/-- The bit of the modifier that the key stands for: the two keys of Ctrl and of Alt have the same
code, the two of Shift do not. -/
def Key.modifier (k : Key) : UInt8 :=
  if k.code = 0x1d then ctlBit
  else if k.code = 0x38 then altBit
  else if (k.code = 0x2a ∨ k.code = 0x36) ∧ k.extended = false then shiftBit
  else 0

/-- A held key is pressed again when it repeats. -/
inductive KeyEvent where
  | press (k : Key)
  | release (k : Key)

/-- The bytes of an event. -/
def KeyEvent.codes : KeyEvent → List UInt8
  | press k => k.codes k.code
  | release k => k.codes (k.code ||| 0x80)

/-- The keys held after an event. -/
def KeyEvent.held (held : Finset Key) : KeyEvent → Finset Key
  | press k => insert k held
  | release k => held.erase k

/-- `shift`, and the keys that are held. -/
structure Keyboard where
  shift : UInt8
  held : Finset Key

/-- `kbdintr` for each code in turn. -/
def scanned (shift : UInt8) (codes : List UInt8) : UInt8 :=
  codes.foldl (fun shift data => (scan shift data).1) shift

/-- The keyboard after an event. -/
def Keyboard.after (s : Keyboard) (e : KeyEvent) : Keyboard :=
  ⟨scanned s.shift e.codes, e.held s.held⟩

/-- No key is held at the start, and `shift` is 0. -/
def typed (es : List KeyEvent) : Keyboard := es.foldl Keyboard.after ⟨0, ∅⟩

/-- A bit is set if a key of the modifier is held, and only then. -/
def Keyboard.Follows (s : Keyboard) : Prop :=
  ∀ m ∈ [shiftBit, ctlBit, altBit], s.shift &&& m ≠ 0 ↔ ∃ k ∈ s.held, k.modifier = m

/-- The key can be released: the other key of its modifier is not held. -/
def Keyboard.Alone (s : Keyboard) (k : Key) : Prop :=
  k.modifier ≠ 0 → ∀ k' ∈ s.held, k'.modifier = k.modifier → k' = k

/-- No key of a modifier is released while the other one is held. -/
def Apart (es : List KeyEvent) : Prop :=
  ∀ p k, p ++ [.release k] <+: es → (typed p).Alone k

/-! ## One key -/

/-- What holds of all 256 bytes holds of every one. -/
@[elab_as_elim]
theorem forall_byte {P : UInt8 → Prop} (all : ∀ n < 256, P (.ofNat n)) (b : UInt8) : P b :=
  (UInt8.ofNat_toNat (x := b)) ▸ all b.toNat b.toNat_lt

@[elab_as_elim]
theorem Key.forall {P : Key → Prop}
    (all : ∀ n < 256, ∀ extended low plain, P ⟨extended, .ofNat n, low, plain⟩) (k : Key) : P k :=
  forall_byte (P := fun code => ∀ extended low plain, P ⟨extended, code, low, plain⟩) all
    k.code k.extended k.low k.plain

theorem Key.shiftcode_index (k : Key) : shiftcode k.index = k.modifier :=
  Key.forall (by decide +kernel) k

theorem Key.modifier_mem (k : Key) :
    k.modifier ≠ 0 → k.modifier ∈ [shiftBit, ctlBit, altBit] :=
  Key.forall (by decide +kernel) k

theorem Key.code_facts (k : Key) : k.code ≠ 0xe0 ∧ k.code &&& 0x80 = 0 ∧ k.code ||| 0x80 ≠ 0xe0 ∧
    (k.code ||| 0x80) &&& 0x80 ≠ 0 ∧ (k.code ||| 0x80) &&& 0x7f = k.code :=
  Key.forall (by decide +kernel) k

/-- The bits of a press. -/
theorem Key.press_and (k : Key) : ∀ m ∈ [shiftBit, ctlBit, altBit, e0esc],
    (k.modifier &&& m ≠ 0 ↔ k.modifier = m) ∧ togglecode k.index &&& m = 0 :=
  Key.forall (by decide +kernel) k

/-- The bits of a release. -/
theorem Key.release_and (k : Key) : ∀ m ∈ [shiftBit, ctlBit, altBit, e0esc],
    ~~~(k.modifier ||| e0esc) &&& m = if k.modifier = m ∨ m = e0esc then 0 else m :=
  Key.forall (by decide +kernel) k

theorem or_and_distrib (a b c : UInt8) : (a ||| b) &&& c = (a &&& c) ||| (b &&& c) := by
  apply UInt8.eq_of_toBitVec_eq
  ext i
  simp [Bool.and_or_distrib_right]

theorem xor_and_distrib (a b c : UInt8) : (a ^^^ b) &&& c = (a &&& c) ^^^ (b &&& c) := by
  apply UInt8.eq_of_toBitVec_eq
  ext i
  simp [Bool.and_xor_distrib_right]

/-- The note of the code `0xe0`, until the code after it. -/
theorem e0esc_facts (shift : UInt8) :
    (shift ||| e0esc) &&& e0esc ≠ 0 ∧ (shift ||| e0esc) &&& ~~~e0esc = shift &&& ~~~e0esc ∧
      (shift &&& e0esc = 0 → shift &&& ~~~e0esc = shift) ∧ e0esc &&& ~~~(shift ||| e0esc) = 0 :=
  forall_byte (by decide +kernel) shift

variable {shift : UInt8}

theorem scanned_press (k : Key) (clear : shift &&& e0esc = 0) :
    scanned shift (KeyEvent.press k).codes = (shift ||| k.modifier) ^^^ togglecode k.index := by
  obtain ⟨notPrefix, notRelease, -⟩ := k.code_facts
  obtain ⟨noted, forgotten, kept, -⟩ := e0esc_facts shift
  rw [← k.shiftcode_index, KeyEvent.codes, Key.codes, Key.index]
  cases k.extended with
  | false => simp [scanned, scan, pressed, notPrefix, notRelease, clear]
  | true => simp [scanned, scan, pressed, notPrefix, notRelease, noted, forgotten, kept clear]

theorem scanned_release (k : Key) (clear : shift &&& e0esc = 0) :
    scanned shift (KeyEvent.release k).codes = shift &&& ~~~(k.modifier ||| e0esc) := by
  obtain ⟨-, -, notPrefix, release, code⟩ := k.code_facts
  obtain ⟨noted, -⟩ := e0esc_facts shift
  rw [← k.shiftcode_index, KeyEvent.codes, Key.codes, Key.index]
  cases k.extended with
  | false => simp [scanned, scan, notPrefix, release, clear, code]
  | true =>
    obtain ⟨-, -, -, cleared⟩ := e0esc_facts (shiftcode (k.code ||| 0x80))
    have gone := or_and_distrib shift e0esc (~~~(shiftcode (k.code ||| 0x80) ||| e0esc))
    rw [cleared, UInt8.or_zero] at gone
    simp [scanned, scan, notPrefix, release, noted, gone]

variable {s : Keyboard}

theorem Keyboard.press_bit (clear : s.shift &&& e0esc = 0) (k : Key) {m : UInt8}
    (hm : m ∈ [shiftBit, ctlBit, altBit, e0esc]) :
    (s.after (.press k)).shift &&& m ≠ 0 ↔ s.shift &&& m ≠ 0 ∨ k.modifier = m := by
  obtain ⟨bit, toggle⟩ := k.press_and m hm
  rw [after, scanned_press k clear, xor_and_distrib, or_and_distrib, toggle, UInt8.xor_zero, Ne,
    UInt8.or_eq_zero_iff, not_and_or]
  exact or_congr_right bit

theorem Keyboard.release_bit (clear : s.shift &&& e0esc = 0) (k : Key) {m : UInt8}
    (hm : m ∈ [shiftBit, ctlBit, altBit, e0esc]) : (s.after (.release k)).shift &&& m ≠ 0 ↔
      s.shift &&& m ≠ 0 ∧ ¬(k.modifier = m ∨ m = e0esc) := by
  rw [after, scanned_release k clear, UInt8.and_assoc, k.release_and m hm]
  split <;> simp [*]

theorem Keyboard.after_clear (clear : s.shift &&& e0esc = 0) (e : KeyEvent) :
    (s.after e).shift &&& e0esc = 0 := by
  by_contra isSet
  cases e with
  | press k =>
    have other : k.modifier ≠ e0esc := Key.forall (by decide +kernel) k
    exact ((press_bit clear k (by decide)).mp isSet).elim (fun ne => ne clear) other
  | release k => exact ((release_bit clear k (by decide)).mp isSet).1 clear

theorem Keyboard.Follows.press (follows : s.Follows) (clear : s.shift &&& e0esc = 0) (k : Key) :
    (s.after (.press k)).Follows := by
  intro m hm
  rw [press_bit clear k (List.mem_append_left [e0esc] hm), follows m hm, or_comm]
  exact (Finset.exists_mem_insert k s.held (·.modifier = m)).symm

/-- A release clears the bit also for the other key of the modifier. -/
theorem Keyboard.Follows.release_iff (follows : s.Follows) (clear : s.shift &&& e0esc = 0)
    (k : Key) : (s.after (.release k)).Follows ↔ s.Alone k := by
  have bits : ∀ m ∈ [shiftBit, ctlBit, altBit], m ≠ 0 ∧ m ≠ e0esc := by decide +kernel
  constructor
  · intro after modifier k' held same
    have hm := k.modifier_mem modifier
    by_contra ne
    have isSet := (after _ hm).mpr ⟨k', Finset.mem_erase.mpr ⟨ne, held⟩, same⟩
    exact ((release_bit clear k (List.mem_append_left [e0esc] hm)).mp isSet).2 (.inl rfl)
  · intro alone m hm
    rw [release_bit clear k (List.mem_append_left [e0esc] hm), follows m hm]
    constructor
    · rintro ⟨⟨k', held, rfl⟩, differ⟩
      refine ⟨k', Finset.mem_erase.mpr ⟨?_, held⟩, rfl⟩
      rintro rfl
      exact differ (.inl rfl)
    · rintro ⟨k', held, rfl⟩
      obtain ⟨ne, held⟩ := Finset.mem_erase.mp held
      refine ⟨⟨k', held, rfl⟩, not_or.mpr ⟨fun same => ?_, (bits _ hm).2⟩⟩
      exact ne (alone (same ▸ (bits _ hm).1) k' held same.symm)

/-! ## Every sequence of keys -/

theorem typed_snoc (es : List KeyEvent) (e : KeyEvent) :
    typed (es ++ [e]) = (typed es).after e :=
  List.foldl_concat ..

theorem typed_clear (es : List KeyEvent) : (typed es).shift &&& e0esc = 0 := by
  induction es using List.reverseRecOn with
  | nil => rfl
  | append_singleton es e ih =>
    rw [typed_snoc]
    exact Keyboard.after_clear ih e

theorem Apart.snoc_iff {es : List KeyEvent} {e : KeyEvent} : Apart (es ++ [e]) ↔
    Apart es ∧ ∀ k, e = .release k → (typed es).Alone k := by
  simp only [Apart, List.prefix_concat_iff, List.append_singleton_inj, or_imp, forall_and]
  rw [and_comm]
  refine and_congr_right fun _ => ⟨fun all k same => all es k ⟨rfl, same.symm⟩, ?_⟩
  rintro last p k ⟨rfl, same⟩
  exact last k same.symm

/-- After each complete code the bits of `shift` say which modifiers are held, whatever is pressed,
repeated and released, as long as no key of a modifier is released while the other one is down, and
not after that; the note of the prefix is always gone. -/
theorem modifiers_follow_iff (es : List KeyEvent) : (typed es).shift &&& e0esc = 0 ∧
    ((∀ p, p <+: es → (typed p).Follows) ↔ Apart es) := by
  refine ⟨typed_clear es, ?_⟩
  induction es using List.reverseRecOn with
  | nil =>
    refine iff_of_true (fun p hp => ?_) fun p k hp => ?_
    · rw [List.prefix_nil.mp hp]
      intro m hm
      refine iff_of_false (fun ne => ne UInt8.zero_and) ?_
      rintro ⟨k, held, _⟩
      exact Finset.notMem_empty k held
    · exact absurd (List.prefix_nil.mp hp) (List.append_ne_nil_of_right_ne_nil p nofun)
  | append_singleton es e ih =>
    have both : (∀ p, p <+: es ++ [e] → (typed p).Follows) ↔
        (∀ p, p <+: es → (typed p).Follows) ∧ (typed (es ++ [e])).Follows := by
      simp only [List.prefix_concat_iff, or_imp, forall_and, forall_eq, and_comm]
    rw [both, Apart.snoc_iff, ih, typed_snoc]
    refine and_congr_right fun apart => ?_
    have follows := ih.mpr apart es (List.prefix_refl es)
    cases e with
    | press k => exact iff_of_true (follows.press (typed_clear es) k) nofun
    | release k =>
      rw [follows.release_iff (typed_clear es) k]
      exact ⟨fun alone _ same => KeyEvent.release.inj same ▸ alone, fun alone => alone k rfl⟩

/-- Both keys of Shift are pressed and the left one is released. -/
theorem modifiers_follow_shifts : let right : Key := ⟨false, 0x36, by decide, by decide⟩
    let left : Key := ⟨false, 0x2a, by decide, by decide⟩
    let s := typed [.press left, .press right, .release left]
    right ∈ s.held ∧ right.modifier = shiftBit ∧ s.shift &&& shiftBit = 0 := by
  decide +kernel

end Xv6Gui.Kbd
