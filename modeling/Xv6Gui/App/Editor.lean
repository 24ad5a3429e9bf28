import Xv6Gui.App.Typing
import Xv6Gui.Fs.ByteArray

/-!
# Saving a document

`saveFile` of `editor.c` writes the text with its NUL to the start of the file
and closes it.  It does not cut the file off, and there is no call that would.
When the editor opens the file again, `cat` takes the number of bytes it reads
for the length of the text.

So the text that is shown is the document, but `textLength` and the cursor are
behind the NUL, where nothing that is typed is seen.
-/

namespace Xv6Gui.App

open Effect

/-- What is found under the path of `saveFile`. -/
inductive SaveTarget where
  /-- A file that opens for writing. -/
  | file (old : List UInt8)
  /-- Nothing, and `O_CREATE` makes an empty file. -/
  | missing
  /-- What neither opens for writing nor can be created, with its bytes. -/
  | refused (old : List UInt8)
deriving DecidableEq

/-- `strlen(text_box.text) + 1` bytes of the text. -/
def TextBox.saved (box : TextBox) : List UInt8 :=
  (List.range ((cstring box.text).length + 1)).map box.text

/-- `saveFile`, with the bytes under the name after it. -/
def saveFile (box : TextBox) : SaveTarget → List UInt8
  | .file old => overwrite old 0 box.saved
  | .missing => overwrite [] 0 box.saved
  | .refused old => old

/-- The bytes before `saveFile`. -/
def SaveTarget.old : SaveTarget → List UInt8
  | .file old => old
  | .missing => []
  | .refused old => old

variable {box box' : TextBox} {doc old : List UInt8} {cur : Nat} {ch : UInt8}

/-- The characters up to the first NUL. -/
theorem cstring_eq {text : Nat → UInt8} (fits : doc.length < maxStringNum)
    (same : ∀ i ≤ doc.length, text i = doc.getD i 0) (nonzero : 0 ∉ doc) : cstring text = doc := by
  have represents : Represents ⟨0, doc.length, text⟩ doc 0 :=
    ⟨rfl, rfl, Nat.zero_le _, fits, same, nonzero⟩
  exact represents.cstring_eq

theorem Represents.saved_eq (h : Represents box doc cur) : box.saved = doc ++ [0] := by
  rw [TextBox.saved, h.cstring_eq]
  refine List.ext_getElem (by simp) ?_
  intro i hi lt
  rw [List.length_append, List.length_singleton] at lt
  rw [List.getElem_map, List.getElem_range, h.text i (by omega), List.getElem_append]
  split
  · rename_i inside
    rw [List.getD_eq_getElem _ _ inside]
  · rename_i outside
    rw [List.getD_eq_default _ _ (by omega), List.getElem_singleton]

/-- What was saved: the document, its NUL, and what was behind in the file. -/
theorem Represents.saveFile_eq (h : Represents box doc cur) {target : SaveTarget}
    (opens : ∀ old, target ≠ .refused old) :
    saveFile box target = doc ++ 0 :: target.old.drop (doc.length + 1) := by
  cases target with
  | file old | missing =>
    rw [saveFile, h.saved_eq, overwrite]
    simp [SaveTarget.old]
  | refused old => exact absurd rfl (opens old)

/-! ## Opening the file again -/

/-- A file with the document and a NUL behind it. -/
theorem cat_text {rest : List UInt8} (fits : doc.length < maxStringNum) {i : Nat}
    (hi : i ≤ doc.length) : (cat (doc ++ 0 :: rest)).text i = doc.getD i 0 := by
  rw [cat]
  dsimp only
  have lt : i < maxStringNum := by omega
  rw [List.getD_eq_getElem?_getD, List.getElem?_take_of_lt lt, List.getD_eq_getElem?_getD]
  rcases Nat.lt_or_eq_of_le hi with inside | rfl
  · rw [List.getElem?_append_left inside]
  · rw [List.getElem?_append_right (Nat.le_refl _)]
    simp

theorem cat_length (doc rest : List UInt8) :
    (cat (doc ++ 0 :: rest)).textLength =
      (min maxStringNum (doc.length + 1 + rest.length) : Nat) := by
  rw [cat]
  simp only [List.length_take, List.length_append, List.length_cons]
  omega

/-- A file without a NUL is a document, if it is not too long. -/
theorem represents_cat_iff (short : doc.length + 1 < maxStringNum) (nonzero : 0 ∉ doc) :
    Represents (cat old) doc doc.length ↔ old = doc := by
  constructor
  · intro h
    have length := h.length
    simp only [cat, List.length_take] at length
    have all : old.take maxStringNum = old := List.take_of_length_le (by omega)
    refine List.ext_getElem (by omega) ?_
    intro i hi lt
    have same := h.text i (Nat.le_of_lt lt)
    simp only [cat, all] at same
    rwa [List.getD_eq_getElem _ _ hi, List.getD_eq_getElem _ _ lt] at same
  · rintro rfl
    have all : old.take maxStringNum = old := List.take_of_length_le (by omega)
    constructor
    case cursor => simp [cat, all]
    case length => simp [cat, all]
    case inside => exact Nat.le_refl _
    case fits => omega
    case text => simp [cat, all]
    case nonzero => exact nonzero

/-- The NUL in the file is counted. -/
theorem Represents.not_represents (h : Represents box doc cur) {target : SaveTarget}
    (opens : ∀ old, target ≠ .refused old) :
    ¬ Represents (cat (saveFile box target)) doc doc.length := by
  intro represents
  have fits := h.fits
  have length := represents.length
  rw [h.saveFile_eq opens, cat_length] at length
  omega

/-! ## Typing behind the text -/

/-- The characters before a position stay. -/
def frontFrame (k : Nat) : Effect.Frame TextBox where
  rel box box' := ∀ i < k, box'.text i = box.text i
  refl _ _ _ := rfl
  trans h h' i hi := (h' i hi).trans (h i hi)

theorem readText_front (k : Nat) (i : Int) : Respects (frontFrame k) (readText i) :=
  .get_bind fun _ => .ite (fun _ => .pure _) fun _ => .throw _

theorem writeText_front {k : Nat} {i : Int} (behind : (k : Int) ≤ i) (c : UInt8) :
    Respects (frontFrame k) (writeText i c) := by
  constructor
  intro box _ box' run j hj
  rw [writeText, run_get_bind] at run
  split at run
  · cases run
    exact Function.update_of_ne (by omega) _ _
  · cases run

theorem insertLoop_front {k : Nat} {pos : Int} (behind : (k : Int) ≤ pos) :
    ∀ rounds, Respects (frontFrame k) (insertLoop pos rounds)
  | 0 => .pure _
  | rounds + 1 =>
    .bind (readText_front k _) fun _ =>
      .bind (writeText_front (by omega) _) fun _ => insertLoop_front behind rounds

/-- A character that is inserted behind the NUL is not seen. -/
theorem insert_behind (fits : doc.length < maxStringNum) (nonzero : 0 ∉ doc)
    (same : ∀ i ≤ doc.length, box.text i = doc.getD i 0)
    (cursor : box.cursor = box.textLength) (behind : (doc.length : Int) < box.cursor)
    (run : (insertCharacter ch).run box = .ok ((), box')) : cstring box'.text = doc := by
  rw [insertCharacter, run_get_bind, run_set_bind] at run
  obtain ⟨_, u, moved, wrote⟩ := bind_ok.mp run
  have first := (insertLoop_front (k := doc.length + 1) (by omega) _).rel moved
  have second := (writeText_front (k := doc.length + 1) (by omega) _).rel wrote
  refine cstring_eq fits ?_ nonzero
  intro i hi
  rw [← same i hi, second i (by omega), first i (by omega)]

/-- A document that is saved and opened again is shown as it was.  The text box
represents it only if nothing was saved, since the file has the document in it
without a NUL; otherwise the length and the cursor are behind the NUL, and what
is typed next is not seen. -/
theorem save_reopen_iff (h : Represents box doc cur) (short : doc.length ≤ 254)
    (target : SaveTarget) :
    (Represents (cat (saveFile box target)) doc doc.length ↔ target = .refused doc) ∧
      ((∀ old, target ≠ .refused old) →
        cstring (cat (saveFile box target)).text = doc ∧
        (cat (saveFile box target)).textLength =
          (min maxStringNum (max (doc.length + 1) target.old.length) : Nat) ∧
        (cat (saveFile box target)).cursor = (cat (saveFile box target)).textLength ∧
        ∀ ch box', (insertCharacter ch).run (cat (saveFile box target)) = .ok ((), box') →
          cstring box'.text = doc) := by
  have fits := h.fits
  have max : maxStringNum = 256 := rfl
  constructor
  · cases target with
    | refused old =>
      rw [saveFile, represents_cat_iff (by omega) h.nonzero, SaveTarget.refused.injEq]
    | file old | missing => exact ⟨fun r => absurd r (h.not_represents (by simp)), nofun⟩
  · intro opens
    rw [h.saveFile_eq opens]
    have text : ∀ i ≤ doc.length, (cat (doc ++ 0 :: target.old.drop (doc.length + 1))).text i =
        doc.getD i 0 := fun i hi => cat_text fits hi
    have length := cat_length doc (target.old.drop (doc.length + 1))
    rw [List.length_drop] at length
    refine ⟨cstring_eq fits text h.nonzero, ?_, rfl, ?_⟩
    · rw [length]
      omega
    · intro ch box' run
      refine insert_behind fits h.nonzero text rfl ?_ run
      refine lt_of_lt_of_eq ?_ length.symm
      omega

/-- A box with the text "a", and the cursor behind it. -/
def letterA : TextBox := ⟨1, 1, fun i => if i = 0 then 97 else 0⟩

theorem letterA_represents : Represents letterA [97] 1 := by
  constructor
  case cursor => rfl
  case length => rfl
  case inside => decide
  case fits => decide
  case text => decide
  case nonzero => decide

theorem save_reopen_iff_refused : Represents (cat (saveFile letterA (.refused [97]))) [97] 1 :=
  (save_reopen_iff letterA_represents (by decide) (.refused [97])).1.mpr rfl

/-- The text "a" is saved to a new file and opened: the cursor is at 2, and a "b"
that is typed is not part of what is seen or saved. -/
theorem save_reopen_letter :
    Represents letterA [97] 1 ∧ saveFile letterA .missing = [97, 0] ∧
      (cat (saveFile letterA .missing)).cursor = 2 ∧
        ((insertCharacter 98).run (cat (saveFile letterA .missing))).toOption.map
          (fun r => cstring r.2.text) = some [97] :=
  ⟨letterA_represents, by decide +kernel, by decide +kernel, by decide +kernel⟩

end Xv6Gui.App
