import Mathlib.Data.List.GetD
import Xv6Gui.Fs.Dir

/-!
# Icons of the desktop

What `desktop.c` makes of the name of a file.  `ls` chooses the picture of an icon by the three bytes
behind the first dot of the name, and `iconOnLeftDoubleClick` chooses the program to start by what is
behind the last dot.  `explorer.c` has the same `ls` and the same `suffix`.

A string is the list of its characters, without the zero behind them.  A scan that goes back from the
end of a string is given by an index, and it fails when it comes below the start.
-/

namespace Xv6Gui.App

/-- The character `.`. -/
def dot : UInt8 := 46

/-- The suffix `bmp`. -/
def bmp : List UInt8 := [98, 109, 112]

/-- The suffix `txt`. -/
def txt : List UInt8 := [116, 120, 116]

/-- A name in a directory. -/
structure FileName where
  chars : List UInt8
  some : chars ≠ []
  short : chars.length ≤ dirsiz
  nonzero : 0 ∉ chars
  plain : slash ∉ chars

/-- A name of one character, some times. -/
def nameOf (n : Nat) (some : 0 < n) (short : n ≤ dirsiz) : FileName where
  chars := List.replicate n 97
  some := List.ne_nil_of_length_pos (by simpa using some)
  short := by simpa using short
  nonzero := by simp [List.mem_replicate]
  plain := by simp [List.mem_replicate, slash]

/-! ## Scans -/

/-- `while (*s != c) s--`, from an index on. -/
def scanBack (c : UInt8) (s : List UInt8) : Nat → Option Nat
  | 0 => if s.getD 0 0 = c then some 0 else none
  | i + 1 => if s.getD (i + 1) 0 = c then some (i + 1) else scanBack c s i

/-- `fmtname`: what is behind the last `/`. -/
def fmtname (path : List UInt8) : List UInt8 :=
  match scanBack slash path path.length with
  | some i => path.drop (i + 1)
  | none => path

/-- `suffix`: what is behind the last dot. -/
def suffix (s : List UInt8) : Option (List UInt8) :=
  if dot ∈ s then (scanBack dot s s.length).map fun i => s.drop (i + 1) else some []

variable {a b s name : List UInt8} {c : UInt8} {i : Nat}

/-- The scan stops at the last occurrence. -/
theorem scanBack_append (nonzero : c ≠ 0) (low : a.length ≤ i) (last : c ∉ b.take (i - a.length)) :
    scanBack c (a ++ c :: b) i = some a.length := by
  induction i with
  | zero =>
    obtain rfl : a = [] := List.eq_nil_of_length_eq_zero (Nat.le_zero.mp low)
    rw [scanBack]
    exact if_pos rfl
  | succ i ih =>
    rw [scanBack, List.getD_append_right _ _ _ _ low]
    rcases Nat.eq_or_lt_of_le low with here | behind
    · rw [here, Nat.sub_self, if_pos (by rfl)]
    · obtain ⟨k, hk⟩ : ∃ k, i + 1 - a.length = k + 1 := ⟨i - a.length, by omega⟩
      rw [hk] at last
      rw [hk, List.getD_cons_succ, if_neg, ih (by omega) fun found => last ?_]
      · rw [show i - a.length = k by omega] at found
        exact List.take_subset_take_left b k.le_succ found
      intro found
      rcases Nat.lt_or_ge k b.length with inside | outside
      · rw [List.getD_eq_getElem _ _ inside] at found
        exact last (List.mem_take_iff_getElem.mpr ⟨k, by omega, found⟩)
      · rw [List.getD_eq_default _ _ outside] at found
        exact nonzero found.symm

theorem scanBack_length (nonzero : c ≠ 0) (last : c ∉ b) :
    scanBack c (a ++ c :: b) (a ++ c :: b).length = some a.length :=
  scanBack_append nonzero (by simp) fun found => last (List.mem_of_mem_take found)

/-- A string is cut at the last occurrence of a character. -/
theorem exists_last (h : c ∈ s) : ∃ a b, s = a ++ c :: b ∧ c ∉ b := by
  obtain ⟨b, a, split, last⟩ := List.eq_append_cons_of_mem (List.mem_reverse.mpr h)
  refine ⟨a.reverse, b.reverse, ?_, by simpa using last⟩
  rw [← List.reverse_reverse s, split]
  simp

theorem suffix_append (last : dot ∉ b) : suffix (a ++ dot :: b) = some b := by
  rw [suffix, if_pos (by simp), scanBack_length (by decide) last]
  simp

theorem fmtname_append (last : slash ∉ b) : fmtname (a ++ slash :: b) = b := by
  rw [fmtname, scanBack_length (by decide) last]
  simp

/-- The name ends in a dot and some other characters. -/
theorem suffix_eq_iff {ext : List UInt8} (some : ext ≠ []) (last : dot ∉ ext) :
    suffix s = .some ext ↔ dot :: ext <:+ s := by
  constructor
  · intro h
    by_cases has : dot ∈ s
    · obtain ⟨a, b, rfl, plain⟩ := exists_last has
      rw [suffix_append plain] at h
      cases h
      exact List.suffix_append ..
    · rw [suffix, if_neg has] at h
      cases h
      exact absurd rfl some
  · rintro ⟨a, rfl⟩
    exact suffix_append last

/-! ## Double clicks -/

/-- A program that a double click starts: the file itself, or one that is given the file. -/
inductive Program where
  | file
  | explorer
  | imageviewer
  | editor
deriving DecidableEq

/-- `iconOnLeftDoubleClick` of the desktop, for an icon with the text `s`: the programs it starts.
`dir` is `getiNodeType(s) == T_DIR`. -/
def iconOnLeftDoubleClick (dir : Bool) (s : List UInt8) : Option (List Program) :=
  if dir then some [.explorer]
  else (suffix s).map fun t =>
    (if t = [] then [.file] else if t = bmp then [.imageviewer] else []) ++
      if t = txt then [.editor] else []

/-- A suffix decides what is started. -/
theorem iconOnLeftDoubleClick_iff (s : List UInt8) :
    (iconOnLeftDoubleClick false s = some [.imageviewer] ↔ dot :: bmp <:+ s) ∧
      (iconOnLeftDoubleClick false s = some [.editor] ↔ dot :: txt <:+ s) := by
  rw [← suffix_eq_iff (by decide) (by decide), ← suffix_eq_iff (by decide) (by decide),
    iconOnLeftDoubleClick, if_neg (by decide)]
  cases suffix s with
  | none => simp
  | some t =>
    simp only [Option.map_some, Option.some.injEq]
    by_cases none : t = []
    · subst none
      decide
    · by_cases image : t = bmp
      · subst image
        decide
      · by_cases document : t = txt
        · subst document
          decide
        · simp [none, image, document]

/-! ## Pictures -/

/-- The pictures of icons. -/
inductive Picture where
  | folder
  | photo
  | text
  | exec
deriving DecidableEq

/-- `tmpName[k]` in `ls`: the name with a zero behind it, and behind `p[DIRSIZ]` what `buf` had. -/
def tmpName (name : List UInt8) (buf : Nat → UInt8) (k : Nat) : UInt8 :=
  if k ≤ dirsiz then name.getD k 0 else buf k

/-- The characters from an index on are those of a string. -/
def Matches (s : Nat → UInt8) : Nat → List UInt8 → Prop
  | _, [] => True
  | j, c :: cs => s j = c ∧ Matches s (j + 1) cs

instance Matches.decidable (s : Nat → UInt8) : ∀ j cs, Decidable (Matches s j cs)
  | _, [] => isTrue trivial
  | j, c :: cs =>
    have := Matches.decidable s (j + 1) cs
    inferInstanceAs (Decidable (s j = c ∧ Matches s (j + 1) cs))

/-- The picture for a name. -/
def picture (name : List UInt8) (buf : Nat → UInt8) : Picture :=
  let j := name.findIdx (· = dot)
  if Matches (tmpName name buf) (j + 1) bmp then .photo
  else if Matches (tmpName name buf) (j + 1) txt then .text
  else .exec

/-- What is behind the first dot. -/
def behindDot (name : List UInt8) : List UInt8 := name.drop (name.findIdx (· = dot) + 1)

/-- Characters other than NUL are found in the name, if the scan starts in front of `p[DIRSIZ]`. -/
theorem matches_tmpName (buf : Nat → UInt8) {ext : List UInt8} (short : name.length ≤ dirsiz)
    (nonzero : 0 ∉ ext) {j : Nat} (low : j ≤ dirsiz) :
    Matches (tmpName name buf) j ext ↔ ext <+: name.drop j := by
  induction ext generalizing j with
  | nil => simp [Matches]
  | cons c ext ih =>
    rw [List.mem_cons, not_or] at nonzero
    rw [Matches, tmpName, if_pos low]
    rcases Nat.lt_or_ge j name.length with inside | outside
    · rw [ih nonzero.2 (by omega), List.getD_eq_getElem _ _ inside, List.drop_eq_getElem_cons inside,
        List.cons_prefix_cons, eq_comm]
    · rw [List.getD_eq_default _ _ outside, List.drop_of_length_le outside]
      simp [nonzero.1]

/-- The picture follows from the name if there is a dot or a zero in front of `p[DIRSIZ]`. -/
theorem picture_iff (buf : Nat → UInt8) (short : name.length ≤ dirsiz)
    (ends : dot ∈ name ∨ name.length < dirsiz) :
    (picture name buf = .photo ↔ bmp <+: behindDot name) ∧
      (picture name buf = .text ↔ txt <+: behindDot name) ∧
      (picture name buf = .exec ↔ ¬ bmp <+: behindDot name ∧ ¬ txt <+: behindDot name) := by
  have low : name.findIdx (· = dot) + 1 ≤ dirsiz := by
    have le : name.findIdx (· = dot) ≤ name.length := List.findIdx_le_length
    rcases ends with has | less
    · have lt : name.findIdx (· = dot) < name.length := List.findIdx_lt_length.mpr ⟨dot, has, by simp⟩
      omega
    · omega
  have photo := matches_tmpName buf short (show 0 ∉ bmp by decide) low
  have text := matches_tmpName buf short (show 0 ∉ txt by decide) low
  rw [picture, behindDot, ← photo, ← text]
  by_cases image : Matches (tmpName name buf) (name.findIdx (· = dot) + 1) bmp
  · have other : ¬ Matches (tmpName name buf) (name.findIdx (· = dot) + 1) txt := by
      intro document
      exact absurd (image.1.symm.trans document.1) (by decide)
    simp [image, other]
  · by_cases document : Matches (tmpName name buf) (name.findIdx (· = dot) + 1) txt
    · simp [image, document]
    · simp [image, document]

/-- The icon of a file tells what a double click does, whatever is left in `buf`. -/
def PictureFits (name : List UInt8) : Prop :=
  ∀ buf : Nat → UInt8,
    (picture name buf = .photo ↔ iconOnLeftDoubleClick false name = some [.imageviewer]) ∧
    (picture name buf = .text ↔ iconOnLeftDoubleClick false name = some [.editor]) ∧
    (picture name buf = .exec ↔ iconOnLeftDoubleClick false name ≠ some [.imageviewer] ∧
      iconOnLeftDoubleClick false name ≠ some [.editor])

/-- The icon is that of the action if and only if the name says `bmp` and `txt` behind the first dot
when it ends in `.bmp` and `.txt`, and it has a dot if it fills the directory entry. -/
theorem picture_fits_iff (file : FileName) :
    PictureFits file.chars ↔ (dot ∈ file.chars ∨ file.chars.length < dirsiz) ∧
      (bmp <+: behindDot file.chars ↔ dot :: bmp <:+ file.chars) ∧
      (txt <+: behindDot file.chars ↔ dot :: txt <:+ file.chars) := by
  obtain ⟨name, -, short, -, -⟩ := file
  dsimp only
  obtain ⟨image, document⟩ := iconOnLeftDoubleClick_iff name
  simp only [PictureFits, ne_eq, image, document]
  constructor
  · intro fits
    have ends : dot ∈ name ∨ name.length < dirsiz := by
      by_contra full
      rw [not_or] at full
      have last : name.findIdx (· = dot) = name.length :=
        List.findIdx_eq_length.mpr fun x hx => decide_eq_false fun e => full.1 (e ▸ hx)
      have length : name.length = 30 := Nat.le_antisymm short (Nat.not_lt.mp full.2)
      have photo : picture name (fun k => bmp.getD (k - 31) 0) = .photo := by
        rw [picture, last, length]
        exact if_pos ⟨rfl, rfl, rfl, trivial⟩
      have ending := (fits _).1.mp photo
      exact full.1 (ending.subset List.mem_cons_self)
    obtain ⟨photo, text, -⟩ := picture_iff (fun _ => 0) short ends
    obtain ⟨first, second, -⟩ := fits fun _ => 0
    exact ⟨ends, photo.symm.trans first, text.symm.trans second⟩
  · rintro ⟨ends, first, second⟩ buf
    rw [← first, ← second]
    exact picture_iff buf short ends

/-- `a.b.bmp` is shown as a program and opened as an image, `a.bmpx` is shown as an image and not
opened, and a name that fills the entry is shown as what `buf` says. -/
theorem picture_misleads : ∃ buf buf' : Nat → UInt8,
    picture [97, 46, 98, 46, 98, 109, 112] buf = .exec ∧
    iconOnLeftDoubleClick false [97, 46, 98, 46, 98, 109, 112] = some [.imageviewer] ∧
    picture [97, 46, 98, 109, 112, 120] buf = .photo ∧
    iconOnLeftDoubleClick false [97, 46, 98, 109, 112, 120] = some [] ∧
    picture (List.replicate 30 97) buf = .exec ∧ picture (List.replicate 30 97) buf' = .photo :=
  ⟨fun _ => 0, fun k => bmp.getD (k - 31) 0, by decide⟩

end Xv6Gui.App
