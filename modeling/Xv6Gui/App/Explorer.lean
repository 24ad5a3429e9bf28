import Xv6Gui.App.Icons
import Xv6Gui.App.TextBox

/-!
# The explorer

`explorer.c` keeps the directory it shows in two strings: `wd`, which is `.` and a `/` with a name for
each directory on the way, and the caption of its window, which is `Explorer:/` and a name with a `/`
for each.  A directory is entered with `strcat`, and `backup` finds the end of the shorter strings by
scans back to a `/`.  None of the strings is compared with the size of its array.

A step has the strings it builds next to the arrays it builds them in, and the programs it starts.
-/

namespace Xv6Gui.App

open Runs

/-- The strings of `explorer.c`. -/
structure Explorer where
  wd : List UInt8
  caption : List UInt8
deriving DecidableEq

/-- A string and the size of its array. -/
structure Built where
  string : List UInt8
  size : Nat

/-- What a step of the explorer does besides. -/
structure Done where
  built : List Built
  started : List Program

/-- What the user does: a double click on an icon, for which `getiNodeType(s) == T_DIR` is
`dir`, the button `Back`, or the button `OK` of the dialog for a new folder. -/
inductive Act where
  | click (icon : FileName) (dir : Bool)
  | back
  | newFolder (text : List UInt8)

namespace Explorer

/-- What `ls` builds in `buf`, with room for each name. -/
def lsBuf (e : Explorer) : Built := ⟨e.wd ++ slash :: List.replicate dirsiz 0, 512⟩

/-- `Explorer:/`. -/
def title : List UInt8 := [69, 120, 112, 108, 111, 114, 101, 114, 58, 47]

/-- `main`, up to the event loop. -/
def init : Option (List UInt8) → Explorer
  | none => ⟨[dot], title⟩
  | some arg => ⟨[dot] ++ slash :: arg, title ++ arg ++ [slash]⟩

/-- The strings and their arrays. -/
def strings (e : Explorer) : List Built := [⟨e.wd, 256⟩, ⟨e.caption, maxStringNum⟩, e.lsBuf]

/-- `iconOnLeftDoubleClick`. -/
def iconOnLeftDoubleClick (e : Explorer) (text : List UInt8) (dir : Bool) :
    Option (Explorer × Done) :=
  let s := e.wd ++ slash :: text
  if dir then
    let e : Explorer := ⟨s, e.caption ++ text ++ [slash]⟩
    some (e, ⟨⟨s, 256⟩ :: e.strings, []⟩)
  else
    (suffix s).map fun t => (e, ⟨[⟨s, 256⟩],
      if t = [] then [.file] else if t = bmp then [.imageviewer] else if t = txt then [.editor]
      else []⟩)

/-- `backup`, the button `Back`. -/
def backup (e : Explorer) : Option (Explorer × Done) :=
  if e.wd = [dot] then
    some (e, ⟨[], []⟩)
  else do
    let i ← scanBack slash e.wd e.wd.length
    let j ← scanBack slash e.caption e.caption.length
    let k ← if j = 0 then none else scanBack slash e.caption (j - 1)
    let e : Explorer := ⟨e.wd.take i, e.caption.take (k + 1)⟩
    return (e, ⟨e.strings, []⟩)

/-- `newFolder`, and the `refresh` that follows. -/
def newFolder (e : Explorer) (text : List UInt8) : Explorer × Done :=
  (e, ⟨[⟨e.wd ++ slash :: text, 256⟩, e.lsBuf], []⟩)

/-- One action of the user. -/
def step (e : Explorer) : Act → Option (Explorer × Done)
  | .click icon dir => e.iconOnLeftDoubleClick icon.chars dir
  | .back => e.backup
  | .newFolder text => some (e.newFolder text)

end Explorer

variable {started : List Program}

/-! ## Files -/

variable {e e' : Explorer} {name : List UInt8} {path : List (List UInt8)} {act : Act} {did : Done}

/-- A path in front of a name with a dot does not change its suffix. -/
theorem suffix_path {a : List UInt8} (has : dot ∈ name) : suffix (a ++ slash :: name) = suffix name := by
  obtain ⟨b, c, rfl, last⟩ := exists_last has
  rw [← List.cons_append, ← List.append_assoc, suffix_append last, suffix_append last]

/-- The explorer and the desktop start the same for a file if and only if there is a dot in its name:
without one, the explorer takes a dot of `wd` for that of a suffix. -/
theorem explorer_opens_as_desktop_iff (top : e.wd.head? = some dot) :
    (e.iconOnLeftDoubleClick name false).map (·.2.started) = iconOnLeftDoubleClick false name ↔
      dot ∈ name := by
  rw [Explorer.iconOnLeftDoubleClick, iconOnLeftDoubleClick, if_neg (by decide), if_neg (by decide)]
  constructor
  · intro same
    by_contra without
    obtain ⟨first, rest, split, last⟩ := exists_last (List.mem_of_mem_head? top)
    have behind : dot ∉ rest ++ slash :: name := by simp [last, without, show dot ≠ slash by decide]
    have other (ext : List UInt8) (no : slash ∉ ext) : rest ++ slash :: name ≠ ext := by
      rintro rfl
      simp at no
    rw [split, List.append_assoc, List.cons_append, suffix_append behind, suffix, if_neg without,
      Option.map_some, Option.map_some, if_neg (other [] (by simp)), if_neg (other bmp (by decide)),
      if_neg (other txt (by decide))] at same
    have none : some ([] : List Program) = some [.file] := same
    cases none
  · intro has
    rw [suffix_path has]
    cases suffix name with
    | none => rfl
    | some t =>
      simp only [Option.map_some]
      split
      · simp_all [txt]
      · split
        · simp_all [txt, bmp]
        · simp

theorem explorer_opens_as_desktop_text :
    (Explorer.iconOnLeftDoubleClick ⟨[dot], Explorer.title⟩ [97, 46, 116, 120, 116] false).map
      (·.2.started) = iconOnLeftDoubleClick false [97, 46, 116, 120, 116] :=
  (explorer_opens_as_desktop_iff rfl).mpr (by decide)

/-- In the directory the explorer starts with, a double click on `cat` does nothing. -/
theorem explorer_runs_nothing :
    (Explorer.iconOnLeftDoubleClick ⟨[dot], Explorer.title⟩ [99, 97, 116] false).map (·.2.started) =
        some [] ∧
      iconOnLeftDoubleClick false [99, 97, 116] = some [.file] := by
  decide

/-! ## Directories -/

/-- The strings for a path. -/
def Explorer.ofPath (path : List (List UInt8)) : Explorer where
  wd := dot :: path.flatMap (slash :: ·)
  caption := title ++ path.flatMap (· ++ [slash])

/-- What an action does to the path. -/
def Act.move (path : List (List UInt8)) : Act → List (List UInt8)
  | click icon true => path ++ [icon.chars]
  | back => path.dropLast
  | click _ false | newFolder _ => path

/-- The path of the argument. -/
def startPath : Option (List UInt8) → List (List UInt8)
  | none => []
  | some arg => arg.splitOn slash

/-- No name has a `/`. -/
def Plain (path : List (List UInt8)) : Prop := ∀ name ∈ path, slash ∉ name

theorem Plain.move (plain : Plain path) (act : Act) : Plain (act.move path) := by
  cases act with
  | click icon dir =>
    cases dir with
    | false => exact plain
    | true =>
      intro name hname
      rcases List.mem_append.mp hname with old | new
      · exact plain name old
      · exact List.mem_singleton.mp new ▸ icon.plain
  | back => exact fun name hname => plain name (List.mem_of_mem_dropLast hname)
  | newFolder text => exact plain

/-- One directory more. -/
theorem ofPath_concat : Explorer.ofPath (path ++ [name]) =
    ⟨(Explorer.ofPath path).wd ++ slash :: name, (Explorer.ofPath path).caption ++ name ++ [slash]⟩ := by
  simp [Explorer.ofPath]

/-- The strings of `main`. -/
theorem init_eq (arg : Option (List UInt8)) :
    Explorer.init arg = Explorer.ofPath (startPath arg) ∧ Plain (startPath arg) := by
  cases arg with
  | none => exact ⟨by simp [Explorer.init, Explorer.ofPath, startPath], fun _ no => nomatch no⟩
  | some arg =>
    -- induction on the length, because the argument is cut at its last `/`
    induction h : arg.length using Nat.strong_induction_on generalizing arg with
    | _ n ih =>
      by_cases has : slash ∈ arg
      · obtain ⟨a, b, rfl, last⟩ := exists_last has
        obtain ⟨same, plain⟩ := ih a.length (by simp at h; omega) a rfl
        have path : startPath (some (a ++ slash :: b)) = startPath (some a) ++ [b] := by
          rw [startPath, List.splitOn_append_cons_self, List.splitOn_eq_singleton last]
          rfl
        rw [path, ofPath_concat, ← same]
        refine ⟨by simp [Explorer.init], fun name hname => ?_⟩
        rcases List.mem_append.mp hname with old | new
        · exact plain name old
        · exact List.mem_singleton.mp new ▸ last
      · have path : startPath (some arg) = [arg] := List.splitOn_eq_singleton has
        rw [path]
        exact ⟨by simp [Explorer.init, Explorer.ofPath], by simpa [Plain] using has⟩

/-- `Back` drops the last directory. -/
theorem backup_ofPath (plain : slash ∉ name) :
    (Explorer.ofPath (path ++ [name])).backup =
      some (Explorer.ofPath path, ⟨(Explorer.ofPath path).strings, []⟩) := by
  -- the caption of the outer directory ends in a `/` too
  obtain ⟨front, caption⟩ : ∃ front, (Explorer.ofPath path).caption = front ++ [slash] := by
    rcases List.eq_nil_or_concat' path with rfl | ⟨path, outer, rfl⟩
    · exact ⟨Explorer.title.dropLast, rfl⟩
    · rw [ofPath_concat]
      exact ⟨_, rfl⟩
  have wd : scanBack slash ((Explorer.ofPath path).wd ++ slash :: name)
      ((Explorer.ofPath path).wd ++ slash :: name).length = some (Explorer.ofPath path).wd.length :=
    scanBack_length (by decide) plain
  have first := scanBack_length (a := front ++ slash :: name) (b := []) (c := slash) (by decide)
    List.not_mem_nil
  have second := scanBack_append (a := front) (b := name ++ [slash]) (c := slash)
    (i := (front ++ slash :: name).length - 1) (by decide) (by simp) (by
      rw [List.take_append_of_le_length (by simp)]
      exact fun found => plain (List.mem_of_mem_take found))
  rw [ofPath_concat, Explorer.backup, if_neg (by simp [Explorer.ofPath]), caption]
  simp only [List.append_assoc, List.cons_append, List.nil_append] at wd first second ⊢
  simp only [wd, first, second, Option.bind_eq_bind, Option.bind_some]
  rw [if_neg (by simp)]
  have outer : Explorer.ofPath path = ⟨(Explorer.ofPath path).wd, front ++ [slash]⟩ := by
    rw [← caption]
  have taken : (front ++ slash :: (name ++ [slash])).take (front.length + 1) = front ++ [slash] := by
    simp [List.take_append]
  rw [List.take_left, taken, ← outer]
  rfl

/-- A step goes to the strings of the directories after it. -/
theorem step_ofPath (plain : Plain path) (act : Act) :
    ∃ did, (Explorer.ofPath path).step act = some (Explorer.ofPath (act.move path), did) := by
  cases act with
  | click icon dir =>
    cases dir with
    | true => exact ⟨_, by rw [Act.move, ofPath_concat]; rfl⟩
    | false =>
      obtain ⟨t, ht⟩ : ∃ t, suffix ((Explorer.ofPath path).wd ++ slash :: icon.chars) = some t := by
        obtain ⟨a, b, split, last⟩ := exists_last (show dot ∈ (Explorer.ofPath path).wd ++
          slash :: icon.chars from List.mem_append_left _ List.mem_cons_self)
        exact ⟨b, split ▸ suffix_append last⟩
      exact ⟨_, by
        rw [Explorer.step, Explorer.iconOnLeftDoubleClick, if_neg (by decide), ht]
        rfl⟩
  | back =>
    rcases List.eq_nil_or_concat' path with rfl | ⟨outer, name, rfl⟩
    · exact ⟨_, rfl⟩
    · rw [Act.move, List.dropLast_concat]
      exact ⟨_, backup_ofPath (plain name (by simp))⟩
  | newFolder text => exact ⟨_, rfl⟩

/-- After any steps from `main` on, no scan has left its string and the strings are those of the
directories that were entered and not left.  Entering a directory and going back changes nothing, and
neither does going back at the top. -/
theorem back_undoes_enter (arg : Option (List UInt8)) (acts : List Act) :
    ∃ e labels, execOut Explorer.step (Explorer.init arg) acts = some (e, labels) ∧
      e.wd = dot :: (acts.foldl Act.move (startPath arg)).flatMap (slash :: ·) ∧
      e.caption = Explorer.title ++ (acts.foldl Act.move (startPath arg)).flatMap (· ++ [slash]) ∧
      (∀ icon, ∃ inner did did', e.step (.click icon true) = some (inner, did) ∧
        inner.step .back = some (e, did')) ∧
      (e.wd = [dot] → ∃ did, e.step .back = some (e, did)) := by
  obtain ⟨start, plain⟩ := init_eq arg
  rw [start]
  clear start
  generalize startPath arg = path at plain
  induction acts generalizing path with
  | nil =>
    refine ⟨_, [], rfl, rfl, rfl, fun icon => ?_, fun top => ⟨⟨[], []⟩, if_pos top⟩⟩
    obtain ⟨did, entered⟩ := step_ofPath plain (.click icon true)
    exact ⟨_, did, _, entered, backup_ofPath icon.plain⟩
  | cons act acts ih =>
    obtain ⟨did, step⟩ := step_ofPath plain act
    obtain ⟨e, labels, run, rest⟩ := ih _ (plain.move act)
    exact ⟨e, (act, did) :: labels, by rw [execOut, step, Option.bind_some, run]; rfl, rest⟩

/-! ## Arrays -/

/-- The strings of a step are shorter than their arrays. -/
def Done.Fits (did : Done) : Prop := ∀ b ∈ did.built, b.string.length < b.size

/-- What is put behind `wd` is not too long.  The caption is the first to reach its end. -/
def Act.Short (e : Explorer) : Act → Prop
  | click icon dir => e.wd.length + 1 + icon.chars.length ≤ if dir then 246 else 255
  | back => True
  | newFolder text => e.wd.length + 1 + text.length ≤ 255

/-- A step, with what it calls. -/
def Explorer.Step (e : Explorer) (l : Act × Done) (e' : Explorer) : Prop := e.step l.1 = some (e', l.2)

theorem length_caption (path : List (List UInt8)) :
    (Explorer.ofPath path).caption.length = (Explorer.ofPath path).wd.length + 9 := by
  have title : Explorer.title.length = 10 := rfl
  simp [Explorer.ofPath, List.length_flatMap, title]
  omega

theorem fits_cons {b : Built} {bs : List Built} :
    Done.Fits ⟨b :: bs, started⟩ ↔ b.string.length < b.size ∧ Done.Fits ⟨bs, started⟩ :=
  List.forall_mem_cons

theorem fits_nil : Done.Fits ⟨[], started⟩ := fun _ no => nomatch no

theorem lsBuf_length (e : Explorer) : e.lsBuf.string.length = e.wd.length + 31 := by
  simp [Explorer.lsBuf, dirsiz]

/-- All strings of a state. -/
theorem strings_fit_iff (path : List (List UInt8)) :
    Done.Fits ⟨(Explorer.ofPath path).strings, started⟩ ↔ (Explorer.ofPath path).wd.length ≤ 246 := by
  have caption := length_caption path
  have buf := lsBuf_length (.ofPath path)
  have size : (Explorer.ofPath path).lsBuf.size = 512 := rfl
  simp only [Explorer.strings, fits_cons, fits_nil, and_true, maxStringNum]
  omega

/-- The path fits into its array. -/
def Explorer.Within (e : Explorer) : Prop :=
  ∃ path, Plain path ∧ e = .ofPath path ∧ e.wd.length ≤ 246

/-- The strings of a step fit if and only if what it adds is short, and then those of the state do. -/
theorem Explorer.Within.step (within : e.Within) (step : e.step act = some (e', did)) :
    (did.Fits ↔ act.Short e) ∧ (act.Short e → e'.Within) := by
  obtain ⟨path, plain, rfl, low⟩ := within
  have next := plain.move act
  cases act with
  | click icon dir =>
    cases dir with
    | true =>
      have inner : Explorer.ofPath (path ++ [icon.chars]) = _ := ofPath_concat
      have length : (Explorer.ofPath (path ++ [icon.chars])).wd.length =
          (Explorer.ofPath path).wd.length + 1 + icon.chars.length := by
        simp [inner]
        omega
      rw [Explorer.step, Explorer.iconOnLeftDoubleClick, if_pos rfl] at step
      cases step
      rw [← inner, fits_cons, strings_fit_iff, length, Act.Short, if_pos rfl, List.length_append,
        List.length_cons]
      dsimp only
      exact ⟨by omega, fun short => ⟨_, next, rfl, length ▸ short⟩⟩
    | false =>
      rw [Explorer.step, Explorer.iconOnLeftDoubleClick, if_neg (by decide)] at step
      obtain ⟨t, -, e⟩ := Option.map_eq_some_iff.mp step
      cases e
      simp only [fits_cons, fits_nil, Act.Short, List.length_append, List.length_cons]
      exact ⟨by simp; omega, fun _ => ⟨path, plain, rfl, low⟩⟩
  | back =>
    rcases List.eq_nil_or_concat' path with rfl | ⟨outer, name, rfl⟩
    · cases step
      exact ⟨iff_of_true fits_nil trivial, fun _ => ⟨[], plain, rfl, low⟩⟩
    · rw [Explorer.step, backup_ofPath (plain name (by simp))] at step
      cases step
      rw [ofPath_concat] at low
      rw [Act.move, List.dropLast_concat] at next
      have less : (Explorer.ofPath outer).wd.length ≤ 246 := by
        simp only [List.length_append] at low
        omega
      exact ⟨iff_of_true ((strings_fit_iff outer).mpr less) trivial, fun _ => ⟨outer, next, rfl, less⟩⟩
  | newFolder text =>
    cases step
    have buf := lsBuf_length (.ofPath path)
    have size : (Explorer.ofPath path).lsBuf.size = 512 := rfl
    refine ⟨?_, fun _ => ⟨path, plain, rfl, low⟩⟩
    simp only [fits_cons, fits_nil, and_true, Act.Short, List.length_append, List.length_cons]
    omega

/-- All strings of a run fit if and only if the argument is short and each step adds what is short. -/
theorem path_strings_fit_iff {arg : Option (List UInt8)} {labels : List (Act × Done)}
    (run : Steps Explorer.Step (Explorer.init arg) labels e) :
    (Done.Fits ⟨(Explorer.init arg).strings, []⟩ ∧ ∀ l ∈ labels, l.2.Fits) ↔
      (Explorer.init arg).wd.length ≤ 246 ∧
        Steps (Guarded Explorer.Step fun e l => l.1.Short e) (Explorer.init arg) labels e := by
  obtain ⟨start, plain⟩ := init_eq arg
  have first : Done.Fits ⟨_, []⟩ ↔ _ := strings_fit_iff (startPath arg)
  rw [← start] at first
  rw [first]
  refine and_congr_right fun low => ?_
  have within : (Explorer.init arg).Within := ⟨_, plain, start, low⟩
  constructor
  · clear first start low plain
    induction run with
    | nil => exact fun _ => .nil
    | snoc before step ih =>
      intro fits
      have guarded := ih fun l hl => fits l (List.mem_append_left _ hl)
      have here := guarded.invariant within fun within step => (within.step step.2).2 step.1
      exact .snoc guarded ⟨(here.step step).1.mp (fits _ (by simp)), step⟩
  · intro guarded
    refine (guarded.invariant_hist (I := fun labels e => e.Within ∧ ∀ l ∈ labels, l.2.Fits)
      ⟨within, fun _ no => nomatch no⟩ ?_).2
    rintro labels e l e' ⟨within, fits⟩ ⟨short, step⟩
    obtain ⟨here, next⟩ := within.step step
    refine ⟨next short, fun l' hl' => ?_⟩
    rcases List.mem_append.mp hl' with old | new
    · exact fits l' old
    · exact List.mem_singleton.mp new ▸ here.mpr short

theorem path_strings_fit_one : ∃ l e, Steps Explorer.Step (Explorer.init none) [l] e ∧ l.2.Fits := by
  have enter : Explorer.Step (Explorer.init none) (.click (nameOf 1 (by decide) (by decide)) true, _) _ :=
    rfl
  have short : (1 : Nat) + 1 + 1 ≤ 246 := by decide
  have fits := (path_strings_fit_iff (.single enter)).mpr ⟨by decide, .single ⟨short, enter⟩⟩
  exact ⟨_, _, .single enter, fits.2 _ List.mem_cons_self⟩

/-- Eight directories with names of thirty characters are too many, and so are 254 characters that are
typed for a new one. -/
theorem path_strings_overflow :
    (∃ labels e, Steps Explorer.Step (Explorer.init none) labels e ∧ labels.length = 8 ∧
      ∃ l ∈ labels, ¬ l.2.Fits) ∧
    ¬ ((Explorer.init none).newFolder (List.replicate 254 97)).2.Fits := by
  constructor
  · have eight : ((execOut Explorer.step (.init none)
        (List.replicate 8 (.click (nameOf 30 (by decide) (by decide)) true))).any fun r =>
          r.2.length = 8 ∧ r.2.any fun l => l.2.built.any fun b => b.size ≤ b.string.length) = true := by
      decide +kernel
    obtain ⟨⟨e, labels⟩, run, long⟩ := (Option.any_eq_true _ _).mp eight
    obtain ⟨length, long⟩ := of_decide_eq_true long
    obtain ⟨l, hl, long⟩ := List.any_eq_true.mp long
    obtain ⟨b, hb, long⟩ := List.any_eq_true.mp long
    exact ⟨labels, e, .of_execOut run, length, l, hl, fun fits =>
      absurd (fits b hb) (not_lt.mpr (of_decide_eq_true long))⟩
  · intro fits
    have long := fits _ (.head _)
    rw [List.length_append, List.length_cons, List.length_replicate] at long
    exact absurd long (by decide)

end Xv6Gui.App
