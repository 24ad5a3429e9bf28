import Xv6Gui.App.Icons

/-!
# Listing a directory

`ls` of `desktop.c` and `explorer.c` reads a directory and makes an icon and a widget of each entry
that is neither free nor `.` nor `..` nor a device.  It counts the icons from 0 and the widgets from
those the window has besides, and it compares neither with the size of an array.  It does not close
the directory, so a descriptor is lost each time.

An `open` succeeds if what it opens is found, which includes that the kernel has a file structure for
it, and if the process has a free descriptor.
-/

namespace Xv6Gui.App

/-! ## Descriptors -/

/-- `NOFILE`. -/
def nofile : Nat := 16

/-- The entries of `proc->ofile` that are in use. -/
abbrev Descriptors := Fin nofile → Bool

/-- `fdalloc`. -/
def fdalloc (o : Descriptors) : Option (Fin nofile) := (List.finRange nofile).find? fun fd => !o fd

/-- `open`. -/
def openFile (found : Bool) (o : Descriptors) : Option (Fin nofile × Descriptors) :=
  if found then (fdalloc o).map fun fd => (fd, Function.update o fd true) else none

/-- `close`. -/
def closeFile (fd : Fin nofile) (o : Descriptors) : Descriptors := Function.update o fd false

/-- `stat`, for a path under which there may be something of some type. -/
def stat (type : Option Int) (o : Descriptors) : Option Int × Descriptors :=
  match openFile type.isSome o with
  | none => (none, o)
  | some (fd, o) => (type, closeFile fd o)

/-- What `readBitmapFile` does to the descriptors. -/
def bitmapDescriptors (found : Bool) (o : Descriptors) : Descriptors :=
  match openFile found o with
  | none => o
  | some (fd, o) => closeFile fd o

/-- The free descriptors. -/
def free (o : Descriptors) : Nat := (Finset.univ.filter fun fd => o fd = false).card

variable {o : Descriptors} {fd : Fin nofile}

theorem fdalloc_free (h : fdalloc o = some fd) : o fd = false := by
  simpa using List.find?_some h

theorem fdalloc_eq_none : fdalloc o = none ↔ free o = 0 := by
  simp [fdalloc, free, Finset.filter_eq_empty_iff]

theorem free_update (h : o fd = false) : free (Function.update o fd true) + 1 = free o := by
  have split : (Finset.univ.filter fun k => o k = false) =
      insert fd (Finset.univ.filter fun k => Function.update o fd true k = false) := by
    ext k
    by_cases here : k = fd
    · simp [here, h]
    · simp [here]
  rw [free, free, split, Finset.card_insert_of_notMem (by simp)]

theorem close_open (h : o fd = false) : closeFile fd (Function.update o fd true) = o := by
  rw [closeFile, Function.update_idem, ← h, Function.update_eq_self]

/-- `open` and `close` leave the descriptors as they were. -/
theorem stat_eq (type : Option Int) (o : Descriptors) :
    stat type o = (if free o = 0 then none else type, o) := by
  cases type with
  | none => simp [stat, openFile]
  | some type =>
    rw [stat, openFile, Option.isSome_some, if_pos rfl]
    cases alloc : fdalloc o with
    | none => simp [fdalloc_eq_none.mp alloc]
    | some fd =>
      have some : free o ≠ 0 := fun zero => by simp [fdalloc_eq_none.mpr zero] at alloc
      simp [some, close_open (fdalloc_free alloc)]

theorem bitmapDescriptors_eq (found : Bool) (o : Descriptors) : bitmapDescriptors found o = o := by
  cases found with
  | false => rfl
  | true =>
    rw [bitmapDescriptors, openFile, if_pos rfl]
    cases alloc : fdalloc o with
    | none => rfl
    | some fd => exact close_open (fdalloc_free alloc)

/-! ## `ls` -/

/-- An entry of a directory, with the type of what `stat` finds under its name. -/
structure Entry where
  inum : Nat
  name : FileName
  type : Option Int

/-- What `ls` meets: a directory that is found or not, its entries, the bitmaps that are found, and
what is in `buf`. -/
structure Visit where
  found : Bool
  entries : List Entry
  bitmaps : Picture → Bool
  buf : Nat → UInt8

/-- An icon that `ls` makes. -/
structure Icon where
  leftTopX : Int
  leftTopY : Int
  picture : Option Picture
  text : List UInt8

/-- The descriptors of the process, `icon[0]` to `icon[i - 1]`, and `widgetsNum`. -/
structure Listing where
  ofile : Descriptors
  icons : List Icon
  widgetsNum : Nat

/-- The programs with an `ls`. -/
inductive Lister where
  | desktop
  | explorer

/-- The widgets its window has besides. -/
def Lister.first : Lister → Nat
  | desktop => 1
  | explorer => 3

/-- `leftTopX` and `leftTopY` of an icon. -/
def Lister.place : Lister → Nat → Int × Int
  | desktop, i => (50 + (i / 6) * 140, 50 + (i % 6) * 140)
  | explorer, i => (50 + (i % 6) * 140, 150 + (i / 6) * 140)

/-- The picture for a type and a name. -/
def pictureFor (type : Int) (tmpName : List UInt8) (buf : Nat → UInt8) : Option Picture :=
  if type = tDir then some .folder else if type = tFile then some (picture tmpName buf) else none

/-- `ls` for one entry. -/
def lsEntry (p : Lister) (path : List UInt8) (v : Visit) (s : Listing) (e : Entry) : Listing :=
  if e.inum = 0 then s
  else
    let (type, ofile) := stat e.type s.ofile
    match type with
    | none => { s with ofile := ofile }
    | some type =>
      let tmpName := fmtname (path ++ slash :: e.name.chars)
      if tmpName = [dot] ∨ tmpName = [dot, dot] ∨ type = tDev then { s with ofile := ofile }
      else
        let i := s.icons.length
        let shape := pictureFor type tmpName v.buf
        { ofile := shape.elim ofile fun shape => bitmapDescriptors (v.bitmaps shape) ofile
          icons := s.icons ++ [⟨(p.place i).1, (p.place i).2, shape, tmpName⟩]
          widgetsNum := s.widgetsNum + 1 }

/-- `ls`. -/
def ls (p : Lister) (path : List UInt8) (v : Visit) (s : Listing) : Listing :=
  match openFile v.found s.ofile with
  | none => { s with icons := [] }
  | some (_, ofile) => v.entries.foldl (lsEntry p path v) { s with ofile := ofile, icons := [] }

/-- `refresh`.  When `main` calls `ls`, the window has its first widgets only, too. -/
def refresh (p : Lister) (path : List UInt8) (v : Visit) (s : Listing) : Listing :=
  ls p path v { s with widgetsNum := p.first }

/-- `main` and the refreshes after it, with the directory and what `ls` meets there. -/
def listings (p : Lister) (o : Descriptors) (visits : List (List UInt8 × Visit)) : Listing :=
  visits.foldl (fun s v => refresh p v.1 v.2 s) ⟨o, [], p.first⟩

/-- An entry that gets an icon. -/
def Entry.Listed (e : Entry) : Prop :=
  e.inum ≠ 0 ∧ e.type ≠ none ∧ e.type ≠ some tDev ∧ e.name.chars ≠ [dot] ∧ e.name.chars ≠ [dot, dot]
  deriving Decidable

/-- The number of icons, with `n` free descriptors when `ls` is called. -/
def Visit.listed (v : Visit) (n : Nat) : Nat :=
  if v.found ∧ 2 ≤ n then v.entries.countP (·.Listed) else 0

/-- An entry that is listed is one icon and one widget. -/
theorem lsEntry_counts (p : Lister) (path : List UInt8) (v : Visit) (s : Listing) (e : Entry) :
    (lsEntry p path v s e).ofile = s.ofile ∧
    (lsEntry p path v s e).icons.length =
      s.icons.length + (if free s.ofile ≠ 0 ∧ e.Listed then 1 else 0) ∧
    (lsEntry p path v s e).widgetsNum =
      s.widgetsNum + if free s.ofile ≠ 0 ∧ e.Listed then 1 else 0 := by
  rw [lsEntry, stat_eq, fmtname_append e.name.plain]
  by_cases unused : e.inum = 0
  · simp [unused, Entry.Listed]
  · rw [if_neg unused]
    by_cases full : free s.ofile = 0
    · simp [full]
    · cases type : e.type with
      | none => simp [full, Entry.Listed, type]
      | some type' =>
        simp only [if_neg full]
        by_cases skip : e.name.chars = [dot] ∨ e.name.chars = [dot, dot] ∨ type' = tDev
        · rw [if_pos skip, if_neg]
          · exact ⟨rfl, rfl, rfl⟩
          · rintro ⟨-, -, -, device, first, second⟩
            rw [type] at device
            rcases skip with skip | skip | rfl
            · exact first skip
            · exact second skip
            · exact device rfl
        · rw [if_neg skip, if_pos]
          · refine ⟨?_, by simp, rfl⟩
            cases pictureFor type' e.name.chars v.buf with
            | none => rfl
            | some shape => exact bitmapDescriptors_eq ..
          · simp only [not_or] at skip
            exact ⟨full, unused, by simp [type], by simp [type, skip.2.2], skip.1, skip.2.1⟩

theorem foldl_lsEntry_counts (p : Lister) (path : List UInt8) (v : Visit) (s : Listing)
    (entries : List Entry) :
    (entries.foldl (lsEntry p path v) s).ofile = s.ofile ∧
    (entries.foldl (lsEntry p path v) s).icons.length =
      s.icons.length + (if free s.ofile ≠ 0 then entries.countP (·.Listed) else 0) ∧
    (entries.foldl (lsEntry p path v) s).widgetsNum =
      s.widgetsNum + if free s.ofile ≠ 0 then entries.countP (·.Listed) else 0 := by
  induction entries generalizing s with
  | nil => simp
  | cons e entries ih =>
    obtain ⟨ofile, icons, widgets⟩ := lsEntry_counts p path v s e
    obtain ⟨ofile', icons', widgets'⟩ := ih (lsEntry p path v s e)
    rw [List.foldl_cons, ofile', icons', widgets', ofile, icons, widgets, List.countP_cons]
    by_cases full : free s.ofile = 0
    · simp [full]
    · by_cases listed : e.Listed
      · simp [full, listed]
        omega
      · simp [full, listed]

/-- A refresh lists the directory if two descriptors are free, and it takes one of them. -/
theorem refresh_counts (p : Lister) (path : List UInt8) (v : Visit) (s : Listing) :
    (refresh p path v s).icons.length = v.listed (free s.ofile) ∧
    (refresh p path v s).widgetsNum = p.first + v.listed (free s.ofile) ∧
    free (refresh p path v s).ofile = free s.ofile - (if v.found then 1 else 0) := by
  rw [refresh, ls, Visit.listed, openFile]
  cases found : v.found with
  | false => simp
  | true =>
    rw [if_pos rfl]
    cases alloc : fdalloc s.ofile with
    | none => simp [fdalloc_eq_none.mp alloc]
    | some fd =>
      have rest := free_update (fdalloc_free alloc)
      obtain ⟨ofile, icons, widgets⟩ := foldl_lsEntry_counts p path v
        ⟨Function.update s.ofile fd true, [], p.first⟩ v.entries
      have two : free (Function.update s.ofile fd true) ≠ 0 ↔ 2 ≤ free s.ofile := by omega
      simp only [two] at icons widgets
      simp only [Option.map_some, true_and, if_true]
      rw [ofile, icons, widgets]
      exact ⟨by simp, rfl, by dsimp only; omega⟩

/-! ## Tables -/

/-- `MAX_WIDGET_NUM`. -/
def maxWidgetNum : Nat := 32

/-- The icons are in `icon` and `folder`, which have 50 entries, and the widgets in `widgets`. -/
def Listing.Fits (s : Listing) : Prop := s.icons.length ≤ 50 ∧ s.widgetsNum ≤ maxWidgetNum

theorem listings_concat (p : Lister) (o : Descriptors) (visits : List (List UInt8 × Visit))
    (v : List UInt8 × Visit) :
    listings p o (visits ++ [v]) = refresh p v.1 v.2 (listings p o visits) := by
  simp [listings]

/-- In a run of refreshes the tables are never too small if and only if each of them lists no more
entries than there is room for in `widgets`. -/
theorem tables_fit_iff (p : Lister) (o : Descriptors) (visits : List (List UInt8 × Visit)) :
    (∀ before, before <+: visits → (listings p o before).Fits) ↔
      ∀ before v, before ++ [v] <+: visits →
        p.first + v.2.listed (free (listings p o before).ofile) ≤ maxWidgetNum := by
  have small : 1 ≤ p.first ∧ p.first ≤ 3 := by cases p <;> decide
  constructor
  · intro fits before v le
    obtain ⟨-, widgets, -⟩ := refresh_counts p v.1 v.2 (listings p o before)
    rw [← widgets, ← listings_concat]
    exact (fits _ le).2
  · intro short before le
    rcases List.eq_nil_or_concat' before with rfl | ⟨before, v, rfl⟩
    · exact ⟨Nat.zero_le _, show p.first ≤ 32 by omega⟩
    · obtain ⟨icons, widgets, -⟩ := refresh_counts p v.1 v.2 (listings p o before)
      have short := short before v le
      rw [Listing.Fits, listings_concat, icons, widgets]
      refine ⟨?_, short⟩
      unfold maxWidgetNum at short
      omega

/-- The descriptors of a program that `sh` or `init` has started. -/
def standardFiles : Descriptors := fun fd => fd.val < 3

theorem letter_plain (i : Fin 64) : 0 ∉ [64 + UInt8.ofNat i.val] ∧ slash ∉ [64 + UInt8.ofNat i.val] := by
  decide +revert

/-- A name of one character, from `@` on. -/
def letter (i : Fin 64) : FileName where
  chars := [64 + UInt8.ofNat i.val]
  some := List.cons_ne_nil _ _
  short := show 1 ≤ 30 from Nat.le_add_left 1 29
  nonzero := (letter_plain i).1
  plain := (letter_plain i).2

/-- A directory with the first of these files, each with an inode of its own. -/
def manyFiles (n : Nat) : Visit where
  found := true
  entries := ((List.finRange 64).take n).map fun i => ⟨i.val + 2, letter i, some tFile⟩
  bitmaps _ := true
  buf _ := 0

/-- 32 files on the desktop and 30 files in the explorer are too many. -/
theorem tables_overflow :
    (listings .desktop standardFiles [([dot], manyFiles 32)]).widgetsNum = 33 ∧
    (listings .explorer standardFiles [([dot], manyFiles 30)]).widgetsNum = 33 := by
  decide +kernel

/-! ## Open directories -/

/-- The directories of a run are found. -/
theorem free_listings (p : Lister) (o : Descriptors) {visits : List (List UInt8 × Visit)}
    (found : ∀ v ∈ visits, v.2.found) :
    free (listings p o visits).ofile = free o - visits.length := by
  induction visits using List.reverseRecOn with
  | nil => rfl
  | append_singleton visits v ih =>
    obtain ⟨-, -, rest⟩ := refresh_counts p v.1 v.2 (listings p o visits)
    rw [listings_concat, rest, ih fun v hv => found v (List.mem_append_left _ hv),
      if_pos (found v (by simp)), List.length_append, List.length_singleton]
    omega

/-- A refresh leaves the descriptors as they are if and only if the directory does not open.  After
some refreshes of directories that are found, all entries of another one are listed if and only if
there were two descriptors more than refreshes. -/
theorem descriptors_kept_iff (p : Lister) :
    (∀ path v s, (refresh p path v s).ofile = s.ofile ↔ openFile v.found s.ofile = none) ∧
    ∀ o visits path v, (∀ v ∈ visits, v.2.found) → v.found →
      ((refresh p path v (listings p o visits)).icons.length = v.entries.countP (·.Listed) ↔
        v.entries.countP (·.Listed) = 0 ∨ visits.length + 2 ≤ free o) := by
  refine ⟨fun path v s => ?_, fun o visits path v all found => ?_⟩
  · constructor
    · intro same
      obtain ⟨-, -, rest⟩ := refresh_counts p path v s
      rw [same] at rest
      rw [openFile]
      cases found : v.found with
      | false => rfl
      | true =>
        rw [found, if_pos rfl] at rest
        rw [if_pos rfl, fdalloc_eq_none.mpr (by omega)]
        rfl
    · intro none
      rw [refresh, ls]
      simp only [none]
  · obtain ⟨icons, -⟩ := refresh_counts p path v (listings p o visits)
    rw [icons, Visit.listed, free_listings p o all]
    by_cases two : 2 ≤ free o - visits.length
    · rw [if_pos ⟨found, two⟩]
      exact iff_of_true rfl (.inr (by omega))
    · rw [if_neg fun both => two both.2]
      omega

/-- The first `ls` takes a descriptor, and after 12 of them a directory with a file looks empty. -/
theorem descriptors_lost :
    (listings .desktop standardFiles [([dot], manyFiles 1)]).ofile ≠ standardFiles ∧
    (refresh .desktop [dot] (manyFiles 1)
      (listings .desktop standardFiles (List.replicate 12 ([dot], manyFiles 1)))).icons.length = 0 := by
  decide +kernel

end Xv6Gui.App
