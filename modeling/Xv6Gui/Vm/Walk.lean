import Mathlib.Algebra.BigOperators.Fin
import Mathlib.Tactic.Abel
import Xv6Gui.Lib.Effect
import Xv6Gui.Vm.PageTable

/-!
# Entries of a page directory

A directory maps each page of the address space to an entry, and a page without a table to the entry
0 (`PageDir.pte`).  A new table does not change this map, and a store changes it at one page.  Next
to the map the pages are counted that belong to a directory: its own page, the pages of its tables
and the pages of users it maps below `KERNBASE` (`PageDir.frames`).
-/

namespace Xv6Gui

open Effect

variable {a : Nat}

/-! ## Addresses -/

theorem wrap_of_lt {n : Nat} (h : n < 2 ^ 32) : wrap n = n := by
  rw [wrap, Nat.mod_eq_of_lt h]

theorem kernbase_lt : kernbase < 2 ^ 32 := by decide

theorem wrap_nextPage (h : a < kernbase) : wrap (a + pgsize) = a + pgsize := by
  unfold kernbase at h
  unfold wrap pgsize
  omega

theorem wrap_nextTable (h : a < kernbase) :
    wrap (a + (nptentries - 1) * pgsize + pgsize) = a + 2 ^ 22 := by
  unfold kernbase at h
  unfold wrap nptentries pgsize
  omega

theorem pgrounddown_aligned (h : a % pgsize = 0) : pgrounddown a = a := by
  simp only [pgrounddown, pgsize] at *
  omega

theorem lastPage_aligned (small : a < 2 ^ 32) (h : a % pgsize = 0) :
    pgrounddown (wrap (a + pgsize + 2 ^ 32 - 1)) = a := by
  unfold pgrounddown wrap
  unfold pgsize at *
  omega

/-- Both are in one page. -/
def SamePage (a b : Nat) : Prop := pdx a = pdx b ∧ ptx a = ptx b
  deriving Decidable

theorem samePage_iff {b : Nat} (ha : a < 2 ^ 32) (hb : b < 2 ^ 32) :
    SamePage a b ↔ a / pgsize = b / pgsize := by
  simp only [SamePage, pdx, ptx, Fin.mk.injEq, nptentries, pgsize]
  omega

/-- Page-aligned addresses. -/
theorem samePage_aligned {b : Nat} (ha : a < 2 ^ 32) (hb : b < 2 ^ 32) (pa : a % pgsize = 0)
    (pb : b % pgsize = 0) : SamePage a b ↔ a = b := by
  rw [samePage_iff ha hb]
  simp only [pgsize] at *
  omega

/-- The tables below `KERNBASE`. -/
theorem pdx_user {va : Nat} (h : va < 2 ^ 32) : (pdx va).val < 512 ↔ va < kernbase := by
  simp only [pdx, nptentries, kernbase]
  omega

/-- The address of an entry. -/
def pgaddr (i j : Fin nptentries) : Nat := i.val * 2 ^ 22 + j.val * 2 ^ 12

theorem pdx_pgaddr (i j : Fin nptentries) : pdx (pgaddr i j) = i := by
  have hi := i.isLt
  have hj := j.isLt
  apply Fin.ext
  simp only [pdx, pgaddr, nptentries] at *
  omega

theorem ptx_pgaddr (i j : Fin nptentries) : ptx (pgaddr i j) = j := by
  have hi := i.isLt
  have hj := j.isLt
  apply Fin.ext
  simp only [ptx, pgaddr, nptentries] at *
  omega

/-! ## Entries -/

namespace Pte

@[simp] theorem not_present_zero : ¬ zero.Present := by decide

theorem present_or (pa : Nat) (perm : Flags) : (⟨pa, perm ||| pteP⟩ : Pte).Present := by
  intro h
  have bit := congrArg (·.getLsbD 0) h
  simp [pteP] at bit

/-- `clearpteu` leaves a page present. -/
theorem present_clear {e : Pte} : ({ e with flags := e.flags &&& ~~~pteU } : Pte).Present ↔
    e.Present := by
  have mask : (~~~pteU : Flags) &&& pteP = pteP := by decide
  rw [Present, Present, BitVec.and_assoc, mask]

/-- The page of a user that an entry maps. -/
def pages (e : Pte) : Multiset Nat := if e.Present then {e.addr} else 0

@[simp] theorem pages_zero : zero.pages = 0 := if_neg not_present_zero

end Pte

namespace PageDir

variable {d : PageDir} {a va : Nat}

variable {t : PageTable} {i : Fin nptentries}

/-- The entry of an address. -/
def pte (d : PageDir) (va : Nat) : Pte :=
  match d.table (pdx va) with
  | none => .zero
  | some t => t.entry (ptx va)

theorem pte_eq (h : d.table (pdx va) = some t) : d.pte va = t.entry (ptx va) := by
  rw [pte, h]

theorem pte_none (h : d.table (pdx va) = none) : d.pte va = .zero := by
  rw [pte, h]

theorem pte_congr (h : SamePage a va) : d.pte a = d.pte va := by
  rw [pte, pte, h.1, h.2]

@[simp] theorem setTable_self (i : Fin nptentries) (t : PageTable) :
    (d.setTable i t).table i = some t := Function.update_self ..

theorem setTable_of_ne {k : Fin nptentries} (h : k ≠ i) (t : PageTable) :
    (d.setTable i t).table k = d.table k := Function.update_of_ne h ..

/-- Another table is there, and the others as before. -/
theorem table_setTable {k : Fin nptentries} (h : (d.setTable i t).table k = none) :
    d.table k = none := by
  by_cases same : k = i
  · subst same
    simp at h
  · rwa [setTable_of_ne same] at h

/-- A new table does not change the map. -/
theorem pte_newTable (h : d.table (pdx a) = none) (frame : Nat) :
    (d.setTable (pdx a) ⟨frame, fun _ => .zero⟩).pte = d.pte := by
  funext va
  by_cases same : pdx va = pdx a
  · rw [pte_none (d := d) (same ▸ h), pte, same, setTable_self]
  · rw [pte, setTable_of_ne same]
    rfl

theorem store_eq (h : d.table (pdx a) = some t) (e : Pte) :
    d.store a e = d.setTable (pdx a) { t with entry := Function.update t.entry (ptx a) e } := by
  rw [store, h]

theorem pte_store (h : d.table (pdx a) ≠ none) (e : Pte) (va : Nat) :
    (d.store a e).pte va = if SamePage a va then e else d.pte va := by
  obtain ⟨t, ht⟩ := Option.ne_none_iff_exists'.mp h
  rw [store_eq ht]
  by_cases same : pdx va = pdx a
  · rw [pte_eq (d := d) (same ▸ ht), pte, same, setTable_self]
    by_cases entry : ptx va = ptx a
    · rw [if_pos ⟨same.symm, entry.symm⟩, entry]
      exact Function.update_self ..
    · rw [if_neg fun both => entry both.2.symm]
      exact Function.update_of_ne entry ..
  · rw [if_neg fun both => same both.1.symm, pte, setTable_of_ne same]
    rfl

/-- A store leaves the tables where they are. -/
theorem table_store (e : Pte) (i : Fin nptentries) :
    (d.store a e).table i = none ↔ d.table i = none := by
  cases ht : d.table (pdx a) with
  | none => rw [store, ht]
  | some t =>
    rw [store_eq ht]
    by_cases same : i = pdx a
    · simp [same, ht]
    · rw [setTable_of_ne same]

/-! ## Pages of a directory -/

/-- The pages that hang on an entry of the directory. -/
def pagesOf (i : Fin nptentries) : Option PageTable → Multiset Nat
  | none => 0
  | some t => {t.frame} + if i.val < 512 then ∑ j, (t.entry j).pages else 0

/-- The pages of a directory. -/
def frames (d : PageDir) : Multiset Nat := {d.frame} + ∑ i, pagesOf i (d.table i)

theorem frames_empty (frame : Nat) : (⟨frame, fun _ => none⟩ : PageDir).frames = {frame} := by
  simp [frames, pagesOf]

theorem frames_ne_zero (d : PageDir) : d.frames ≠ 0 := by
  rw [frames, Multiset.singleton_add]
  exact Multiset.cons_ne_zero

/-- One summand of a sum changes. -/
theorem sum_update {n : Nat} (f : Fin n → Multiset Nat) (i : Fin n) (b : Multiset Nat) :
    ∑ k, Function.update f i b k + f i = ∑ k, f k + b := by
  rw [Finset.sum_update_of_mem (Finset.mem_univ i), ← Finset.add_sum_erase _ f (Finset.mem_univ i),
    Finset.sdiff_singleton_eq_erase]
  abel

theorem frames_setTable (i : Fin nptentries) (t : PageTable) :
    (d.setTable i t).frames + pagesOf i (d.table i) = d.frames + pagesOf i (some t) := by
  have sum := sum_update (fun k => pagesOf k (d.table k)) i (pagesOf i (some t))
  have same : (fun k => pagesOf k ((d.setTable i t).table k)) =
      Function.update (fun k => pagesOf k (d.table k)) i (pagesOf i (some t)) := by
    funext k
    by_cases hk : k = i
    · subst hk
      simp [setTable]
    · simp [setTable, hk]
  simp only [frames, same]
  rw [add_assoc, sum, add_assoc]
  rfl

theorem frames_newTable (h : d.table (pdx a) = none) (frame : Nat) :
    (d.setTable (pdx a) ⟨frame, fun _ => .zero⟩).frames = d.frames + {frame} := by
  have sum := d.frames_setTable (pdx a) ⟨frame, fun _ => .zero⟩
  simpa [h, pagesOf] using sum

/-- A page below `KERNBASE` is mapped or unmapped. -/
theorem frames_store_user (h : d.table (pdx a) ≠ none) (small : a < kernbase) (e : Pte) :
    (d.store a e).frames + (d.pte a).pages = d.frames + e.pages := by
  obtain ⟨t, ht⟩ := Option.ne_none_iff_exists'.mp h
  have user : (pdx a).val < 512 := (pdx_user (small.trans kernbase_lt)).mpr small
  have sum := d.frames_setTable (pdx a) { t with entry := Function.update t.entry (ptx a) e }
  have entries := sum_update (fun j => (t.entry j).pages) (ptx a) e.pages
  have same : (fun j => (Function.update t.entry (ptx a) e j).pages) =
      Function.update (fun j => (t.entry j).pages) (ptx a) e.pages := by
    funext j
    by_cases hj : j = ptx a
    · subst hj
      simp
    · simp [hj]
  rw [store_eq ht, pte_eq ht]
  simp only [ht, pagesOf, if_pos user, same] at sum
  refine add_right_cancel (b := {t.frame} + ∑ j, (t.entry j).pages) ?_
  rw [add_right_comm, sum, add_assoc, add_assoc, entries]
  abel

/-- A page of the kernel does not count. -/
theorem frames_store_kernel (h : kernbase ≤ a) (small : a < 2 ^ 32) (e : Pte) :
    (d.store a e).frames = d.frames := by
  have kernel : ¬ (pdx a).val < 512 := fun user => absurd ((pdx_user small).mp user) h.not_gt
  cases ht : d.table (pdx a) with
  | none => rw [store, ht]
  | some t =>
    have sum := d.frames_setTable (pdx a) { t with entry := Function.update t.entry (ptx a) e }
    rw [store_eq ht]
    simpa [ht, pagesOf, if_neg kernel] using sum

/-- The page of a table. -/
def tablePage : Option PageTable → Multiset Nat
  | none => 0
  | some t => {t.frame}

/-- Nothing is mapped below the kernel. -/
def Unmapped (d : PageDir) : Prop := ∀ va < kernbase, va % pgsize = 0 → ¬ (d.pte va).Present

theorem sum_entries (f : Fin nptentries → Multiset Nat) : (directoryEntries.map f).sum = ∑ i, f i := by
  unfold directoryEntries
  exact (Fin.sum_univ_def f).symm

theorem frames_of_unmapped (unmapped : d.Unmapped) :
    d.frames = {d.frame} + (directoryEntries.map fun i => tablePage (d.table i)).sum := by
  rw [frames, sum_entries]
  refine congrArg _ (Finset.sum_congr rfl fun i _ => ?_)
  cases table : d.table i with
  | none => rfl
  | some t =>
    rw [pagesOf, tablePage]
    split
    · rename_i user
      have none : ∀ j, (t.entry j).pages = 0 := by
        intro j
        have small : pgaddr i j < 2 ^ 32 := by
          have := i.isLt
          have := j.isLt
          simp only [pgaddr, nptentries] at *
          omega
        have entry : d.pte (pgaddr i j) = t.entry j := by
          rw [pte_eq (by rw [pdx_pgaddr]; exact table), ptx_pgaddr]
        rw [Pte.pages, if_neg]
        rw [← entry]
        refine unmapped _ ((pdx_user small).mp (by rwa [pdx_pgaddr])) ?_
        simp only [pgaddr, pgsize]
        omega
      simp [none]
    · simp

-- Membership in a multiset would unfold the sum over all tables.
attribute [irreducible] frames

theorem mem_frames (small : a < kernbase) (present : (d.pte a).Present) :
    (d.pte a).addr ∈ d.frames := by
  have table : d.table (pdx a) ≠ none := fun none => by
    rw [pte_none none] at present
    exact Pte.not_present_zero present
  have stored := frames_store_user table small .zero
  rw [Pte.pages_zero, add_zero, Pte.pages, if_pos present] at stored
  rw [← stored]
  simp

end PageDir

end Xv6Gui
