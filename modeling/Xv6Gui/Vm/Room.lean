import Xv6Gui.Vm.Calls

/-!
# Enough pages

A directory needs at most one page for each of its entries.  As long as `kalloc` has that many pages
and does not refuse, no page table is missed, so `setupkvm` returns a directory.  This is how a
machine with a process in it comes up.
-/

namespace Xv6Gui

open Effect

attribute [local irreducible] Triple

/-- `kalloc` has `n` pages and does not refuse, and `k` page tables were missed. -/
structure Mem.Room (n k : Nat) (m : Mem) : Prop where
  willing : m.refuse = []
  free : n ≤ m.freelist.length
  missed : m.missed = k

theorem Mem.Room.mono {n n' k : Nat} {m : Mem} (h : m.Room n k) (le : n' ≤ n) : m.Room n' k :=
  ⟨h.willing, le.trans h.free, h.missed⟩

/-- The tables a directory does not have. -/
def PageDir.missing (d : PageDir) : Nat := (Finset.univ.filter fun i => d.table i = none).card

theorem PageDir.missing_le (d : PageDir) : d.missing ≤ nptentries :=
  (Finset.card_le_univ _).trans (Fintype.card_fin _).le

section

variable {n k : Nat} {d : PageDir} {E : VmHalt → Prop}

theorem kalloc_room : Triple (Mem.Room (n + 1) k) kalloc (fun r m => r ≠ none ∧ m.Room n k) E := by
  refine .at_state fun m room => ?_
  obtain ⟨image, freelist, page, refuse, missed⟩ := m
  obtain ⟨rfl, free, rfl⟩ := room
  cases freelist with
  | nil => cases free
  | cons f rest =>
    unfold Triple
    rintro _ rfl
    exact ⟨nofun, rfl, Nat.le_of_succ_le_succ free, rfl⟩

theorem memsetPage_room (frame : Nat) (c : UInt8) :
    Triple (Mem.Room n k) (memsetPage frame c) (fun _ => Mem.Room n k) E :=
  .modify fun _ h => ⟨h.willing, h.free, h.missed⟩

/-- A new table. -/
theorem PageDir.missing_setTable {i : Fin nptentries} (t : PageTable) (h : d.table i = none) :
    (d.setTable i t).missing + 1 = d.missing := by
  have set : (Finset.univ.filter fun j => d.table j = none) =
      insert i (Finset.univ.filter fun j => (d.setTable i t).table j = none) := by
    ext j
    by_cases here : j = i
    · subst here
      simp [h]
    · simp [here, setTable_of_ne here]
  rw [missing, missing, set, Finset.card_insert_of_notMem]
  simp

theorem walkpgdir_room (d : PageDir) (va : Nat) :
    Triple (Mem.Room (d.missing + n) k) (walkpgdir d va true) (fun r m =>
      r.2 ≠ none ∧ m.Room (r.1.missing + n) k) E := by
  cases h : d.table (pdx va) with
  | some t =>
    simp only [walkpgdir, h]
    exact .pure fun m room => ⟨Option.some_ne_none _, room⟩
  | none =>
    simp only [walkpgdir, h, if_true]
    have count := fun t => PageDir.missing_setTable t h
    have some : d.missing + n = (d.missing - 1 + n) + 1 := by
      have one := count ⟨0, fun _ => .zero⟩
      omega
    rw [some]
    refine .bind kalloc_room fun r => .known fun found => ?_
    cases r with
    | none => exact absurd rfl found
    | some f =>
      refine .bind (memsetPage_room f 0) fun _ => .pure fun m room => ⟨Option.some_ne_none _, ?_⟩
      rw [← count ⟨f, fun _ => .zero⟩, Nat.add_sub_cancel] at room
      exact room

theorem PageDir.missing_store (a : Nat) (e : Pte) : (d.store a e).missing = d.missing := by
  rw [missing, missing]
  simp only [table_store]

theorem mappagesLoop_room {perm : Flags} : ∀ {pages a pa : Nat} {d : PageDir},
    Triple (Mem.Room (d.missing + n) k) (mappagesLoop perm pages d a pa) (fun r m =>
      r.2 = 0 ∧ m.Room (r.1.missing + n) k) fun _ => True
  | pages, a, pa, d => by
    rw [mappagesLoop]
    refine .bind (walkpgdir_room d a) fun r => .known fun found => ?_
    obtain ⟨d', e⟩ := r
    cases e with
    | none => exact absurd rfl found
    | some e =>
      refine .ite (fun _ => vmHalt_stops fun _ _ => trivial) fun _ => ?_
      cases pages with
      | zero =>
        refine .pure fun m room => ⟨rfl, ?_⟩
        rwa [PageDir.missing_store]
      | succ pages =>
        refine (mappagesLoop_room).pre fun m room => ?_
        rwa [PageDir.missing_store]

theorem mappages_room {perm : Flags} {va size pa : Nat} :
    Triple (Mem.Room (d.missing + n) k) (mappages d va size pa perm) (fun r m =>
      r.2 = 0 ∧ m.Room (r.1.missing + n) k) fun _ => True :=
  mappagesLoop_room

theorem setupkvmLoop_room : ∀ {ks : List Kmap} {d : PageDir},
    Triple (Mem.Room (d.missing + n) k) (setupkvmLoop ks d) (fun r m =>
      ∃ d', r = some d' ∧ m.Room (d'.missing + n) k) fun _ => True
  | [], d => .pure fun m room => ⟨d, rfl, room⟩
  | region :: ks, d => by
    rw [setupkvmLoop]
    refine .bind mappages_room fun r => .known fun zero => ?_
    obtain ⟨d', r⟩ := r
    have zero : r = 0 := zero
    exact .ite (fun failed => absurd failed (by omega)) fun _ => setupkvmLoop_room

/-- A page for the directory, and one for each of its tables. -/
theorem setupkvm_room : Triple (Mem.Room (nptentries + n + 1) k) setupkvm (fun r m =>
    ∃ d, r = some d ∧ m.Room (d.missing + n) k) fun _ => True := by
  refine .bind kalloc_room fun r => .known fun found => ?_
  cases r with
  | none => exact absurd rfl found
  | some f =>
    refine .bind (memsetPage_room f 0) fun _ => .ite (fun _ => vmHalt_stops fun _ _ => trivial) fun _ =>
      .read_bind fun m room => setupkvmLoop_room.pre fun m room => ⟨room.willing, ?_, room.missed⟩
    have most := PageDir.missing_le ⟨f, fun _ => none⟩
    have free := room.free
    omega

/-- `allocproc` finds a stack. -/
theorem allocprocCall_room {s : Machine} {q : ProcPtr} (unused : (s.ptable q).state = .unused)
    (room : s.mem.Room (n + 1) k) :
    Triple (· = s) allocprocCall (fun r t => r ≠ none ∧ t.mem.Room n k) E := by
  refine .get_bind fun s' e => ?_
  subst e
  cases found : Kernel.entries.find? fun q => (s'.ptable q).state = .unused with
  | none =>
    have all := List.find?_eq_none.mp found q (List.mem_finRange q)
    simp [unused] at all
  | some np =>
    refine setProc_bind (modify_bind (onMem_bind kalloc_room room fun r m post => setProc_bind ?_))
    cases r with
    | none => exact absurd rfl post.1
    | some f =>
      refine .pure fun t e => ?_
      subst e
      exact ⟨nofun, post.2⟩

/-- `inituvm` finds the page and the table. -/
theorem inituvm_room {m : Mem} {A X : Multiset Nat} {image : KernelImage} {init : List UInt8}
    (spans : d.Spans image 0) (short : init.length < pgsize) :
    Triple (fun s => m.Pays A s (d.frames + X) ∧ s.Room (d.missing + n + 1) k) (inituvm d init)
      (fun _ => Mem.Room n k) fun _ => False := by
  have first : 0 < kernbase := by decide
  refine .ite (fun long => absurd short long.not_gt) fun _ => ?_
  refine .bind (kalloc_pays.both kalloc_room) fun r => ?_
  cases r with
  | none => exact .at_state fun s post => absurd rfl post.2.1
  | some mem =>
    refine Triple.pre (P := fun s => m.Pays A s ({mem} + (d.frames + X)) ∧ s.Room (d.missing + n) k) ?_
      fun s post => ⟨post.1, post.2.2⟩
    refine .bind ((memsetPage_pays mem 0).both (memsetPage_room mem 0)) fun _ => ?_
    refine .bind ((((mappages_pays (X := X) (Nat.zero_mod _) first).both mappages_room).pre
      fun s post => ⟨Mem.Pays.congr post.1 ?_, post.2⟩).weaken fun e present => ?_) fun r => ?_
    · abel
    · exact spans.absent 0 (Nat.zero_mod _) le_rfl first present
    · refine .bind (.modify fun s post => ?_) fun _ => .pure fun s room => room
      exact Mem.Room.mono ⟨post.2.2.willing, post.2.2.free, post.2.2.missed⟩ (Nat.le_add_left ..)

/-- `userinit` comes up with a page for the stack, the directory, the first page and each table. -/
theorem userinitCall_returns {s : Machine} {init : List UInt8} {q : ProcPtr}
    (unused : (s.ptable q).state = .unused) (short : init.length < pgsize)
    (room : s.mem.Room (nptentries + n + 3) k) :
    ∃ t, (userinitCall init).run s = .ok ((), t) ∧ t.mem.Room n k := by
  have triple : Triple (· = s) (userinitCall init) (fun _ t => t.mem.Room n k) fun _ => False := by
    refine .bind (((allocprocCall_pays (A := 0)).both (allocprocCall_room unused room)).pre
      fun t e => ⟨e, e⟩) fun r => .at_state fun t post => ?_
    obtain ⟨⟨-, post⟩, found, room⟩ := post
    cases r with
    | none => exact absurd rfl found
    | some p =>
      obtain ⟨-, -, k', -, -, pays⟩ := post
      refine modify_bind (onMem_bind (setupkvm_pays.both (setupkvm_room (n := n + 1)))
        ⟨pays, room⟩ fun r m post => ?_)
      obtain ⟨mapped, d, rfl, room⟩ := post
      obtain ⟨zero, kernel, pays⟩ := mapped
      have room : m.Room (d.missing + n + 1) k := room.mono (by omega)
      refine onMem_bind (inituvm_room (.of_zero zero kernel) short) ⟨pays, room⟩ fun d' m' room => ?_
      rw [← bind_pure (setProc p _)]
      refine setProc_bind (.pure fun t' e => ?_)
      rw [e]
      exact room
  obtain ⟨r, t, run, room⟩ := triple.returns rfl
  exact ⟨t, run, room⟩

end

/-! ## A machine that comes up -/

/-- A free slot. -/
def noProc : VmProc := ⟨.unused, 0, none, 0, none, none, 0, 0, []⟩

/-- The first pages behind the kernel. -/
@[irreducible] def freePages (n : Nat) : List Nat := (List.range n).map (· + 300)

theorem length_freePages (n : Nat) : (freePages n).length = n := by
  rw [freePages, List.length_map, List.length_range]

/-- Free slots, and 4000 free pages. -/
def freshMachine : Machine where
  mem := ⟨smallKernel, freePages 4000, fun _ _ => 0, [], 0⟩
  ptable := fun _ => noProc
  initproc := 0
  nextpid := 1

theorem freshMachine_boots :
    ∃ s, (userinitCall []).run freshMachine = .ok ((), s) ∧ s.mem.Room 2000 0 := by
  have free : nptentries + 2000 + 3 ≤ (freePages 4000).length := by
    simp only [length_freePages, nptentries]
    decide
  exact userinitCall_returns (q := 0) rfl (by decide) ⟨rfl, free, rfl⟩

end Xv6Gui
