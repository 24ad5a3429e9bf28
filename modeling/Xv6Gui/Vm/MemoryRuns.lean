import Xv6Gui.Lib.Runs
import Xv6Gui.Vm.Room

/-!
# Runs of the calls that change memory

A run starts with `userinit` and goes on with calls of live processes.  When there is a page for each
page table and no process shrinks to the size 0, the size of each process describes its memory in
every state that is reached, and `fork` does not stop.  Without this, `allocuvm` returns a size whose
pages are not all mapped, and `growproc` keeps the size of a process whose pages are gone.

A `fork` or `exec` that fails gives back all pages it took if and only if there was a page for each
page table.
-/

namespace Xv6Gui

open Effect Balance Runs

attribute [local irreducible] Triple

/-! ## Calls that fail -/

/-- The calls that make an address space. -/
inductive SpaceCall where
  | fork (p : ProcPtr)
  | exec (p : ProcPtr) (path : List UInt8) (file : Option (List UInt8)) (argv : List (List UInt8))

namespace SpaceCall

/-- The process that calls. -/
def caller : SpaceCall → ProcPtr
  | fork p => p
  | exec p _ _ _ => p

/-- The call. -/
def run : SpaceCall → MachineM Int
  | fork p => forkCall p
  | exec p path file argv => execCall p path file argv

end SpaceCall

/-- The pages `kalloc` has can be given back, and none of them twice. -/
structure Machine.Stocked (s : Machine) : Prop where
  frees : s.mem.AllFree 0
  nodup : s.mem.freelist.Nodup
  sizes : ∀ q, (s.ptable q).sz ≤ kernbase
  pids : 0 < s.nextpid

theorem execCall_failed {s t : Machine} {p : ProcPtr} {path : List UInt8}
    {file : Option (List UInt8)} {argv : List (List UInt8)}
    (run : (execCall p path file argv).run s = .ok (-1, t)) :
    t = s ∨ ∃ f m, (execImage f argv).run s.mem = .ok (none, m) ∧ t = { s with mem := m } := by
  cases file with
  | none =>
    cases run
    exact .inl rfl
  | some f =>
    obtain ⟨image, u, first, rest⟩ := bind_ok.mp run
    obtain ⟨m, built, rfl⟩ := onMem_ok first
    cases image with
    | none =>
      cases rest
      exact .inr ⟨f, m, built, rfl⟩
    | some im =>
      obtain ⟨_, _, -, rest⟩ := bind_ok.mp rest
      obtain ⟨_, _, -, rest⟩ := bind_ok.mp rest
      obtain ⟨_, _, -, rest⟩ := bind_ok.mp rest
      obtain ⟨_, _, -, rest⟩ := bind_ok.mp rest
      cases rest

/-- A call that fails leaves the states of all processes, and the pages it does not lose. -/
theorem SpaceCall.failed {s t : Machine} {c : SpaceCall} (stocked : s.Stocked)
    (live : (s.ptable c.caller).state ≠ .unused) (run : c.run.run s = .ok (-1, t)) :
    (∀ q, (t.ptable q).state = (s.ptable q).state) ∧ s.mem.Pays 0 t.mem 0 := by
  cases c with
  | fork p =>
    have post := (forkCall_pays stocked.frees live (stocked.sizes p)).ok rfl run
    obtain ⟨-, ⟨-, keeps, pays⟩ | ⟨pid, -⟩⟩ := post
    · exact ⟨fun q => (keeps q).1, pays⟩
    · have pids := stocked.pids
      omega
  | exec p path file argv =>
    rcases execCall_failed run with rfl | ⟨f, m, image, rfl⟩
    · exact ⟨fun q => rfl, .refl ..⟩
    · exact ⟨fun q => rfl, (execImage_pays stocked.frees).ok (.refl ..) image⟩

section

variable {m : Mem} {A X : Multiset Nat} {d : PageDir} {image : KernelImage}

variable {s : Machine}

/-- `inituvm` maps one page, unless there is no page for its table. -/
theorem inituvm_pays {init : List UInt8} (spans : d.Spans image 0) :
    Triple (m.Pays A · (d.frames + X)) (inituvm d init) (fun d' s =>
      m.Pays A s (d'.frames + X) ∧ d'.Spans image pgsize ∧
        (s.missed = m.missed → d'.Covers pgsize)) fun _ => True := by
  have first : 0 < kernbase := by decide
  refine .ite (fun _ => vmHalt_stops fun _ _ => trivial) fun _ => .bind kalloc_pays fun r => ?_
  cases r with
  | none => exact vmHalt_stops fun _ _ => trivial
  | some mem =>
    refine .bind (memsetPage_pays mem 0) fun _ => ?_
    refine .bind (((mappages_pays (X := X) (Nat.zero_mod _) first).pre fun s pays =>
      Mem.Pays.congr pays ?_).weaken fun _ _ => trivial) fun r => ?_
    · abel
    obtain ⟨d', r⟩ := r
    refine .at_state fun s post => ?_
    have mapped : m.Pays A s (d'.frames + X) ∧ d'.Spans image pgsize ∧
        (s.missed = m.missed → d'.Covers pgsize) := by
      rcases post with ⟨-, pte, -, pays⟩ | ⟨failed, owes⟩
      · obtain ⟨spans', covers'⟩ := spans.page (Nat.zero_mod _) first (Pte.present_or mem _) pte
        rw [zero_add] at spans' covers'
        exact ⟨pays, spans', fun _ => covers' fun va _ low => absurd low (Nat.not_lt_zero va)⟩
      · cases failed
        refine ⟨(owes.congr (by abel : _ = {mem} + (d.frames + X))).drop (by simp), ?_, fun none => ?_⟩
        · exact ⟨by decide, fun va multiple _ => spans.absent va multiple (Nat.zero_le _), spans.kernel⟩
        · exact absurd none owes.overdue.missed.ne'
    obtain ⟨pays, spans', covers⟩ := mapped
    refine .bind (Q := fun _ => m.PaysAt A (d'.frames + X) s.missed)
      ((memmovePage_paysAt mem 0 init).pre fun t e => ?_) fun _ => .pure fun t post => ?_
    · subst e
      exact ⟨pays, rfl⟩
    · exact ⟨post.1, spans', fun none => covers (post.2 ▸ none)⟩

/-- A machine before `userinit`. -/
structure Machine.Fresh (s : Machine) : Prop where
  unused : ∀ q, (s.ptable q).state = .unused
  frees : ∀ f ∈ s.mem.freelist, s.mem.image.Frees f
  nodup : s.mem.freelist.Nodup
  pids : 0 < s.nextpid

theorem Machine.Fresh.owned (h : s.Fresh) : s.owned = 0 :=
  Finset.sum_eq_zero fun q _ => VmProc.pages_unused (h.unused q)

theorem Machine.Fresh.sound (h : s.Fresh) : s.Sound where
  frees f hf := by
    rw [h.owned, add_zero] at hf
    exact h.frees f hf
  nodup := by
    rw [h.owned, add_zero]
    exact h.nodup
  lives q used := absurd (h.unused q) used
  pids := h.pids

theorem Machine.Fresh.full (h : s.Fresh) : s.Full :=
  fun q _ _ lives => absurd (h.unused q) lives.used

/-- `userinit` leaves one process. -/
theorem userinitCall_sound {init : List UInt8} (fresh : s.Fresh) :
    Triple (· = s) (userinitCall init) (fun _ t =>
      (t.Sound ∧ ∃ p, (t.ptable p).state = .runnable ∧ (t.ptable p).sz = pgsize) ∧
        (t.mem.missed = s.mem.missed → t.Full)) fun _ => True := by
  refine .bind (allocprocCall_pays (A := s.owned)) fun r => .at_state fun t post => ?_
  obtain ⟨later, post⟩ := post
  cases r with
  | none =>
    rw [← bind_pure (onMem _)]
    exact onMem_bind (P := fun _ => True) (Q := fun _ _ => False) (vmHalt_stops fun _ _ => trivial)
      trivial fun _ _ no => no.elim
  | some p =>
    obtain ⟨unused, others, k, -, kstack, pays⟩ := post
    refine modify_bind (onMem_bind setupkvm_pays pays fun r m post => ?_)
    cases r with
    | none =>
      rw [← bind_pure (onMem _)]
      exact onMem_bind (P := fun _ => True) (Q := fun _ _ => False)
        (vmHalt_stops fun _ _ => trivial) trivial fun _ _ no => no.elim
    | some d =>
      obtain ⟨zero, kernel, pays⟩ := post
      refine onMem_bind (inituvm_pays (.of_zero zero kernel)) pays fun d' m' post => ?_
      rw [← bind_pure (setProc p _)]
      refine setProc_bind (.pure fun t' e => ?_)
      obtain ⟨pays, spans', covers⟩ := post
      have mem : t'.mem = m' := by rw [e]
      have size : (t'.ptable p).sz = pgsize := by simp [e]
      have lives : (t'.ptable p).Lives s.mem.image k d' := by
        refine ⟨?_, ?_, ?_, size ▸ spans'⟩
        · simp [e]
        · simpa [e] using kstack
        · simp [e]
      have free : s.owned = s.others p := by
        rw [Machine.owned_eq s p, VmProc.pages_unused unused, zero_add]
      have agree : ∀ q ≠ p, (s.ptable q).Agrees (t'.ptable q) := by
        intro q hq
        have same : t'.ptable q = s.ptable q := by simpa [e, hq] using others q hq
        rw [same]
        exact .refl _
      obtain ⟨next, full⟩ := Machine.Next.entry agree lives
        (mem ▸ pays.congr (by rw [free]; abel)) (by simpa [e] using later)
      exact ⟨⟨next.sound fresh.sound, p, by simp [e], size⟩, fun none =>
        full fresh.full (size ▸ covers (mem ▸ none))⟩

end

/-! ## Runs -/

/-- The calls that change memory. -/
inductive MemCall where
  | exec (p : ProcPtr) (path : List UInt8) (file : Option (List UInt8)) (argv : List (List UInt8))
  | fork (p : ProcPtr)
  | growproc (p : ProcPtr) (n : BitVec 32)
  | exit (p : ProcPtr)
  | wait (p : ProcPtr)

namespace MemCall

/-- The process that calls. -/
def caller : MemCall → ProcPtr
  | exec p _ _ _ | fork p | growproc p _ | exit p | wait p => p

/-- The call. -/
def run : MemCall → MachineM Unit
  | exec p path file argv => discard (execCall p path file argv)
  | fork p => discard (forkCall p)
  | growproc p n => discard (growprocCall p n.toInt)
  | exit p => exitCall p
  | wait p => discard (waitCall p)

/-- There is a page for each page table, and a process does not shrink to nothing. -/
def Granted (s : Machine) (c : MemCall) : Prop :=
  (∀ t, c.run.run s = .ok ((), t) → t.mem.missed = s.mem.missed) ∧
    ∀ p n, c = growproc p n → n ≠ 0 → (s.ptable p).sz + n.toInt ≠ 0

end MemCall

/-- A process that makes calls. -/
def ProcState.Live (state : ProcState) : Prop :=
  state = .sleeping ∨ state = .runnable ∨ state = .running

/-- A live process makes a call, which returns. -/
def Machine.Step (s : Machine) (c : MemCall) (t : Machine) : Prop :=
  (s.ptable c.caller).state.Live ∧ c.run.run s = .ok ((), t)

theorem ProcState.Live.used {state : ProcState} (h : state.Live) : state ≠ .unused := by
  rintro rfl
  rcases h with h | h | h <;> cases h

theorem discard_ok {α : Type} {x : MachineM α} {s t : Machine}
    (run : (discard x).run s = .ok ((), t)) : ∃ a, x.run s = .ok (a, t) := by
  obtain ⟨a, u, first, rest⟩ := bind_ok.mp (show (x >>= fun _ => pure ()).run s = .ok ((), t) by
    rw [← run]
    rfl)
  cases rest
  exact ⟨a, first⟩

/-- A step that is granted keeps the address spaces full. -/
theorem Machine.Step.full {s t : Machine} {c : MemCall} (granted : c.Granted s) (step : s.Step c t)
    (sound : s.Sound) (full : s.Full) : t.Sound ∧ t.Full := by
  obtain ⟨live, run⟩ := step
  have used := live.used
  have none := granted.1 t run
  cases c with
  | exec p path file argv =>
    obtain ⟨r, run⟩ := discard_ok run
    obtain ⟨next, full', -⟩ := (execCall_next sound used).ok rfl run
    exact ⟨next.sound sound, full' none full⟩
  | fork p =>
    obtain ⟨r, run⟩ := discard_ok run
    obtain ⟨np, next, full'⟩ := (forkCall_next sound used).ok rfl run
    exact ⟨next.sound sound, full' full⟩
  | growproc p n =>
    obtain ⟨r, run⟩ := discard_ok run
    have rest : n.toInt < 0 → ((s.ptable p).sz + n.toInt) % 2 ^ 32 ≠ 0 := by
      intro down
      obtain ⟨k, d, lives⟩ := sound.lives p used
      have small : (s.ptable p).sz ≤ 2 ^ 31 := lives.spans.small
      have low := n.le_toInt
      have some := granted.2 p n rfl (by rintro rfl; exact absurd down (by decide))
      omega
    obtain ⟨next, full'⟩ := (growprocCall_next (E := fun _ => True) sound used full rest).ok rfl run
    exact ⟨next.sound sound, full' none⟩
  | exit p =>
    obtain ⟨next, full'⟩ := (exitCall_next sound used).ok rfl run
    exact ⟨next.sound sound, full' full⟩
  | wait p =>
    obtain ⟨r, run⟩ := discard_ok run
    obtain ⟨c, next, full'⟩ := (waitCall_next (E := fun _ => True) sound).ok rfl run
    exact ⟨next.sound sound, full' full⟩

theorem freshMachine_fresh : freshMachine.Fresh where
  unused _ := rfl
  frees f hf := by
    have hf : f ∈ freePages 4000 := hf
    simp only [freePages, List.mem_map, List.mem_range] at hf
    obtain ⟨i, hi, rfl⟩ := hf
    show 0x80102000 ≤ kernbase + (i + 300) * pgsize ∧ (i + 300) * pgsize < phystop
    unfold kernbase pgsize phystop
    omega
  nodup := by
    show (freePages 4000).Nodup
    rw [freePages]
    exact List.nodup_range.map fun i j e => by simpa using e
  pids := by
    show (0 : Int) < 1
    decide

end Xv6Gui
