import Xv6Gui.Vm.Exec

/-!
# System calls and pages

Each page is free, or it belongs to one process, as its kernel stack or as a page of its directory
(`Machine.owned`), or it is lost.  A call gives back or keeps what it takes, so a page that is free
twice, or free and in use, does not come up (`Machine.Sound`).  With a page for each page table the
address spaces stay full as well (`Machine.Full`).
-/

namespace Xv6Gui

open Effect

attribute [local irreducible] Triple

/-! ## Pages of processes -/

/-- The page of a stack. -/
def stackPages : Option Nat → Multiset Nat
  | none => 0
  | some k => {k}

/-- The pages of a directory. -/
def dirPages : Option PageDir → Multiset Nat
  | none => 0
  | some d => d.frames

namespace VmProc

/-- The pages of a process. -/
def pages (e : VmProc) : Multiset Nat :=
  if e.state = .unused then 0 else stackPages e.kstack + dirPages e.pgdir

/-- A process with its stack and its address space. -/
structure Lives (e : VmProc) (image : KernelImage) (k : Nat) (d : PageDir) : Prop where
  used : e.state ≠ .unused
  kstack : e.kstack = some k
  pgdir : e.pgdir = some d
  spans : d.Spans image e.sz

/-- The same memory. -/
structure Agrees (e e' : VmProc) : Prop where
  state : e'.state = e.state
  memory : e.state ≠ .unused → e'.kstack = e.kstack ∧ e'.pgdir = e.pgdir ∧ e'.sz = e.sz

variable {e e' : VmProc} {image : KernelImage} {k : Nat} {d : PageDir}

theorem Agrees.refl (e : VmProc) : e.Agrees e := ⟨rfl, fun _ => ⟨rfl, rfl, rfl⟩⟩

theorem pages_unused (h : e.state = .unused) : e.pages = 0 := if_pos h

theorem Lives.pages (h : e.Lives image k d) : e.pages = {k} + d.frames := by
  rw [VmProc.pages, if_neg h.used, h.kstack, h.pgdir]
  rfl

theorem Agrees.pages (h : e.Agrees e') : e'.pages = e.pages := by
  rw [VmProc.pages, VmProc.pages, h.state]
  split
  · rfl
  · rename_i used
    obtain ⟨kstack, pgdir, -⟩ := h.memory used
    rw [kstack, pgdir]

theorem Lives.agrees (lives : e.Lives image k d) (h : e.Agrees e') : e'.Lives image k d := by
  obtain ⟨kstack, pgdir, sz⟩ := h.memory lives.used
  exact ⟨h.state ▸ lives.used, kstack.trans lives.kstack, pgdir.trans lives.pgdir, sz ▸ lives.spans⟩

theorem Agrees.symm (h : e.Agrees e') : e'.Agrees e := by
  refine ⟨h.state.symm, fun used => ?_⟩
  obtain ⟨kstack, pgdir, sz⟩ := h.memory (h.state ▸ used)
  exact ⟨kstack.symm, pgdir.symm, sz.symm⟩

end VmProc

namespace Machine

variable {s t : Machine} {p : ProcPtr}

/-- The pages of all processes. -/
def owned (s : Machine) : Multiset Nat := ∑ q, (s.ptable q).pages

/-- The pages of the processes other than `p`. -/
def others (s : Machine) (p : ProcPtr) : Multiset Nat := ∑ q ∈ Finset.univ.erase p, (s.ptable q).pages

theorem owned_eq (s : Machine) (p : ProcPtr) : s.owned = (s.ptable p).pages + s.others p :=
  (Finset.add_sum_erase _ (fun q => (s.ptable q).pages) (Finset.mem_univ p)).symm

/-- The pages of one process, and those of the others. -/
theorem owned_lives {image : KernelImage} {k : Nat} {d : PageDir}
    (lives : (s.ptable p).Lives image k d) : s.owned = d.frames + ({k} + s.others p) := by
  rw [owned_eq s p, lives.pages]
  abel

theorem others_congr (h : ∀ q ≠ p, (s.ptable q).Agrees (t.ptable q)) : t.others p = s.others p :=
  Finset.sum_congr rfl fun q hq => (h q (Finset.ne_of_mem_erase hq)).pages

/-- No page is free twice, or free and in use, and each process has its memory. -/
structure Sound (s : Machine) : Prop where
  frees : s.mem.AllFree s.owned
  nodup : ((s.mem.freelist : Multiset Nat) + s.owned).Nodup
  lives : ∀ q, (s.ptable q).state ≠ .unused → ∃ k d, (s.ptable q).Lives s.mem.image k d
  pids : 0 < s.nextpid

/-- Each process has all pages below its size. -/
def Full (s : Machine) : Prop :=
  ∀ q k d, (s.ptable q).Lives s.mem.image k d → d.Covers (s.ptable q).sz

/-- A call that changes the entry of `p`. -/
structure Next (s : Machine) (p : ProcPtr) (t : Machine) : Prop where
  others : ∀ q ≠ p, (s.ptable q).Agrees (t.ptable q)
  pays : s.mem.Pays s.owned t.mem ((t.ptable p).pages + s.others p)
  lives : (t.ptable p).state ≠ .unused → ∃ k d, (t.ptable p).Lives s.mem.image k d
  pids : s.nextpid ≤ t.nextpid

theorem Next.owned (h : s.Next p t) : t.owned = (t.ptable p).pages + s.others p := by
  rw [owned_eq t p, others_congr h.others]

theorem Next.sound (h : s.Next p t) (sound : s.Sound) : t.Sound where
  frees := by
    rw [h.owned]
    exact h.pays.allFree sound.frees
  nodup := by
    rw [h.owned]
    obtain ⟨lost, count, -⟩ := h.pays.kept.count
    have nodup := sound.nodup
    rw [show (s.mem.freelist : Multiset Nat) + s.owned = _ from count.symm] at nodup
    exact (Multiset.nodup_add.mp nodup).1
  lives q used := by
    rw [h.pays.image]
    by_cases here : q = p
    · subst here
      exact h.lives used
    · have same := h.others q here
      obtain ⟨k, d, lives⟩ := sound.lives q (same.state ▸ used)
      exact ⟨k, d, lives.agrees same⟩
  pids := sound.pids.trans_le h.pids

/-- The other address spaces stay full. -/
theorem Next.full (h : s.Next p t) (full : s.Full)
    (entry : ∀ k d, (t.ptable p).Lives s.mem.image k d → d.Covers (t.ptable p).sz) : t.Full := by
  intro q k d lives
  rw [h.pays.image] at lives
  by_cases here : q = p
  · subst here
    exact entry k d lives
  · have same := h.others q here
    have before := lives.agrees same.symm
    rw [(same.memory before.used).2.2]
    exact full q k d before

end Machine

/-! ## Code of `proc.c` -/

section

variable {α β : Type} {E : VmHalt → Prop} {s : Machine} {p : ProcPtr} {R : β → Machine → Prop}

variable {t : Machine}

theorem onMem_ok {x : VmM α} {a : α} (run : (onMem x).run s = .ok (a, t)) :
    ∃ m, x.run s.mem = .ok (a, m) ∧ t = { s with mem := m } := by
  have run : (x.run s.mem).map (fun r => (r.1, { s with mem := r.2 })) = .ok (a, t) := run
  cases h : x.run s.mem with
  | error e =>
    rw [h] at run
    cases run
  | ok r =>
    rw [h] at run
    cases run
    exact ⟨r.2, rfl, rfl⟩

theorem onMem_error {x : VmM α} {e : VmHalt} (run : (onMem x).run s = .error e) :
    x.run s.mem = .error e := by
  have run : (x.run s.mem).map (fun r => (r.1, { s with mem := r.2 })) = .error e := run
  cases h : x.run s.mem with
  | error e =>
    rw [h] at run
    cases run
    rfl
  | ok r =>
    rw [h] at run
    cases run

theorem onMem_bind {x : VmM α} {g : α → MachineM β} {P : Mem → Prop} {Q : α → Mem → Prop}
    (h : Triple P x Q E) (hs : P s.mem)
    (rest : ∀ a m, Q a m → Triple (· = { s with mem := m }) (g a) R E) :
    Triple (· = s) (onMem x >>= g) R E := by
  refine .bind (Q := fun a t => ∃ m, t = { s with mem := m } ∧ Q a m) (.of_run ?_ ?_) fun a =>
    .at_state ?_
  · intro s' a t e run
    subst e
    obtain ⟨m, ran, rfl⟩ := onMem_ok run
    exact ⟨m, rfl, h.ok hs ran⟩
  · intro s' e here run
    subst here
    exact h.error hs (onMem_error run)
  · rintro t ⟨m, rfl, post⟩
    exact rest a m post

theorem modify_bind {f : Machine → Machine} {g : Unit → MachineM β}
    (rest : Triple (· = f s) (g ()) R E) : Triple (· = s) (modify f >>= g) R E := by
  refine .bind (.modify fun t e => ?_) fun _ => rest
  rw [e]

theorem setProc_bind {f : VmProc → VmProc} {g : Unit → MachineM β}
    (rest : Triple (· = { s with ptable := Function.update s.ptable p (f (s.ptable p)) }) (g ()) R E) :
    Triple (· = s) (setProc p f >>= g) R E :=
  modify_bind rest

/-- The processes stay as they are, up to entries that are not used. -/
def Machine.Keeps (s t : Machine) : Prop :=
  ∀ q, (t.ptable q).state = (s.ptable q).state ∧
    ((s.ptable q).state ≠ .unused → t.ptable q = s.ptable q)

/-- One entry that is not used changes. -/
theorem Machine.Keeps.of_unused {np : ProcPtr} (before : (s.ptable np).state = .unused)
    (after : (t.ptable np).state = .unused) (others : ∀ q ≠ np, t.ptable q = s.ptable q) :
    s.Keeps t := by
  intro q
  by_cases here : q = np
  · subst here
    exact ⟨after.trans before.symm, fun used => absurd before used⟩
  · exact ⟨by rw [others q here], fun _ => others q here⟩

variable {A X : Multiset Nat}

/-- `allocproc` takes an entry and a stack, or leaves the table alone. -/
theorem allocprocCall_pays :
    Triple (· = s) allocprocCall (fun r t => s.nextpid ≤ t.nextpid ∧
      match r with
      | none => s.Keeps t ∧ s.mem.Pays A t.mem A
      | some np => (s.ptable np).state = .unused ∧ (∀ q ≠ np, t.ptable q = s.ptable q) ∧
          ∃ k, (t.ptable np).pid = s.nextpid ∧ (t.ptable np).kstack = some k ∧
            s.mem.Pays A t.mem ({k} + A)) E := by
  refine .get_bind fun s' e => ?_
  subst e
  cases found : Kernel.entries.find? fun q => (s'.ptable q).state = .unused with
  | none =>
    refine .pure fun t e => ?_
    subst e
    exact ⟨le_rfl, fun q => ⟨rfl, fun _ => rfl⟩, .refl ..⟩
  | some np =>
    have unused : (s'.ptable np).state = .unused := by simpa using List.find?_some found
    refine setProc_bind (modify_bind (onMem_bind (kalloc_pays (X := A)) (.refl ..) fun r m pays =>
      setProc_bind ?_))
    cases r with
    | none =>
      refine setProc_bind (.pure fun t e => ?_)
      subst e
      refine ⟨Int.le_add_one le_rfl, .of_unused unused ?_ fun q hq => ?_, pays⟩
      · simp
      · simp [hq]
    | some k =>
      refine .pure fun t e => ?_
      subst e
      refine ⟨Int.le_add_one le_rfl, unused, fun q hq => ?_, k, ?_, ?_, pays⟩
      · simp [hq]
      · simp
      · simp

/-- `fork` makes a process with a full address space, or leaves the table alone. -/
theorem forkCall_pays (valid : s.mem.AllFree A) (used : (s.ptable p).state ≠ .unused)
    (small : (s.ptable p).sz ≤ kernbase) :
    Triple (· = s) (forkCall p) (fun r t => s.nextpid ≤ t.nextpid ∧
      (r = -1 ∧ s.Keeps t ∧ s.mem.Pays A t.mem A ∨
        r = s.nextpid ∧ ∃ np k d, (s.ptable np).state = .unused ∧
          (∀ q ≠ np, t.ptable q = s.ptable q) ∧ (t.ptable np).Lives s.mem.image k d ∧
          d.Covers (t.ptable np).sz ∧ s.mem.Pays A t.mem ({k} + d.frames + A)))
      fun _ => ∀ d, (s.ptable p).pgdir = some d → ¬ d.Covers (s.ptable p).sz := by
  refine .bind (allocprocCall_pays (A := A)) fun r => .at_state fun t post => ?_
  obtain ⟨later, post⟩ := post
  cases r with
  | none =>
    refine .pure fun t' e => ?_
    subst e
    exact ⟨later, .inl ⟨rfl, post⟩⟩
  | some np =>
    obtain ⟨unused, others, k, pid, kstack, pays⟩ := post
    have ne : p ≠ np := fun same => used (same ▸ unused)
    refine .get_bind fun t' e => ?_
    subst e
    simp only [others p ne]
    cases pgdir : (s.ptable p).pgdir with
    | none =>
      exact onMem_bind (P := fun _ => True) (Q := fun _ _ => False)
        (vmHalt_stops fun _ _ d e => nomatch e) trivial fun _ _ post => post.elim
    | some d =>
      simp only [needPgdir, pure_bind]
      refine onMem_bind ((copyuvm_pays valid small).weaken fun e gap d' e => ?_) pays
        fun r m post => setProc_bind (.get_bind fun t e => ?_)
      · cases e
        exact gap
      subst e
      simp only [Function.update_self, kstack]
      cases r with
      | none =>
        refine onMem_bind (kfree_pays valid k) post fun _ m pays => setProc_bind (.pure fun t e => ?_)
        subst e
        refine ⟨later, .inl ⟨rfl, .of_unused unused ?_ fun q hq => ?_, pays⟩⟩
        · simp
        · simp [hq, others q hq]
      | some d' =>
        obtain ⟨spans, covers, pays⟩ := post
        refine setProc_bind (.pure fun t e => ?_)
        subst e
        refine ⟨later, .inr ⟨pid, np, k, d', unused, fun q hq => ?_, ⟨?_, ?_, ?_, ?_⟩, ?_, ?_⟩⟩
        · simp [hq, others q hq]
        · simp
        · simp
        · simp
        · simpa using spans
        · simpa using covers
        · exact pays.congr (by abel)

/-! ## What each call leaves -/

theorem Machine.Keeps.agrees (h : s.Keeps t) (q : ProcPtr) :
    (s.ptable q).Agrees (t.ptable q) :=
  ⟨(h q).1, fun used => by rw [(h q).2 used]; exact ⟨rfl, rfl, rfl⟩⟩

/-- No entry changes. -/
theorem Machine.Next.of_agrees (sound : s.Sound)
    (h : ∀ q, (s.ptable q).Agrees (t.ptable q)) (pays : s.mem.Pays s.owned t.mem s.owned)
    (pids : s.nextpid ≤ t.nextpid) : s.Next p t where
  others q _ := h q
  pays := pays.congr (by rw [Machine.owned_eq s p, (h p).pages])
  lives used := by
    obtain ⟨k, d, lives⟩ := sound.lives p ((h p).state ▸ used)
    exact ⟨k, d, lives.agrees (h p)⟩
  pids := pids

/-- After `of_agrees`. -/
theorem Machine.Next.full_of_agrees (next : s.Next p t)
    (h : (s.ptable p).Agrees (t.ptable p)) (full : s.Full) : t.Full := by
  refine next.full full fun k d lives => ?_
  have before := lives.agrees h.symm
  rw [(h.memory before.used).2.2]
  exact full p k d before

/-- One process gets new memory. -/
theorem Machine.Next.entry {k : Nat} {d : PageDir}
    (others : ∀ q ≠ p, (s.ptable q).Agrees (t.ptable q))
    (lives : (t.ptable p).Lives s.mem.image k d)
    (pays : s.mem.Pays s.owned t.mem ({k} + d.frames + s.others p)) (pids : s.nextpid ≤ t.nextpid) :
    s.Next p t ∧ (s.Full → d.Covers (t.ptable p).sz → t.Full) := by
  have next : s.Next p t := ⟨others, pays.congr (by rw [lives.pages]), fun _ => ⟨k, d, lives⟩, pids⟩
  refine ⟨next, fun full covers => next.full full fun k' d' lives' => ?_⟩
  cases lives'.pgdir.symm.trans lives.pgdir
  exact covers

theorem forkCall_next (sound : s.Sound) (used : (s.ptable p).state ≠ .unused) :
    Triple (· = s) (forkCall p) (fun _ t => ∃ np, s.Next np t ∧ (s.Full → t.Full))
      fun _ => ¬ s.Full := by
  obtain ⟨k, d, lives⟩ := sound.lives p used
  refine ((forkCall_pays sound.frees used lives.spans.small).post fun r t post => ?_).weaken
    fun e gap full => gap d lives.pgdir (full p k d lives)
  obtain ⟨later, ⟨-, keeps, pays⟩ | ⟨-, np, k', d', unused, others, lives', covers, pays⟩⟩ := post
  · have next : s.Next p t := .of_agrees sound keeps.agrees pays later
    exact ⟨p, next, next.full_of_agrees (keeps.agrees p)⟩
  · have free : s.owned = s.others np := by
      rw [Machine.owned_eq s np, VmProc.pages_unused unused, zero_add]
    obtain ⟨next, full'⟩ := Machine.Next.entry (fun q hq => others q hq ▸ .refl _) lives'
      (pays.congr (by rw [free])) later
    exact ⟨np, next, fun full => full' full covers⟩

/-- The process with its new image. -/
def VmProc.install (e : VmProc) (path : List UInt8) (im : Image) : VmProc :=
  { e with
    name := (lastSegment path).take 15
    pgdir := some im.pgdir
    sz := im.sz
    eip := im.entry
    esp := im.sp }

theorem execCall_next {path : List UInt8} {file : Option (List UInt8)} {argv : List (List UInt8)}
    (sound : s.Sound) (used : (s.ptable p).state ≠ .unused) :
    Triple (· = s) (execCall p path file argv) (fun r t =>
      s.Next p t ∧ (t.mem.missed = s.mem.missed → s.Full → t.Full) ∧
        (r = -1 ∧ t.ptable = s.ptable ∨
          r = 0 ∧ ∃ im, t.ptable = Function.update s.ptable p ((s.ptable p).install path im)))
      fun e => (∀ f, file = some f → ∀ ph ∈ programHeaders f, ph.Loadable) →
        (∀ s ∈ argv, Pushable s) → s.mem.missed < e.missed := by
  obtain ⟨k, d, lives⟩ := sound.lives p used
  have same (m : Mem) (pays : s.mem.Pays s.owned m s.owned) :
      s.Next p { s with mem := m } ∧ (s.Full → Machine.Full { s with mem := m }) := by
    have next : s.Next p { s with mem := m } := .of_agrees sound (fun q => .refl _) pays le_rfl
    exact ⟨next, next.full_of_agrees (.refl _)⟩
  cases file with
  | none =>
    refine .pure fun t e => ?_
    subst e
    obtain ⟨next, full⟩ := same t.mem (.refl ..)
    exact ⟨next, fun _ => full, .inl ⟨rfl, rfl⟩⟩
  | some file =>
    refine onMem_bind ((execImage_pays (X := s.owned) sound.frees).weaken fun e stopped loadable =>
      stopped (loadable file rfl)) (.refl ..) fun r m post => ?_
    cases r with
    | none =>
      refine .pure fun t e => ?_
      subst e
      obtain ⟨next, full⟩ := same m post
      exact ⟨next, fun _ => full, .inl ⟨rfl, rfl⟩⟩
    | some im =>
      have hand : im.pgdir.frames + s.owned =
          d.frames + (({k} + im.pgdir.frames) + s.others p) := by
        rw [Machine.owned_lives lives]
        abel
      refine .get_bind fun t e => setProc_bind ?_
      subst e
      simp only [lives.pgdir, needPgdir, pure_bind]
      refine onMem_bind (freevm_pays (post.pays.allFree sound.frees)) ((Mem.Pays.refl m _).congr hand)
        fun _ m' pays => .pure fun t e => ?_
      have mem : t.mem = m' := by rw [e]
      have size : (t.ptable p).sz = im.sz := by simp [e]
      have lives' : (t.ptable p).Lives s.mem.image k im.pgdir := by
        refine ⟨?_, ?_, ?_, size ▸ post.spans⟩
        · simpa [e] using used
        · simpa [e] using lives.kstack
        · simp [e]
      have others : ∀ q ≠ p, (s.ptable q).Agrees (t.ptable q) := by
        intro q hq
        rw [e]
        simp [hq, VmProc.Agrees.refl]
      obtain ⟨next, full'⟩ := Machine.Next.entry others lives' (mem ▸ post.pays.trans pays)
        (by rw [e])
      refine ⟨next, fun none full => full' full ?_, .inr ⟨rfl, im, by rw [e]; rfl⟩⟩
      rw [size]
      refine post.covers ?_
      rw [mem] at none
      have first := post.pays.kept.later
      have second := pays.kept.later
      simp only [Mem.account] at first second
      omega

/-- The size `growproc` stores, or keeps, is the size of the address space it leaves. -/
theorem growuvm_spans {m : Mem} {image : KernelImage} {d : PageDir} {sz : Nat} {n : Int}
    (valid : m.AllFree A) (spans : d.Spans image sz) (covers : d.Covers sz)
    (rest : n < 0 → (sz + n) % 2 ^ 32 ≠ 0) :
    Triple (m.Pays A · (d.frames + X)) (growuvm d sz n) (fun r t =>
      m.Pays A t (r.1.frames + X) ∧ r.1.Spans image (if n ≠ 0 ∧ r.2 = 0 then sz else r.2) ∧
        (t.missed = m.missed → r.1.Covers (if n ≠ 0 ∧ r.2 = 0 then sz else r.2))) E := by
  rw [growuvm]
  refine .ite (fun up => ?_) fun _ => .ite (fun down => ?_) fun none => ?_
  · refine (allocuvm_pays valid spans).post fun r t post => ⟨post.1, ?_⟩
    rcases post.2 with ⟨size, spans', full⟩ | ⟨zero, rest⟩
    · have same : (if n ≠ 0 ∧ r.2 = 0 then sz else r.2) = r.2 := by
        split
        · omega
        · rfl
      rw [same]
      exact ⟨spans', fun none => (full none).2 covers⟩
    · rw [if_pos ⟨by omega, zero⟩]
      exact ⟨(rest covers).1, fun _ => (rest covers).2⟩
  · refine (deallocuvm_spans valid spans covers).post fun r t post => ⟨post.2, ?_⟩
    obtain ⟨⟨size, spans', covers'⟩, -⟩ := post
    have same : (if n ≠ 0 ∧ r.2 = 0 then sz else r.2) = r.2 := by
      have rest := rest down
      split
      · omega
      · rfl
    rw [same]
    exact ⟨spans', fun _ => covers'⟩
  · refine .pure fun t pays => ⟨pays, ?_⟩
    rw [if_neg (by omega)]
    exact ⟨spans, fun _ => covers⟩

/-- `growproc` leaves an address space of the size it stores, unless it shrinks to nothing. -/
theorem growprocCall_next {n : Int} (sound : s.Sound) (used : (s.ptable p).state ≠ .unused)
    (full : s.Full) (rest : n < 0 → ((s.ptable p).sz + n) % 2 ^ 32 ≠ 0) :
    Triple (· = s) (growprocCall p n) (fun _ t =>
      s.Next p t ∧ (t.mem.missed = s.mem.missed → t.Full)) E := by
  obtain ⟨k, d, lives⟩ := sound.lives p used
  refine .get_bind fun s' e => ?_
  subst e
  simp only [lives.pgdir, needPgdir, pure_bind]
  refine onMem_bind (growuvm_spans sound.frees lives.spans (full p k d lives) rest)
    ((Mem.Pays.refl ..).congr (Machine.owned_lives lives)) fun r m post => setProc_bind ?_
  obtain ⟨pays, spans, covers⟩ := post
  -- Both ends leave the directory and a size that fits to it.
  have done (t : Machine) (mem : t.mem = m) (pids : s'.nextpid = t.nextpid)
      (others : ∀ q ≠ p, t.ptable q = s'.ptable q)
      (here : t.ptable p = { s'.ptable p with
        pgdir := some r.1, sz := if n ≠ 0 ∧ r.2 = 0 then (s'.ptable p).sz else r.2 }) :
      s'.Next p t ∧ (t.mem.missed = s'.mem.missed → t.Full) := by
    obtain ⟨next, full'⟩ := Machine.Next.entry (k := k) (d := r.1)
      (fun q hq => others q hq ▸ .refl _) (by rw [here]; exact ⟨used, lives.kstack, rfl, spans⟩)
      (mem ▸ pays.congr (by abel)) pids.le
    refine ⟨next, fun none => full' full ?_⟩
    rw [here]
    exact covers (mem ▸ none)
  refine .ite (fun failed => .pure fun t e => ?_) fun ok => setProc_bind (.pure fun t e => ?_)
  · refine done t (by rw [e]) (by rw [e]) (fun q hq => by simp [e, hq]) ?_
    rw [e, if_pos failed]
    simp
  · refine done t (by rw [e]) (by rw [e]) (fun q hq => by simp [e, hq]) ?_
    rw [e, if_neg ok]
    simp

/-- `exit` keeps the memory for `wait`. -/
theorem exitCall_next (sound : s.Sound) (used : (s.ptable p).state ≠ .unused) :
    Triple (· = s) (exitCall p) (fun _ t => s.Next p t ∧ (s.Full → t.Full)) fun _ => True := by
  obtain ⟨k, d, lives⟩ := sound.lives p used
  refine .get_bind fun s' e => ?_
  subst e
  rw [← bind_pure (setProc p _)]
  refine .ite (fun _ => .of_run (fun _ _ _ _ run => ?_) fun _ _ _ _ => trivial) fun _ =>
    modify_bind (setProc_bind (.pure fun t e => ?_))
  · obtain ⟨m, run, -⟩ := onMem_ok run
    cases run
  · have same q : (s'.ptable q).Agrees ((s'.reparent p).ptable q) := by
      rw [Machine.reparent]
      dsimp only
      split
      · exact ⟨rfl, fun _ => ⟨rfl, rfl, rfl⟩⟩
      · exact .refl _
    obtain ⟨-, kstack, pgdir, spans⟩ := lives.agrees (same p)
    have size : (t.ptable p).sz = (s'.ptable p).sz := by simpa [e] using ((same p).memory used).2.2
    obtain ⟨next, full'⟩ : s'.Next p t ∧ (s'.Full → d.Covers (t.ptable p).sz → t.Full) := by
      refine Machine.Next.entry (k := k) (fun q hq => ?_) ⟨?_, ?_, ?_, ?_⟩ ?_ ?_
      · simpa [e, hq] using same q
      · simp [e]
      · simpa [e] using kstack
      · simpa [e] using pgdir
      · simpa [e] using spans
      · rw [e, ← lives.pages, ← Machine.owned_eq]
        exact .refl ..
      · rw [e]
        exact le_rfl
    exact ⟨next, fun full => full' full (size ▸ full p k d lives)⟩

/-- `wait` gives the memory of a child back. -/
theorem waitCall_next (sound : s.Sound) :
    Triple (· = s) (waitCall p) (fun _ t => ∃ c, s.Next c t ∧ (s.Full → t.Full)) E := by
  refine .get_bind fun s' e => ?_
  subst e
  cases found : Kernel.entries.find? fun c =>
    (s'.ptable c).parent = some p ∧ (s'.ptable c).state = .zombie with
  | none =>
    refine .pure fun t e => ?_
    subst e
    have next : t.Next p t := .of_agrees sound (fun q => .refl _) (.refl ..) le_rfl
    exact ⟨p, next, id⟩
  | some c =>
    have zombie : (s'.ptable c).state = .zombie := by
      have both := List.find?_some found
      simp only [decide_eq_true_eq] at both
      exact both.2
    obtain ⟨k, d, lives⟩ := sound.lives c (by rw [zombie]; decide)
    have hand : s'.owned = {k} + (d.frames + s'.others c) := by
      rw [Machine.owned_eq s' c, lives.pages, add_assoc]
    simp only [lives.kstack, lives.pgdir, needPgdir, pure_bind]
    refine onMem_bind (kfree_pays sound.frees k) ((Mem.Pays.refl ..).congr hand) fun _ m pays =>
      onMem_bind (freevm_pays sound.frees) pays fun _ m' pays' => setProc_bind (.pure fun t e => ?_)
    have gone : (t.ptable c).state = .unused := by simp [e]
    have next : s'.Next c t := by
      refine ⟨fun q hq => ?_, ?_, fun used => absurd gone used, by rw [e]⟩
      · simp [e, hq, VmProc.Agrees.refl]
      · rw [VmProc.pages_unused gone, zero_add, e]
        exact pays'
    exact ⟨c, next, fun full => next.full full fun _ _ lives => absurd gone lives.used⟩

end

end Xv6Gui
