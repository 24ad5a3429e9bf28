import Xv6Gui.Proc.Reaping

/-!
# The slots the desktop uses up

`init` starts the desktop and waits for its own children.  The desktop forks a
program for every double click on an icon (`iconOnLeftDoubleClick`), and its
main loop only handles events: it never calls `wait`.  A program that is closed
is a `ZOMBIE` whose parent is the desktop, and while the desktop runs nobody
collects it.

So the slots in use are those of `init`, of the desktop and one for each launch,
whether the program still runs or not.
-/

namespace Xv6Gui

/-! ## Slots in use -/

/-- A slot counts unless it is free. -/
def Life.weight (l : Life) : Nat := if l.kind = .free then 0 else 1

/-- The weight of all slots. -/
def occupied (f : ProcPtr → Life) : Nat := ∑ c, (f c).weight

variable {init d : ProcPtr} {f g : ProcPtr → Life}

theorem occupied_update (f : ProcPtr → Life) (c : ProcPtr) (l : Life) :
    occupied (Function.update f c l) + (f c).weight = occupied f + l.weight := by
  have weights : (fun q => (Function.update f c l q).weight) =
      Function.update (fun q => (f q).weight) c l.weight :=
    Function.comp_update Life.weight f c l
  have whole := Finset.sum_erase_add Finset.univ (fun q => (f q).weight) (Finset.mem_univ c)
  rw [occupied, weights, Finset.sum_update_of_mem (Finset.mem_univ c),
    Finset.sdiff_singleton_eq_erase, occupied, ← whole]
  omega

theorem occupied_orphan {p : ProcPtr} (alive : (f p).kind = .alive) :
    occupied (orphan init p f) = occupied f := by
  refine Finset.sum_congr rfl ?_
  intro q _
  rw [Life.weight, Life.weight, orphan]
  by_cases e : q = p
  · subst e
    simp [alive]
  · simp [e]

/-! ## The household -/

/-- Whatever came out of `fork` is a child of the desktop `d`, but for `init`
and the desktop. -/
structure Household (init d : ProcPtr) (f : ProcPtr → Life) : Prop where
  ne : d ≠ init
  root : (f init).kind = .alive
  desktop : (f d).kind = .alive
  children : ∀ c, c ≠ init → c ≠ d → (f c).kind = .alive ∨ (f c).kind = .zombie →
    (f c).parent = some d

/-- What happens while the desktop runs: nobody else forks, and only `init`
waits. -/
def Turn.AtDesktop (init d : ProcPtr) : Turn → Prop
  | .born p _ => p = d
  | .exited p _ => p ≠ d
  | .collected p _ _ => p = init
  | _ => True

/-- How many times a `fork` got a slot. -/
def launchesBegun (as : List Turn) : Nat :=
  as.countP fun
    | .taken _ => true
    | _ => false

/-- How many times a `fork` gave its slot back. -/
def launchesFailed (as : List Turn) : Nat :=
  as.countP fun
    | .dropped _ => true
    | _ => false

theorem launchesBegun_append (as bs : List Turn) :
    launchesBegun (as ++ bs) = launchesBegun as + launchesBegun bs :=
  List.countP_append

theorem launchesFailed_append (as bs : List Turn) :
    launchesFailed (as ++ bs) = launchesFailed as + launchesFailed bs :=
  List.countP_append

/-- A slot without a live process changes, to no process or a child of the desktop. -/
theorem Household.update (hf : Household init d f) {c : ProcPtr} {l : Life}
    (dead : (f c).kind ≠ .alive)
    (child : l.kind = .alive ∨ l.kind = .zombie → l.parent = some d) :
    Household init d (Function.update f c l) := by
  have live : ∀ p, (f p).kind = .alive → (Function.update f c l p).kind = .alive := by
    intro p hp
    rw [Function.update_of_ne]
    · exact hp
    · rintro rfl
      exact dead hp
  refine ⟨hf.ne, live init hf.root, live d hf.desktop, ?_⟩
  intro q hi hd hq
  rw [Function.update_apply] at hq ⊢
  split at hq
  · rename_i e
    rw [if_pos e]
    exact child hq
  · rename_i e
    rw [if_neg e]
    exact hf.children q hi hd hq

theorem Household.exited (hf : Household init d f) {p : ProcPtr} (alive : (f p).kind = .alive)
    (root : p ≠ init) (other : p ≠ d) : Household init d (orphan init p f) := by
  have stays : ∀ q, q ≠ p → (orphan init p f q).kind = (f q).kind := fun q hq => if_neg hq
  refine ⟨hf.ne, ?_, ?_, ?_⟩
  · rw [stays init root.symm]
    exact hf.root
  · rw [stays d other.symm]
    exact hf.desktop
  · intro c hi hd hc
    have before : (f c).kind = .alive ∨ (f c).kind = .zombie := by
      by_cases e : c = p
      · exact .inl (e ▸ alive)
      · rwa [stays c e] at hc
    have parent := hf.children c hi hd before
    rw [orphan_other]
    · exact parent
    · rw [parent]
      exact fun h => other (Option.some.inj h).symm

/-- `init` finds nothing to collect. -/
theorem Household.not_collected (hf : Household init d f) {c : ProcPtr}
    (zombie : (f c).kind = .zombie) : (f c).parent ≠ some init := by
  have ne_of_alive : ∀ p, (f p).kind = .alive → c ≠ p := by
    rintro p alive rfl
    rw [zombie] at alive
    cases alive
  rw [hf.children c (ne_of_alive init hf.root) (ne_of_alive d hf.desktop) (.inr zombie)]
  exact fun h => hf.ne (Option.some.inj h)

/-- One turn: the slots in use are those from before and the launches. -/
theorem Household.step {a : Turn} (hf : Household init d f) (h : FamilyStep init f a g)
    (here : a.AtDesktop init d) :
    Household init d g ∧
      occupied g + launchesFailed [a] = occupied f + launchesBegun [a] := by
  cases h with
  | idle => exact ⟨hf, rfl⟩
  | @taken c pid free positive =>
    refine ⟨hf.update (by rw [free]; exact nofun) (by simp), ?_⟩
    have count := occupied_update f c ⟨.embryo, pid, (f c).parent⟩
    simpa [Life.weight, free, launchesFailed, launchesBegun] using count
  | @dropped c embryo =>
    refine ⟨hf.update (by rw [embryo]; exact nofun) (by simp), ?_⟩
    have count := occupied_update f c { f c with kind := .free }
    simpa [Life.weight, embryo, launchesFailed, launchesBegun] using count
  | @born p c alive embryo =>
    refine ⟨hf.update (by rw [embryo]; exact nofun) fun _ => congrArg some here, ?_⟩
    have count := occupied_update f c ⟨.alive, (f c).pid, some p⟩
    simpa [Life.weight, embryo, launchesFailed, launchesBegun] using count
  | @exited p alive ne =>
    refine ⟨hf.exited alive ne here, ?_⟩
    rw [occupied_orphan alive]
    rfl
  | @collected p c alive zombie child =>
    cases here
    exact absurd child (hf.not_collected zombie)

namespace Kernel

variable {k t : Kernel} {K : Nat}

/-- The slots in use. -/
def used (k : Kernel) : Nat :=
  (Finset.univ.filter fun c => (k.ptable c).state ≠ .unused).card

/-- The programs that run next to `init` and the desktop, with the one a launch
is about to start. -/
def programs (k : Kernel) (d : ProcPtr) : Nat :=
  (Finset.univ.filter fun c => c ≠ k.initproc ∧ c ≠ d ∧ (k.ptable c).state ≠ .unused ∧
    (k.ptable c).state ≠ .zombie).card

/-- `init` has started the desktop, and nothing else runs. -/
structure Started (k : Kernel) (d : ProcPtr) : Prop where
  ne : d ≠ k.initproc
  root : (k.ptable k.initproc).Alive
  desktop : (k.ptable d).Alive
  others : ∀ c, c ≠ k.initproc → c ≠ d → (k.ptable c).state = .unused
  forking : ∀ p, k.forking p = none
  positive : 0 < k.nextpid

/-- What the programs do while the desktop `d` runs: the desktop forks, by
`iconOnLeftDoubleClick`, and never waits; `init` waits; the programs it launches
end. -/
def AtDesktop (d : ProcPtr) (k : Kernel) : ProcEvent → Prop
  | .allocproc p | .forkFail p _ | .forkDone p _ => p = d
  | .exit p => p ≠ d
  | .wait p => p = k.initproc
  | _ => True

instance (d : ProcPtr) (k : Kernel) : ∀ e, Decidable (AtDesktop d k e)
  | .allocproc _ | .forkFail _ _ | .forkDone _ _ => inferInstanceAs (Decidable (_ = _))
  | .exit _ => inferInstanceAs (Decidable (_ ≠ _))
  | .wait _ => inferInstanceAs (Decidable (_ = _))
  | .schedule _ | .yield _ | .sleep _ _ | .wakeup _ | .kill _ _ | .createWindow _ _
  | .deleteWindow _ _ | .reorderQueue _ => inferInstanceAs (Decidable True)

/-- A step at the desktop with at most `K` programs running after it. -/
def DesktopStep (d : ProcPtr) (K : Nat) (k : Kernel) (l : ProcEvent × Turn) (t : Kernel) : Prop :=
  k.call l.1 = some (t, l.2) ∧ AtDesktop d k l.1 ∧ t.programs d ≤ K

/-- The launches so far: the forks of the desktop that got a slot, without those
that gave it back for want of memory. -/
def launches (ls : List (ProcEvent × Turn)) : Nat :=
  launchesBegun (ls.map Prod.snd) - launchesFailed (ls.map Prod.snd)

theorem used_eq (k : Kernel) : k.used = occupied k.family := by
  rw [used, occupied, Finset.card_filter]
  refine Finset.sum_congr rfl ?_
  intro c _
  rw [Life.weight, family, Proc.life]
  simp only [ProcState.kind_eq_free, ite_not]

theorem Started.household {d : ProcPtr} (h : k.Started d) : Household k.initproc d k.family where
  ne := h.ne
  root := h.root
  desktop := h.desktop
  children c hi hd hc := by
    have free : (k.family c).kind = .free := ProcState.kind_eq_free.mpr (h.others c hi hd)
    rw [free] at hc
    rcases hc with hc | hc <;> cases hc

theorem Started.used {d : ProcPtr} (h : k.Started d) : k.used = 2 := by
  have pair : (Finset.univ.filter fun c => (k.ptable c).state ≠ .unused) = {k.initproc, d} := by
    ext c
    simp only [Finset.mem_filter, Finset.mem_univ, true_and, Finset.mem_insert,
      Finset.mem_singleton]
    constructor
    · intro hc
      by_contra not
      exact hc (h.others c (fun e => not (.inl e)) fun e => not (.inr e))
    · intro hc e
      have alive : (k.ptable c).Alive := by
        rcases hc with rfl | rfl
        · exact h.root
        · exact h.desktop
      rw [Proc.Alive, e] at alive
      cases alive
  rw [Kernel.used, pair, Finset.card_pair h.ne.symm]

theorem atDesktop_turn {d : ProcPtr} {e : ProcEvent} (h : AtDesktop d k e) :
    (k.turn e).AtDesktop k.initproc d := by
  cases e with
  | allocproc p =>
    rw [turn]
    split <;> trivial
  | forkFail p kstack =>
    rw [turn]
    cases k.forking p <;> trivial
  | forkDone p pgdir =>
    rw [turn]
    cases k.forking p with
    | none => trivial
    | some c => exact h
  | exit p => exact h
  | wait p =>
    rw [turn]
    split
    · exact h
    · trivial
  | schedule p | yield p | sleep p n | wakeup n | kill p pid | createWindow p arg
  | deleteWindow p arg | reorderQueue i => trivial

/-- Every launch has its slot still, after any session at the desktop. -/
theorem desktop_run {k₀ : Kernel} {d : ProcPtr} {ls : List (ProcEvent × Turn)}
    (started : k₀.Started d) (run : Runs.Steps (DesktopStep d K) k₀ ls k) :
    k.Forks ∧ Household k.initproc d k.family ∧
      k.used + launchesFailed (ls.map Prod.snd) = 2 + launchesBegun (ls.map Prod.snd) := by
  induction run with
  | nil =>
    refine ⟨⟨?_, ?_, started.positive⟩, started.household, ?_⟩
    · intro p c h
      rw [started.forking] at h
      cases h
    · intro p q c h
      rw [started.forking] at h
      cases h
    · rw [started.used]
      rfl
  | @snoc as k t a _ h ih =>
    obtain ⟨forks, household, count⟩ := ih
    obtain ⟨called, here, _⟩ := h
    obtain ⟨h, e⟩ := call_eq_some.mp called
    have refines := step_family forks h
    obtain ⟨household, more⟩ := household.step refines.family (atDesktop_turn here)
    rw [← e, ← used_eq, ← used_eq] at more
    refine ⟨refines.forks, refines.init ▸ household, ?_⟩
    rw [List.map_append, launchesFailed_append, launchesBegun_append]
    change t.used + (launchesFailed (as.map Prod.snd) + launchesFailed [a.2]) =
      2 + (launchesBegun (as.map Prod.snd) + launchesBegun [a.2])
    omega

/-- `init` and the desktop have their slots. -/
theorem two_le_used {d : ProcPtr} (h : Household k.initproc d k.family) : 2 ≤ k.used := by
  have in_use : ∀ p, (k.family p).kind = .alive → (k.ptable p).state ≠ .unused := by
    intro p alive e
    rw [family, Proc.life, e] at alive
    cases alive
  rw [← Finset.card_pair h.ne]
  refine Finset.card_le_card ?_
  intro c hc
  rw [Finset.mem_insert, Finset.mem_singleton] at hc
  rw [Finset.mem_filter]
  rcases hc with rfl | rfl
  · exact ⟨Finset.mem_univ _, in_use _ h.desktop⟩
  · exact ⟨Finset.mem_univ _, in_use _ h.root⟩

theorem exists_unused_iff (k : Kernel) : (∃ c, (k.ptable c).state = .unused) ↔ k.used < nproc := by
  have size : (Finset.univ : Finset ProcPtr).card = nproc := Finset.card_fin nproc
  constructor
  · rintro ⟨c, hc⟩
    have fewer : k.used < (Finset.univ : Finset ProcPtr).card :=
      Finset.card_lt_card (Finset.filter_ssubset.mpr ⟨c, Finset.mem_univ c, fun h => h hc⟩)
    exact size ▸ fewer
  · intro few
    by_contra none
    have all : (Finset.univ.filter fun c => (k.ptable c).state ≠ .unused) = Finset.univ := by
      simp only [Finset.filter_eq_self, Finset.mem_univ, true_imp_iff]
      intro c hc
      exact none ⟨c, hc⟩
    rw [used, all, size] at few
    exact lt_irrefl _ few

/-- At the desktop, with at most `K` programs running at any one time: `K + 2`
slots are enough exactly if there were no more than `K` launches in all, and a
further launch finds a slot exactly if the launches so far left one. -/
theorem desktop_slots_iff {k₀ : Kernel} {d : ProcPtr} {ls : List (ProcEvent × Turn)}
    (started : k₀.Started d) (run : Runs.Steps (DesktopStep d K) k₀ ls k) :
    (k.used ≤ K + 2 ↔ launches ls ≤ K) ∧
      ((∃ c, (k.ptable c).state = .unused) ↔ launches ls + 2 < nproc) := by
  obtain ⟨_, household, count⟩ := desktop_run started run
  have used : k.used = launches ls + 2 := by
    have two := two_le_used household
    rw [launches]
    omega
  rw [exists_unused_iff, used]
  exact ⟨Nat.add_le_add_iff_right, Iff.rfl⟩

/-- The step as a function, to evaluate sessions. -/
def desktopCall (d : ProcPtr) (K : Nat) (k : Kernel) (e : ProcEvent) : Option (Kernel × Turn) :=
  (k.call e).filter fun r => AtDesktop d k e ∧ r.1.programs d ≤ K

theorem desktop_steps {k₀ : Kernel} {d : ProcPtr} {es : List ProcEvent}
    {ls : List (ProcEvent × Turn)} (h : Runs.execOut (desktopCall d K) k₀ es = some (k, ls)) :
    Runs.Steps (DesktopStep d K) k₀ ls k := by
  refine Runs.Steps.mono ?_ (Runs.Steps.of_execOut h)
  intro k l t hl
  obtain ⟨called, here⟩ := Option.filter_eq_some_iff.mp hl
  exact ⟨called, of_decide_eq_true here⟩

instance (e : Proc) : Decidable e.Alive := inferInstanceAs (Decidable (_ = _))

/-- The desktop, started by `init`. -/
def desktopStarted : Kernel :=
  (Runs.exec step userinit [.schedule 0, .allocproc 0, .forkDone 0 1, .wait 0, .schedule 1]).getD
    userinit

theorem desktopStarted_started : desktopStarted.Started 1 where
  ne := by decide
  root := by decide +kernel
  desktop := by decide +kernel
  others := by decide +kernel
  forking := by decide +kernel
  positive := by decide +kernel

/-- A program is launched into the slot `c`, and closed. -/
def launchAndClose (c : ProcPtr) (pgdir : Nat) : List ProcEvent :=
  [.allocproc 1, .forkDone 1 pgdir, .schedule c, .exit c]

theorem desktop_slots_iff_once :
    ∃ ls k, Runs.Steps (DesktopStep 1 1) desktopStarted ls k ∧ launches ls = 1 ∧
      (k.used ≤ 1 + 2 ↔ launches ls ≤ 1) ∧
        ((∃ c, (k.ptable c).state = .unused) ↔ launches ls + 2 < nproc) := by
  have found : (Runs.execOut (desktopCall 1 1) desktopStarted (launchAndClose 2 2)).any
      (fun r => launches r.2 = 1) = true := by
    decide +kernel
  obtain ⟨⟨k, ls⟩, hr, one⟩ := (Option.any_eq_true _ _).mp found
  have run := desktop_steps hr
  exact ⟨ls, k, run, of_decide_eq_true one, desktop_slots_iff desktopStarted_started run⟩

/-- Two programs one after the other, both closed: four slots are in use. -/
theorem desktop_slots_leak :
    ∃ ls k, Runs.Steps (DesktopStep 1 1) desktopStarted ls k ∧ k.programs 1 = 0 ∧ k.used = 4 := by
  have found : (Runs.execOut (desktopCall 1 1) desktopStarted
      (launchAndClose 2 2 ++ launchAndClose 3 3)).any
      (fun r => r.1.programs 1 = 0 ∧ r.1.used = 4) = true := by
    decide +kernel
  obtain ⟨⟨k, ls⟩, hr, used⟩ := (Option.any_eq_true _ _).mp found
  exact ⟨ls, k, desktop_steps hr, of_decide_eq_true used⟩

end Kernel

end Xv6Gui
