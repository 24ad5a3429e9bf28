import Xv6Gui.Proc.Reaping

/-!
# Whom `kill` hits

`kill` takes the first slot that holds the pid, whatever its state.  A slot that `wait` gave back
holds the pid 0 and no mark, but one that a failed `fork` gave back keeps its pid and mark, and
`allocproc` takes a slot without clearing either.

No pid but 0 is in two slots (`Numbered`), so `kill` hits the process it names exactly if no free
slot holds the pid.  While it is only called so, and no `fork` of a marked child fails, free slots
have no mark (`Unmarked`).
-/

namespace Xv6Gui

open Function (update update_apply update_of_ne update_self)

/-- What an entry has in common with the one it replaces. -/
theorem update_same {β γ : Type} {f : ProcPtr → β} {v : β → γ} {c : ProcPtr} {l : β}
    (same : v l = v (f c)) (q : ProcPtr) : v (update f c l q) = v (f q) := by
  rw [update_apply]
  split
  · rename_i e
    rw [e, same]
  · rfl

/-- The pids so far are below `n`, and no slot shares one. -/
structure Numbered (n : Int) (f : ProcPtr → Life) : Prop where
  below : ∀ q, (f q).pid < n
  apart : ∀ q r, (f q).pid = (f r).pid → (f q).pid ≠ 0 → q = r

variable {n : Int} {f g : ProcPtr → Life}

theorem Numbered.same (h : Numbered n f) (same : ∀ q, (g q).pid = (f q).pid) : Numbered n g where
  below q := same q ▸ h.below q
  apart q r := same q ▸ same r ▸ h.apart q r

/-- A slot gets no pid, or a new one. -/
theorem Numbered.update (h : Numbered n f) {c : ProcPtr} {l : Life} {m : Int} (le : n ≤ m)
    (lt : l.pid < m) (fresh : l.pid = 0 ∨ n ≤ l.pid) : Numbered m (update f c l) where
  below q := by
    rw [update_apply]
    split
    · exact lt
    · have := h.below q
      omega
  apart q r eq ne := by
    have qn := h.below q
    have rn := h.below r
    by_cases hq : q = c
    · by_cases hr : r = c
      · rw [hq, hr]
      · rw [hq, update_self, update_of_ne hr] at eq
        rw [hq, update_self] at ne
        omega
    · rw [update_of_ne hq] at eq ne
      by_cases hr : r = c
      · rw [hr, update_self] at eq
        omega
      · rw [update_of_ne hr] at eq
        exact h.apart q r eq ne

namespace Kernel

variable {k t : Kernel}

/-- What `kill` returns. -/
def killReturn (k : Kernel) (pid : Int) : Int :=
  match entries.find? fun q => (k.ptable q).pid = pid with
  | none => -1
  | some _ => 0

/-- A process with this pid. -/
def Holds (k : Kernel) (q : ProcPtr) (pid : Int) : Prop :=
  (k.ptable q).state ≠ .unused ∧ (k.ptable q).pid = pid
  deriving Decidable

/-- No free slot holds the pid. -/
def Cleared (k : Kernel) (pid : Int) : Prop :=
  ∀ q, (k.ptable q).state = .unused → (k.ptable q).pid ≠ pid

/-- `kill` marks the process with the pid and nothing else, and says whether there is one. -/
def HitsNamed (k : Kernel) (pid : Int) : Prop :=
  (k.killReturn pid = 0 ↔ ∃ q, k.Holds q pid) ∧
    ∀ q, ((k.kill pid).ptable q).killed = true ↔ (k.ptable q).killed = true ∨ k.Holds q pid

/-- No free slot has a mark. -/
def Unmarked (k : Kernel) : Prop :=
  ∀ q, (k.ptable q).state = .unused → (k.ptable q).killed = false

/-- The event marks no free slot, and no `fork` fails that has a marked child. -/
structure Spares (k : Kernel) (e : ProcEvent) : Prop where
  kill : ∀ p pid, e = .kill p pid → k.Cleared pid
  fork : ∀ c, k.turn e = .dropped c → (k.ptable c).killed = false

/-! ## Steps -/

/-- What an event does to the marks and to the next pid. -/
structure Marks (k : Kernel) (e : ProcEvent) (a : Turn) (t : Kernel) : Prop where
  killed : ∀ q, (t.ptable q).killed = true →
    (k.ptable q).killed = true ∧ (∀ p pid, a ≠ .collected p q pid) ∨
      ∃ p, e = .kill p (k.ptable q).pid
  next : (∀ c, a ≠ .taken c) ∧ t.nextpid = k.nextpid ∨
    ∃ c, a = .taken c ∧ (t.family c).pid = k.nextpid ∧ t.nextpid = k.nextpid + 1

/-- The turn takes no slot and collects none. -/
def plain : Turn → Bool
  | .taken _ | .collected _ _ _ => false
  | _ => true

theorem Marks.keep {e : ProcEvent} {a : Turn}
    (killed : ∀ q, (t.ptable q).killed = (k.ptable q).killed) (next : t.nextpid = k.nextpid)
    (turn : plain a) : k.Marks e a t where
  killed q h := .inl ⟨killed q ▸ h, by rintro p pid rfl; cases turn⟩
  next := .inl ⟨(by rintro c rfl; cases turn), next⟩

theorem killed_update {p : ProcPtr} {e : Proc} (table : t.ptable = update k.ptable p e)
    (same : e.killed = (k.ptable p).killed) (q : ProcPtr) :
    (t.ptable q).killed = (k.ptable q).killed := by
  rw [table]
  exact update_same same q

@[simp]
theorem wakeup1_killed (k : Kernel) (chan : Option Chan) (q : ProcPtr) :
    ((k.wakeup1 chan).ptable q).killed = (k.ptable q).killed := by
  simp only [wakeup1]
  split <;> rfl

@[simp]
theorem reparent_killed (k : Kernel) (p q : ProcPtr) :
    ((k.reparent p).ptable q).killed = (k.ptable q).killed := by
  simp only [reparent]
  split <;> rfl

theorem exit_killed (k : Kernel) (p q : ProcPtr) :
    ((k.exit p).ptable q).killed = (k.ptable q).killed := by
  rw [Kernel.exit, modify_ptable]
  split
  · rename_i e
    subst e
    split <;> simp
  · split <;> simp

theorem step_marks {e : ProcEvent} (h : k.step e = some t) : k.Marks e (k.turn e) t := by
  cases e with
  | schedule p | yield p | sleep p n =>
    obtain ⟨_, rfl⟩ := Runs.ite_some.mp h
    exact .keep (killed_update rfl rfl) rfl rfl
  | wakeup n =>
    cases h
    exact .keep (wakeup1_killed k _) rfl rfl
  | allocproc p =>
    obtain ⟨_, rfl⟩ := Runs.ite_some.mp h
    rw [turn, allocproc]
    cases found : entries.find? fun q => (k.ptable q).state = .unused with
    | none => exact .keep (fun _ => rfl) rfl rfl
    | some c =>
      let e := { k.ptable c with state := .embryo, pid := k.nextpid }
      refine ⟨fun q marked => .inl ⟨?_, by rintro _ _ ⟨⟩⟩, .inr ⟨c, rfl, ?_, rfl⟩⟩
      · rwa [killed_update (k := k) (e := e) rfl rfl] at marked
      · exact congrArg Proc.pid (update_self c e k.ptable)
  | forkFail p b | forkDone p b =>
    obtain ⟨_, c, hc, rfl⟩ := Runs.ite_map.mp h
    rw [turn, hc]
    exact .keep (killed_update rfl rfl) rfl rfl
  | exit p =>
    obtain ⟨_, rfl⟩ := Runs.ite_some.mp h
    refine .keep (exit_killed k p) ?_ rfl
    rw [Kernel.exit]
    split <;> rfl
  | wait p =>
    obtain ⟨_, rfl⟩ := Runs.ite_some.mp h
    rw [turn, wait]
    cases found : entries.find? fun c =>
        (k.ptable c).parent = some p ∧ (k.ptable c).state = .zombie with
    | none =>
      dsimp only
      split
      · exact .keep (fun _ => rfl) rfl rfl
      · exact .keep (killed_update rfl rfl) rfl rfl
    | some c =>
      refine ⟨fun q marked => .inl ?_, .inl ⟨by rintro _ ⟨⟩, rfl⟩⟩
      dsimp only at marked
      rw [reap_ptable, update_apply] at marked
      split at marked
      · cases marked
      · rename_i ne
        refine ⟨marked, ?_⟩
        rintro _ _ ⟨⟩
        exact ne rfl
  | kill p pid =>
    obtain ⟨_, rfl⟩ := Runs.ite_some.mp h
    rw [Kernel.kill]
    split
    · exact .keep (fun _ => rfl) rfl rfl
    · rename_i c found
      refine ⟨fun q marked => ?_, .inl ⟨by rintro _ ⟨⟩, rfl⟩⟩
      by_cases e : q = c
      · subst e
        have holds := List.find?_some found
        exact .inr ⟨p, by rw [of_decide_eq_true holds]⟩
      · rw [modify_ptable, if_neg e] at marked
        exact .inl ⟨marked, by rintro _ _ ⟨⟩⟩
  | createWindow p arg | deleteWindow p arg | reorderQueue i =>
    obtain ⟨_, _, _, rfl⟩ := Runs.ite_map.mp h
    exact .keep (fun _ => rfl) rfl rfl

theorem step_numbered {e : ProcEvent} (hk : k.Forks) (hn : Numbered k.nextpid k.family)
    (h : k.step e = some t) : Numbered t.nextpid t.family := by
  have refines := (step_family hk h).family
  rcases (step_marks h).next with ⟨untaken, next⟩ | ⟨c, turn, pid, next⟩
  · rw [next]
    generalize t.family = g, k.turn e = a at refines untaken
    cases refines with
    | idle => exact hn
    | taken free positive => exact absurd rfl (untaken _)
    | dropped embryo => exact hn.same (update_same rfl)
    | born alive embryo => exact hn.same (update_same rfl)
    | exited alive ne => exact hn.same fun _ => rfl
    | collected alive zombie child => exact hn.update le_rfl hk.positive (.inl rfl)
  · rw [turn] at refines
    generalize t.family = g at refines pid
    cases refines with
    | taken free positive =>
      rw [update_self] at pid
      exact hn.update (by omega) (by omega) (.inr pid.ge)

theorem step_unmarked {e : ProcEvent} (hk : k.Forks) (hu : k.Unmarked) (spares : k.Spares e)
    (h : k.step e = some t) : t.Unmarked := by
  intro q unused
  by_contra marked
  rw [Bool.not_eq_false] at marked
  have free : (t.family q).kind = .free := ProcState.kind_eq_free.mpr unused
  rcases (step_marks h).killed q marked with ⟨before, uncollected⟩ | ⟨p, rfl⟩
  · have used : (k.family q).kind ≠ .free := by
      intro e
      rw [hu q (ProcState.kind_eq_free.mp e)] at before
      cases before
    have refines := (step_family hk h).family
    -- The slot is given back by the event, and all others are as before.
    have other : ∀ {c l}, (update k.family c l q).kind = .free →
        q = c ∧ l.kind = .free := by
      intro c l hq
      rw [update_apply] at hq
      split at hq
      · exact ⟨‹_›, hq⟩
      · exact absurd hq used
    have dropped := spares.fork q
    generalize t.family = g, k.turn e = a at refines free uncollected dropped
    cases refines with
    | idle => exact used free
    | taken => cases (other free).2
    | born => cases (other free).2
    | dropped embryo =>
      rw [dropped (by rw [(other free).1])] at before
      cases before
    | exited alive ne =>
      rw [orphan] at free
      dsimp only at free
      split at free
      · cases free
      · exact used free
    | @collected p c => exact uncollected p _ (by rw [(other free).1])
  · obtain ⟨_, rfl⟩ := Runs.ite_some.mp h
    rw [family_kill] at free
    exact spares.kill p _ rfl q (ProcState.kind_eq_free.mp free) rfl

/-! ## Runs -/

theorem run_numbered {es : List ProcEvent}
    (run : Runs.Steps (fun k e t => k.step e = some t) userinit es k) :
    k.Forks ∧ Tended k.initproc k.family ∧ Numbered k.nextpid k.family := by
  induction run with
  | nil => exact ⟨userinit_forks, userinit_tended, by decide +kernel, by decide +kernel⟩
  | snoc _ h ih =>
    obtain ⟨forks, tended, numbered⟩ := ih
    have refines := step_family forks h
    rw [refines.init]
    exact ⟨refines.forks, tended.step refines.family, step_numbered forks numbered h⟩

theorem run_unmarked {es : List ProcEvent}
    (run : Runs.Steps (Runs.Guarded (fun k e t => k.step e = some t) Spares) userinit es k) :
    k.Forks ∧ k.Unmarked := by
  induction run with
  | nil =>
    rw [Unmarked]
    exact ⟨userinit_forks, by decide +kernel⟩
  | snoc _ h ih =>
    exact ⟨(step_family ih.1 h.2).forks, step_unmarked ih.1 ih.2 h.1 h.2⟩

theorem hitsNamed_iff (ht : Tended k.initproc k.family) (hn : Numbered k.nextpid k.family)
    {pid : Int} : k.HitsNamed pid ↔ k.Cleared pid := by
  have unique : ∀ {q r}, k.Holds q pid → (k.ptable r).pid = pid → q = r := by
    intro q r ⟨used, hq⟩ hr
    have positive : 0 < (k.ptable q).pid := ht.positive q (mt ProcState.kind_eq_free.mp used)
    exact hn.apart q r (hq.trans hr.symm) positive.ne'
  rw [HitsNamed, killReturn, kill]
  cases found : entries.find? fun q => (k.ptable q).pid = pid with
  | none =>
    have absent : ∀ q, (k.ptable q).pid ≠ pid := by
      intro q hq
      exact absurd (decide_eq_true hq) (List.find?_eq_none.mp found q (List.mem_finRange q))
    refine iff_of_true ⟨iff_of_false (by decide) fun h => absent _ h.choose_spec.2, fun q => ?_⟩
      fun q _ => absent q
    exact (or_iff_left fun h => absent q h.2).symm
  | some c =>
    have hc : (k.ptable c).pid = pid := by simpa using List.find?_some found
    constructor
    · rintro ⟨returned, _⟩ q unused hq
      obtain ⟨r, hr⟩ := returned.mp rfl
      exact hr.1 (unique hr hq ▸ unused)
    · intro cleared
      have holds : k.Holds c pid := ⟨fun unused => cleared c unused hc, hc⟩
      refine ⟨iff_of_true rfl ⟨c, holds⟩, fun q => ?_⟩
      dsimp only
      rw [modify_ptable]
      split
      · rename_i e
        exact iff_of_true rfl (.inr (e ▸ holds))
      · rename_i ne
        exact (or_iff_left fun h => ne (unique h hc)).symm

/-- A new process has the mark of the slot it takes. -/
theorem allocproc_killed (hu : k.Unmarked) {p c : ProcPtr} (h : k.step (.allocproc p) = some t)
    (taken : t.forking p = some c) : (t.ptable c).killed = false := by
  obtain ⟨free, rfl⟩ := Runs.ite_some.mp h
  rw [allocproc] at taken ⊢
  cases found : entries.find? fun q => (k.ptable q).state = .unused with
  | none =>
    rw [found] at taken
    cases free.2.symm.trans taken
  | some np =>
    rw [found] at taken
    dsimp only at taken
    rw [update_self] at taken
    cases taken
    let e := { k.ptable c with state := .embryo, pid := k.nextpid }
    dsimp only
    rw [killed_update (k := k) (e := e) rfl rfl]
    exact hu c (by simpa using List.find?_some found)

/-- Whatever happened before, `kill` marks the process it names, and nothing else, if and only if
no free slot holds the pid.  If it was only called so, and no `fork` of a marked child failed, a new
process has no mark. -/
theorem kill_hits_named_iff {es : List ProcEvent}
    (run : Runs.Steps (fun k e t => k.step e = some t) userinit es k) :
    (∀ pid, k.HitsNamed pid ↔ k.Cleared pid) ∧
      (Runs.Steps (Runs.Guarded (fun k e t => k.step e = some t) Spares) userinit es k →
        ∀ p c t, k.step (.allocproc p) = some t → t.forking p = some c →
          (t.ptable c).killed = false) := by
  obtain ⟨_, tended, numbered⟩ := run_numbered run
  refine ⟨fun pid => hitsNamed_iff tended numbered, ?_⟩
  intro spared p c t h taken
  exact allocproc_killed (run_unmarked spared).2 h taken

/-- `init` kills itself before it forks. -/
theorem kill_hits_named_init : ∃ es k,
    Runs.Steps (Runs.Guarded (fun k e t => k.step e = some t) Spares) userinit es k ∧
      (k.ptable 0).killed = true ∧ (∀ pid, k.HitsNamed pid ↔ k.Cleared pid) ∧
      ∀ p c t, k.step (.allocproc p) = some t → t.forking p = some c →
        (t.ptable c).killed = false := by
  let k := userinit.modify 0 fun e => { e with state := .running }
  have cleared : ∀ p pid, ProcEvent.kill 0 1 = .kill p pid → k.Cleared pid := by
    rintro _ _ ⟨⟩
    rw [Cleared]
    decide +kernel
  have spared : Runs.Steps (Runs.Guarded (fun k e t => k.step e = some t) Spares) userinit
      ([.schedule 0] ++ [.kill 0 1]) (k.kill 1) :=
    (Runs.Steps.single ⟨⟨nofun, nofun⟩, rfl⟩).snoc ⟨⟨cleared, nofun⟩, rfl⟩
  have run := spared.mono And.right
  exact ⟨_, _, spared, rfl, kill_hits_named_iff run |>.1, kill_hits_named_iff run |>.2 spared⟩

/-- The pid 0 is in the free slots, and the next process takes the first of them. -/
theorem kill_hits_free_slot : (Runs.exec step userinit [.schedule 0]).any (fun k =>
    k.killReturn 0 = 0 ∧ (∀ q, ¬k.Holds q 0) ∧
      (Runs.exec step k [.kill 0 0, .allocproc 0]).any fun t =>
        t.forking 0 = some 1 ∧ (t.ptable 1).killed) = true := by
  decide +kernel

/-- In every run a process has a positive pid that no other slot has. -/
theorem pids_apart {es : List ProcEvent}
    (run : Runs.Steps (fun k e t => k.step e = some t) userinit es k) (q : ProcPtr)
    (used : (k.ptable q).state ≠ .unused) : 0 < (k.ptable q).pid ∧ (k.ptable q).pid < k.nextpid ∧
      ∀ r, (k.ptable r).pid = (k.ptable q).pid → r = q := by
  obtain ⟨_, tended, numbered⟩ := run_numbered run
  have positive : 0 < (k.ptable q).pid := tended.positive q (mt ProcState.kind_eq_free.mp used)
  exact ⟨positive, numbered.below q, fun r same => numbered.apart r q same (same.trans_ne positive.ne')⟩

/-- `init` forks twice, and the second `fork` fails: the slot is free and keeps its pid. -/
theorem pids_apart_fork : ∃ k, Runs.Steps (fun k e t => step k e = some t) userinit
    [.schedule 0, .allocproc 0, .forkDone 0 5, .allocproc 0, .forkFail 0 true] k ∧
      (k.ptable 1).state = .runnable ∧ (k.ptable 2).state = .unused ∧ (k.ptable 2).pid = 3 ∧
      0 < (k.ptable 1).pid ∧ (k.ptable 1).pid < k.nextpid ∧
      ∀ r, (k.ptable r).pid = (k.ptable 1).pid → r = 1 := by
  have found : (Runs.exec step userinit
      [.schedule 0, .allocproc 0, .forkDone 0 5, .allocproc 0, .forkFail 0 true]).any (fun k =>
        (k.ptable 1).state = .runnable ∧ (k.ptable 2).state = .unused ∧
          (k.ptable 2).pid = 3) = true := by
    decide +kernel
  obtain ⟨k, hk, states⟩ := (Option.any_eq_true _ _).mp found
  obtain ⟨child, free, kept⟩ := of_decide_eq_true states
  have run := Runs.Steps.of_exec hk
  exact ⟨k, run, child, free, kept, pids_apart run 1 (by rw [child]; decide)⟩

end Kernel

end Xv6Gui
