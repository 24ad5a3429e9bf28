import Xv6Gui.Proc.Table
import Xv6Gui.Window.QueueSafety

/-!
# Owners of queued windows

A queue entry keeps a pointer to the process that created the window.  Nothing
in `exit` or `wait` looks at the queue, so an entry outlives its process unless
the process deletes the window itself.

Most steps move a process between states in which it has an address space and
may own windows.  They keep the *kind* of every process, and one lemma deals
with them.  What remains is the life of a page directory: `fork` adds one, `wait`
frees that of a zombie, and no two processes share one.
-/

namespace Xv6Gui

open Function (update update_apply)

/-- What a state means for the address space of a process. -/
inductive Kind where
  | free
  | embryo
  | alive
  | zombie
deriving DecidableEq

/-- The kind of a state. -/
def ProcState.kind : ProcState → Kind
  | .unused => .free
  | .embryo => .embryo
  | .sleeping | .runnable | .running => .alive
  | .zombie => .zombie

namespace Proc

/-- The process has its memory. -/
def HasSpace (e : Proc) : Prop := e.state.kind = .alive ∨ e.state.kind = .zombie

/-- The process can run. -/
def Alive (e : Proc) : Prop := e.state.kind = .alive

theorem Alive.hasSpace {e : Proc} (h : e.Alive) : e.HasSpace := .inl h

end Proc

/-- The children of the forks under way, one for each. -/
structure Children (E : ProcPtr → Prop) (forking : ProcPtr → Option ProcPtr) : Prop where
  embryo : ∀ p c, forking p = some c → E c
  apart : ∀ p q c, forking p = some c → forking q = some c → p = q

section

variable {E E' : ProcPtr → Prop} {forking : ProcPtr → Option ProcPtr} {p c : ProcPtr}

theorem Children.begin (h : Children E forking) (free : ¬ E c) (new : E' c)
    (old : ∀ q ≠ c, E q → E' q) : Children E' (update forking p (some c)) where
  embryo q r hq := by
    rw [update_apply] at hq
    split at hq
    · exact Option.some.inj hq ▸ new
    · have embryo := h.embryo q r hq
      exact old r (fun e => free (e ▸ embryo)) embryo
  apart q q' r hq hq' := by
    have fresh : ∀ q, forking q ≠ some c := fun q hq => free (h.embryo q c hq)
    rw [update_apply] at hq hq'
    split at hq
    · rename_i e
      split at hq'
      · rename_i e'
        exact e.trans e'.symm
      · exact absurd (hq ▸ hq') (fresh q')
    · split at hq'
      · exact absurd (hq' ▸ hq) (fresh q)
      · exact h.apart q q' r hq hq'

theorem Children.finish (h : Children E forking) (hp : forking p = some c)
    (old : ∀ q ≠ c, E q → E' q) : Children E' (update forking p none) := by
  have before : ∀ {q r}, update forking p none q = some r → q ≠ p ∧ forking q = some r := by
    intro q r hq
    rw [update_apply] at hq
    split at hq
    · cases hq
    · rename_i ne
      exact ⟨ne, hq⟩
  constructor
  · intro q r hq
    obtain ⟨ne, hq⟩ := before hq
    refine old r ?_ (h.embryo q r hq)
    rintro rfl
    exact ne (h.apart q p r hq hp)
  · intro q q' r hq hq'
    exact h.apart q q' r (before hq).2 (before hq').2

end

namespace Kernel

variable {k t : Kernel}

variable {p np : ProcPtr} {e : Proc} {f : Proc → Proc}

/-- A process that is neither `ZOMBIE` nor `UNUSED`, with a page directory that
is not freed. -/
def Live (k : Kernel) (p : ProcPtr) : Prop :=
  (k.ptable p).state ≠ .zombie ∧ (k.ptable p).state ≠ .unused ∧
    ∃ d ∈ k.allocated, (k.ptable p).pgdir = some d

/-- The invariant of the table and the queue. -/
structure Sound (k : Kernel) : Prop where
  queue : ∃ l, k.queue.Represents l
  owners : ∀ i p, (k.queue.windowLine i).proc = some p → (k.ptable p).Alive
  space : ∀ p, (k.ptable p).HasSpace → ∃ d ∈ k.allocated, (k.ptable p).pgdir = some d
  apart : ∀ p q, p ≠ q → (k.ptable p).HasSpace → (k.ptable q).HasSpace →
    (k.ptable p).pgdir ≠ (k.ptable q).pgdir
  forking : ∀ p np, k.forking p = some np → (k.ptable np).state = .embryo
  children : ∀ p q np, k.forking p = some np → k.forking q = some np → p = q

theorem Sound.forks (h : k.Sound) :
    Children (fun q => (k.ptable q).state = .embryo) k.forking :=
  ⟨h.forking, h.children⟩

theorem Sound.live (h : k.Sound) (hp : (k.ptable p).Alive) : k.Live p := by
  refine ⟨?_, ?_, h.space p hp.hasSpace⟩
  · intro e
    rw [Proc.Alive, e] at hp
    cases hp
  · intro e
    rw [Proc.Alive, e] at hp
    cases hp

theorem modify_ptable (k : Kernel) (p q : ProcPtr) (f : Proc → Proc) :
    (k.modify p f).ptable q = if q = p then f (k.ptable p) else k.ptable q :=
  update_apply k.ptable p (f (k.ptable p)) q

/-! ## Steps that keep the kind of every process -/

/-- Neither the kind nor the page directory of a process changed. -/
def SameKind (e e' : Proc) : Prop :=
  e'.state.kind = e.state.kind ∧ e'.pgdir = e.pgdir

theorem SameKind.hasSpace {e' : Proc} (h : SameKind e e') : e'.HasSpace ↔ e.HasSpace := by
  rw [Proc.HasSpace, Proc.HasSpace, h.1]

theorem SameKind.embryo {e' : Proc} (h : SameKind e e') (he : e.state = .embryo) :
    e'.state = .embryo := by
  have hk := h.1
  rw [he] at hk
  cases hs : e'.state with
  | embryo => rfl
  | unused | sleeping | runnable | running | zombie => rw [hs] at hk; cases hk

/-- `t` is `k` but for scheduling. -/
structure Scheduled (k t : Kernel) : Prop where
  ptable : ∀ p, SameKind (k.ptable p) (t.ptable p)
  allocated : t.allocated = k.allocated
  forking : t.forking = k.forking
  queue : t.queue = k.queue

theorem Scheduled.trans {u : Kernel} (h : Scheduled k t) (l : Scheduled t u) : Scheduled k u where
  ptable p := ⟨(l.ptable p).1.trans (h.ptable p).1, (l.ptable p).2.trans (h.ptable p).2⟩
  allocated := l.allocated.trans h.allocated
  forking := l.forking.trans h.forking
  queue := l.queue.trans h.queue

theorem Scheduled.sound (h : Scheduled k t) (hs : k.Sound) : t.Sound where
  queue := h.queue ▸ hs.queue
  owners i p hp := by
    rw [h.queue] at hp
    exact (h.ptable p).1.trans (hs.owners i p hp)
  space p hp := by
    rw [h.allocated, (h.ptable p).2]
    exact hs.space p ((h.ptable p).hasSpace.mp hp)
  apart p q hpq hp hq := by
    rw [(h.ptable p).2, (h.ptable q).2]
    exact hs.apart p q hpq ((h.ptable p).hasSpace.mp hp) ((h.ptable q).hasSpace.mp hq)
  forking p np hf := (h.ptable np).embryo (hs.forking p np (h.forking ▸ hf))
  children p q np hp hq := hs.children p q np (h.forking ▸ hp) (h.forking ▸ hq)

theorem modify_scheduled
    (h : SameKind (k.ptable p) (f (k.ptable p))) : Scheduled k (k.modify p f) where
  ptable q := by
    rw [modify_ptable]
    split
    · rename_i e
      rw [e]
      exact h
    · exact ⟨rfl, rfl⟩
  allocated := rfl
  forking := rfl
  queue := rfl

/-- A process that can own windows, before and after. -/
theorem Sound.modify_alive (hs : k.Sound)
    (hb : (k.ptable p).Alive) (ha : (f (k.ptable p)).Alive)
    (hd : (f (k.ptable p)).pgdir = (k.ptable p).pgdir) : (k.modify p f).Sound :=
  (modify_scheduled ⟨ha.trans hb.symm, hd⟩).sound hs

theorem wakeup1_scheduled (k : Kernel) (chan : Option Chan) : Scheduled k (k.wakeup1 chan) where
  ptable p := by
    simp only [wakeup1]
    split
    · rename_i e
      exact ⟨by rw [e.1]; rfl, rfl⟩
    · exact ⟨rfl, rfl⟩
  allocated := rfl
  forking := rfl
  queue := rfl

theorem reparent_scheduled (k : Kernel) (p : ProcPtr) : Scheduled k (k.reparent p) where
  ptable q := by
    simp only [reparent]
    split <;> exact ⟨rfl, rfl⟩
  allocated := rfl
  forking := rfl
  queue := rfl

theorem kill_scheduled (k : Kernel) (pid : Int) : Scheduled k (k.kill pid) := by
  rw [kill]
  split
  · exact ⟨fun _ => ⟨rfl, rfl⟩, rfl, rfl, rfl⟩
  · refine modify_scheduled ⟨?_, rfl⟩
    dsimp only
    split
    · rename_i e
      rw [e]
      rfl
    · rfl

/-! ## Steps on processes without an address space -/

/-- A change of an entry that has no address space before and after. -/
theorem Sound.modify_free (hs : k.Sound)
    {forking : ProcPtr → Option ProcPtr} {nextpid : Int} (hb : ¬ (k.ptable np).HasSpace)
    (ha : ¬ (f (k.ptable np)).HasSpace)
    (hf : Children (fun q => ((k.modify np f).ptable q).state = .embryo) forking) :
    ({ k.modify np f with forking := forking, nextpid := nextpid } : Kernel).Sound where
  queue := hs.queue
  owners i p hp := by
    have alive := hs.owners i p hp
    have ne : p ≠ np := by
      rintro rfl
      exact hb alive.hasSpace
    change ((k.modify np f).ptable p).Alive
    rw [modify_ptable, if_neg ne]
    exact alive
  space p hp := by
    change ∃ d ∈ k.allocated, ((k.modify np f).ptable p).pgdir = some d
    change ((k.modify np f).ptable p).HasSpace at hp
    rw [modify_ptable] at hp ⊢
    split at hp
    · exact absurd hp ha
    · rename_i ne
      rw [if_neg ne]
      exact hs.space p hp
  apart p q hpq hp hq := by
    change ((k.modify np f).ptable p).pgdir ≠ ((k.modify np f).ptable q).pgdir
    change ((k.modify np f).ptable p).HasSpace at hp
    change ((k.modify np f).ptable q).HasSpace at hq
    rw [modify_ptable] at hp hq ⊢
    rw [modify_ptable]
    split at hp
    · exact absurd hp ha
    · split at hq
      · exact absurd hq ha
      · rename_i np_p np_q
        rw [if_neg np_p, if_neg np_q]
        exact hs.apart p q hpq hp hq
  forking := hf.embryo
  children := hf.apart

theorem not_hasSpace_of_unused (h : e.state = .unused) : ¬ e.HasSpace := by
  rw [Proc.HasSpace, h]
  rintro (h | h) <;> cases h

theorem not_hasSpace_of_embryo (h : e.state = .embryo) : ¬ e.HasSpace := by
  rw [Proc.HasSpace, h]
  rintro (h | h) <;> cases h

theorem Sound.allocproc (hs : k.Sound) (p : ProcPtr) : (k.allocproc p).Sound := by
  rw [Kernel.allocproc]
  split
  · exact hs
  · rename_i np hfind
    have unused : (k.ptable np).state = .unused := by
      simpa using List.find?_some hfind
    refine hs.modify_free (not_hasSpace_of_unused unused) (not_hasSpace_of_embryo rfl)
      (hs.forks.begin ?_ ?_ fun q ne => ?_)
    · rw [unused]
      exact nofun
    · rw [modify_ptable, if_pos rfl]
    · rw [modify_ptable, if_neg ne]
      exact id

theorem Sound.forkFail (hs : k.Sound) (hp : k.forking p = some np)
    (kstack : Bool) : (k.forkFail p np kstack).Sound := by
  have embryo := hs.forking p np hp
  refine hs.modify_free (not_hasSpace_of_embryo embryo) (not_hasSpace_of_unused rfl)
    (hs.forks.finish hp fun q ne => ?_)
  rw [modify_ptable, if_neg ne]
  exact id

/-! ## The life of a page directory -/

theorem forkDone_ptable (k : Kernel) (p np : ProcPtr) (d : Nat) :
    (k.forkDone p np d).ptable = update k.ptable np
      { k.ptable np with state := .runnable, parent := some p, pgdir := some d } := rfl

theorem reap_ptable (k : Kernel) (c : ProcPtr) :
    (k.reap c).ptable = update k.ptable c
      { k.ptable c with state := .unused, pid := 0, parent := none, killed := false } := rfl

theorem Sound.forkDone (hs : k.Sound) {d : Nat} (hp : k.forking p = some np)
    (hd : d ∉ k.allocated) : (k.forkDone p np d).Sound := by
  have embryo := hs.forking p np hp
  have other : ∀ q, q ≠ np → (k.forkDone p np d).ptable q = k.ptable q := by
    intro q ne
    rw [forkDone_ptable, Function.update_of_ne ne]
  have child : ((k.forkDone p np d).ptable np).pgdir = some d := by
    rw [forkDone_ptable, Function.update_self]
  have old : ∀ q, q ≠ np → ((k.forkDone p np d).ptable q).HasSpace →
      ((k.forkDone p np d).ptable q).pgdir ≠ some d := by
    intro q ne hq
    rw [other q ne] at hq ⊢
    obtain ⟨d', hd', e⟩ := hs.space q hq
    rw [e]
    rintro ⟨rfl⟩
    exact hd hd'
  have forks : Children (fun q => ((k.forkDone p np d).ptable q).state = .embryo)
      (k.forkDone p np d).forking :=
    hs.forks.finish hp fun q ne => by rw [other q ne]; exact id
  refine ⟨hs.queue, ?_, ?_, ?_, forks.embryo, forks.apart⟩
  · intro i q hq
    have alive := hs.owners i q hq
    rw [other]
    · exact alive
    · rintro rfl
      exact not_hasSpace_of_embryo embryo alive.hasSpace
  · intro q hq
    by_cases e : q = np
    · subst e
      exact ⟨d, .head _, child⟩
    · rw [other q e] at hq ⊢
      obtain ⟨d', hd', h⟩ := hs.space q hq
      exact ⟨d', .tail _ hd', h⟩
  · intro q q' hqq hq hq'
    by_cases e : q = np
    · subst e
      rw [child]
      exact (old q' hqq.symm hq').symm
    · by_cases e' : q' = np
      · subst e'
        rw [child]
        exact old q e hq
      · rw [other q e] at hq ⊢
        rw [other q' e'] at hq' ⊢
        exact hs.apart q q' hqq hq hq'

/-- The end of a process that owns no queued window. -/
theorem Sound.zombie (hs : k.Sound) (alive : (k.ptable p).Alive)
    (hw : ∀ i, (k.queue.windowLine i).proc ≠ some p) :
    (k.modify p fun e => { e with state := .zombie }).Sound := by
  have space : ∀ q, ((k.modify p fun e => { e with state := .zombie }).ptable q).HasSpace →
      (k.ptable q).HasSpace ∧
        ((k.modify p fun e => { e with state := .zombie }).ptable q).pgdir = (k.ptable q).pgdir := by
    intro q hq
    rw [modify_ptable] at hq ⊢
    split at hq
    · rename_i e
      subst e
      exact ⟨alive.hasSpace, by rw [if_pos rfl]⟩
    · rename_i ne
      exact ⟨hq, by rw [if_neg ne]⟩
  refine ⟨hs.queue, ?_, ?_, ?_, ?_, hs.children⟩
  · intro i q hq
    rw [modify_ptable, if_neg]
    · exact hs.owners i q hq
    · rintro rfl
      exact hw i hq
  · intro q hq
    obtain ⟨h, e⟩ := space q hq
    rw [e]
    exact hs.space q h
  · intro q q' hqq hq hq'
    obtain ⟨h, e⟩ := space q hq
    obtain ⟨h', e'⟩ := space q' hq'
    rw [e, e']
    exact hs.apart q q' hqq h h'
  · intro q r hr
    have embryo := hs.forking q r hr
    rw [modify_ptable, if_neg]
    · exact embryo
    · rintro rfl
      exact not_hasSpace_of_embryo embryo alive.hasSpace

/-- `exit` up to the state `ZOMBIE` only wakes processes up and gives them
another parent. -/
theorem exit_eq (k : Kernel) (p : ProcPtr) :
    ∃ u, Scheduled k u ∧ k.exit p = u.modify p fun e => { e with state := .zombie } := by
  rw [Kernel.exit]
  have woken := (wakeup1_scheduled k ((k.ptable p).parent.map .proc)).trans
    (reparent_scheduled _ p)
  split
  · exact ⟨_, woken.trans (wakeup1_scheduled _ _), rfl⟩
  · exact ⟨_, woken, rfl⟩

theorem Sound.exit (hs : k.Sound) (alive : (k.ptable p).Alive)
    (hw : ∀ i, (k.queue.windowLine i).proc ≠ some p) : (k.exit p).Sound := by
  obtain ⟨u, hu, e⟩ := exit_eq k p
  rw [e]
  refine (hu.sound hs).zombie ((hu.ptable p).1.trans alive) ?_
  rw [hu.queue]
  exact hw

theorem Sound.reap (hs : k.Sound) {c : ProcPtr} (hc : (k.ptable c).state = .zombie) :
    (k.reap c).Sound := by
  have zombie : (k.ptable c).HasSpace := .inr (by rw [hc]; rfl)
  have gone : ¬ ((k.reap c).ptable c).HasSpace := by
    rw [reap_ptable, Function.update_self]
    exact not_hasSpace_of_unused rfl
  have other : ∀ q, q ≠ c → (k.reap c).ptable q = k.ptable q := by
    intro q ne
    rw [reap_ptable, Function.update_of_ne ne]
  have ne_of_space : ∀ q, ((k.reap c).ptable q).HasSpace → q ≠ c := by
    rintro q hq rfl
    exact gone hq
  refine ⟨hs.queue, ?_, ?_, ?_, ?_, hs.children⟩
  · intro i q hq
    have alive := hs.owners i q hq
    rw [other]
    · exact alive
    · rintro rfl
      rw [Proc.Alive, hc] at alive
      cases alive
  · intro q hq
    have ne := ne_of_space q hq
    rw [other q ne] at hq ⊢
    obtain ⟨d, hd, e⟩ := hs.space q hq
    refine ⟨d, List.mem_filter.mpr ⟨hd, ?_⟩, e⟩
    rw [← e]
    exact decide_eq_true (hs.apart q c ne hq zombie)
  · intro q q' hqq hq hq'
    have ne := ne_of_space q hq
    have ne' := ne_of_space q' hq'
    rw [other q ne] at hq ⊢
    rw [other q' ne'] at hq' ⊢
    exact hs.apart q q' hqq hq hq'
  · intro q r hr
    have embryo := hs.forking q r hr
    rw [other]
    · exact embryo
    · rintro rfl
      rw [hc] at embryo
      cases embryo

theorem Sound.wait (hs : k.Sound) (hp : (k.ptable p).Alive) : (k.wait p).Sound := by
  rw [Kernel.wait]
  split
  · rename_i c hfind
    have found := List.find?_some hfind
    exact hs.reap (of_decide_eq_true found).2
  · split
    · exact hs
    · exact hs.modify_alive hp rfl rfl

/-! ## Windows -/

theorem Sound.createWindow (hs : k.Sound) (hp : (k.ptable p).Alive)
    {arg : Option Int} {r : Int} {q : Queue}
    (h : k.queue.sysCreateWindow p arg = some (r, q)) : ({ k with queue := q } : Kernel).Sound := by
  obtain ⟨l, hl⟩ := hs.queue
  obtain ⟨r', q', h', spec⟩ := hl.sysCreateWindow p arg
  rw [h] at h'
  cases h'
  obtain ⟨_, rfl, _⟩ | ⟨w, i, _, _, _, hq, owner⟩ := spec
  · exact hs
  · refine ⟨⟨_, hq⟩, ?_, hs.space, hs.apart, hs.forking, hs.children⟩
    intro j o ho
    change (q.owner (.windowLine j)).1 = some o at ho
    rw [owner, update_apply] at ho
    split at ho
    · rw [← Option.some.inj ho]
      exact hp
    · exact hs.owners j o ho

theorem Sound.deleteWindow (hs : k.Sound) {arg : Option Int} {r : Int} {q : Queue}
    (h : k.queue.sysDeleteWindow arg = some (r, q)) : ({ k with queue := q } : Kernel).Sound := by
  obtain ⟨l, hl⟩ := hs.queue
  obtain ⟨r', q', h', spec⟩ := hl.sysDeleteWindow arg
  rw [h] at h'
  cases h'
  obtain ⟨_, rfl, _⟩ | ⟨i, _, _, _, hq, owner⟩ := spec
  · exact hs
  · refine ⟨⟨_, hq⟩, ?_, hs.space, hs.apart, hs.forking, hs.children⟩
    intro j o ho
    change (q.owner (.windowLine j)).1 = some o at ho
    rw [owner, update_apply] at ho
    split at ho
    · cases ho
    · exact hs.owners j o ho

theorem Sound.reorderQueue (hs : k.Sound) {i : Slot} {q : Queue}
    (hi : (k.queue.windowLine i).proc ≠ none) (hn : .windowLine i ≠ k.queue.lastWindow)
    (h : k.queue.reorderQueue (.windowLine i) = some q) :
    ({ k with queue := q } : Kernel).Sound := by
  obtain ⟨l, hl⟩ := hs.queue
  obtain ⟨q', h', hq, owner⟩ := hl.reorderQueue ((hl.used i).mpr hi) hn
  rw [h] at h'
  cases h'
  refine ⟨⟨_, hq⟩, ?_, hs.space, hs.apart, hs.forking, hs.children⟩
  intro j o ho
  change (q.owner (.windowLine j)).1 = some o at ho
  rw [owner] at ho
  exact hs.owners j o ho

/-! ## Runs -/

theorem alive_of_running (h : e.state = .running) : e.Alive := by
  rw [Proc.Alive, h]
  rfl

theorem alive_of_runnable (h : e.state = .runnable) : e.Alive := by
  rw [Proc.Alive, h]
  rfl

/-- A process that exits has no window. -/
def ExitsWithoutWindow (k : Kernel) : ProcEvent → Prop
  | .exit p => ∀ i, (k.queue.windowLine i).proc ≠ some p
  | _ => True

instance (k : Kernel) : ∀ e, Decidable (k.ExitsWithoutWindow e)
  | .exit _ => inferInstanceAs (Decidable (∀ _, _))
  | .schedule _ | .yield _ | .sleep _ _ | .wakeup _ | .allocproc _ | .forkFail _ _
  | .forkDone _ _ | .wait _ | .kill _ _ | .createWindow _ _ | .deleteWindow _ _
  | .reorderQueue _ => inferInstanceAs (Decidable True)

theorem userinit_sound : userinit.Sound where
  queue := ⟨[], Queue.initWindow_represents⟩
  owners i p h := by cases h
  space p hp := by
    by_cases e : p = 0
    · subst e
      exact ⟨0, .head _, rfl⟩
    · refine absurd hp (not_hasSpace_of_unused ?_)
      simp [userinit, e]
  apart p q hpq hp hq := by
    have zero : ∀ r, (userinit.ptable r).HasSpace → r = 0 := by
      intro r hr
      by_contra e
      refine not_hasSpace_of_unused ?_ hr
      simp [userinit, e]
    exact absurd ((zero p hp).trans (zero q hq).symm) hpq
  forking p np h := by cases h
  children p q np h := by cases h

theorem step_sound {e : ProcEvent} (hs : k.Sound) (hg : k.ExitsWithoutWindow e)
    (h : k.step e = some t) : t.Sound := by
  cases e with
  | schedule p =>
    obtain ⟨hp, rfl⟩ := Runs.ite_some.mp h
    exact hs.modify_alive (alive_of_runnable hp) rfl rfl
  | yield p | sleep p n =>
    obtain ⟨hp, rfl⟩ := Runs.ite_some.mp h
    exact hs.modify_alive (alive_of_running hp) rfl rfl
  | wakeup n =>
    cases h
    exact (wakeup1_scheduled k _).sound hs
  | allocproc p =>
    obtain ⟨_, rfl⟩ := Runs.ite_some.mp h
    exact hs.allocproc p
  | forkFail p kstack =>
    obtain ⟨_, np, hnp, rfl⟩ := Runs.ite_map.mp h
    exact hs.forkFail hnp kstack
  | forkDone p pgdir =>
    obtain ⟨hd, np, hnp, rfl⟩ := Runs.ite_map.mp h
    exact hs.forkDone hnp hd.2
  | exit p =>
    obtain ⟨hp, rfl⟩ := Runs.ite_some.mp h
    exact hs.exit (alive_of_running hp.1.1) hg
  | wait p =>
    obtain ⟨hp, rfl⟩ := Runs.ite_some.mp h
    exact hs.wait (alive_of_running hp.1)
  | kill p pid =>
    obtain ⟨_, rfl⟩ := Runs.ite_some.mp h
    exact (kill_scheduled k pid).sound hs
  | createWindow p arg =>
    obtain ⟨hp, ⟨r, q⟩, hr, rfl⟩ := Runs.ite_map.mp h
    exact hs.createWindow (alive_of_running hp.1) hr
  | deleteWindow p arg =>
    obtain ⟨_, ⟨r, q⟩, hr, rfl⟩ := Runs.ite_map.mp h
    exact hs.deleteWindow hr
  | reorderQueue i =>
    obtain ⟨hi, q, hq, rfl⟩ := Runs.ite_map.mp h
    exact hs.reorderQueue hi.1 hi.2 hq

/-- From `userinit` on, in every run in which a process exits only without a
queued window, the owner of every queued window is live. -/
theorem queued_windows_live {es : List ProcEvent}
    (run : Runs.Steps (Runs.Guarded (fun k e t => k.step e = some t) ExitsWithoutWindow)
      userinit es k) :
    ∃ l, k.queue.Represents l ∧ ∀ i ∈ l, ∃ p, (k.queue.windowLine i).proc = some p ∧ k.Live p := by
  have hs : k.Sound := run.invariant userinit_sound fun hs h => step_sound hs h.1 h.2
  obtain ⟨l, hl⟩ := hs.queue
  refine ⟨l, hl, ?_⟩
  intro i hi
  obtain ⟨p, hp⟩ := Option.ne_none_iff_exists'.mp ((hl.used i).mp hi)
  exact ⟨p, hp, hs.live (hs.owners i p hp)⟩

/-- `init` forks a child, the child creates a window. -/
def sampleOwner : List ProcEvent :=
  [.schedule 0, .allocproc 0, .forkDone 0 5, .schedule 1, .createWindow 1 (some 4096)]

/-- A second child creates a window, deletes it and exits, the window of the first stays. -/
def sampleVisit : List ProcEvent :=
  [.allocproc 0, .forkDone 0 6, .schedule 2, .createWindow 2 (some 8192), .deleteWindow 2 (some 1),
    .exit 2, .wait 0]

theorem queued_windows_live_sample :
    ∃ k l, Runs.Steps (Runs.Guarded (fun k e t => k.step e = some t) ExitsWithoutWindow)
      userinit (sampleOwner ++ sampleVisit) k ∧ k.queue.Represents l ∧ 0 ∈ l ∧
        ∀ i ∈ l, ∃ p, (k.queue.windowLine i).proc = some p ∧ k.Live p := by
  have found : (Runs.exec (Runs.guardedBy step ExitsWithoutWindow) userinit
      (sampleOwner ++ sampleVisit)).any (fun k => (k.queue.windowLine 0).proc = some 1) = true := by
    decide +kernel
  obtain ⟨k, hk, owner⟩ := (Option.any_eq_true _ _).mp found
  have run := Runs.Steps.of_exec_guardedBy hk
  obtain ⟨l, hl, live⟩ := queued_windows_live run
  have queued : 0 ∈ l := (hl.used 0).mpr
    (Option.ne_none_iff_exists'.mpr ⟨1, of_decide_eq_true owner⟩)
  exact ⟨k, l, run, hl, queued, live⟩

/-- The child exits with its window queued, and `init` reaps it: the entry is
that of an `UNUSED` process whose page directory is freed. -/
theorem queued_windows_live_exit :
    ∃ k, Runs.Steps (fun k e t => step k e = some t) userinit
      (sampleOwner ++ [.exit 1, .wait 0]) k ∧
        k.queue.lastWindow = .windowLine 0 ∧ (k.queue.windowLine 0).proc = some 1 ∧
          (k.ptable 1).state = .unused ∧ (k.ptable 1).pgdir = some 5 ∧ 5 ∉ k.allocated := by
  have found : (Runs.exec step userinit (sampleOwner ++ [.exit 1, .wait 0])).any (fun k =>
      k.queue.lastWindow = .windowLine 0 ∧ (k.queue.windowLine 0).proc = some 1 ∧
        (k.ptable 1).state = .unused ∧ (k.ptable 1).pgdir = some 5 ∧ 5 ∉ k.allocated) = true := by
    decide +kernel
  obtain ⟨k, hk, freed⟩ := (Option.any_eq_true _ _).mp found
  exact ⟨k, .of_exec hk, of_decide_eq_true freed⟩

end Kernel

end Xv6Gui
