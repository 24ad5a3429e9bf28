import Xv6Gui.Proc.WindowOwners

/-!
# Who collects an exited process

An exited process stays in its slot as a `ZOMBIE` until a process it is the
child of finds it in `wait`.  The parent is a pointer to a slot, `exit` changes
it when the parent goes first, and slots are used again.

The *life* in a slot is its kind, pid and parent.  What the events do to the
lives is said once (`FamilyStep`), with a label for what happened: a slot is
taken, given back, filled by a new process, left by an exit, or collected.
Everything else keeps the lives (`step_family`).  The rest of the module is
about families only:  every process has a parent that is still there, and for
every slot the exits and the collections alternate.
-/

namespace Xv6Gui

open Function (update update_apply update_of_ne update_self)

variable {s : ProcState}

/-- What is in a slot, without the scheduling. -/
structure Life where
  kind : Kind
  pid : Int
  parent : Option ProcPtr

/-- What an event does to the lives in the table. -/
inductive Turn where
  | idle
  | taken (c : ProcPtr)
  | dropped (c : ProcPtr)
  | born (p c : ProcPtr)
  | exited (p : ProcPtr) (pid : Int)
  | collected (p c : ProcPtr) (pid : Int)
deriving DecidableEq

/-- The exit of `p`, whose children go to `init`. -/
def orphan (init p : ProcPtr) (f : ProcPtr → Life) (q : ProcPtr) : Life where
  kind := if q = p then .zombie else (f q).kind
  pid := (f q).pid
  parent := if (f q).parent = some p then some init else (f q).parent

theorem orphan_child {init p q : ProcPtr} {f : ProcPtr → Life} (h : (f q).parent = some p) :
    (orphan init p f q).parent = some init :=
  if_pos h

theorem orphan_other {init p q : ProcPtr} {f : ProcPtr → Life} (h : (f q).parent ≠ some p) :
    (orphan init p f q).parent = (f q).parent :=
  if_neg h

/-- What a turn does to the processes. -/
inductive FamilyStep (init : ProcPtr) (f : ProcPtr → Life) : Turn → (ProcPtr → Life) → Prop where
  | idle : FamilyStep init f .idle f
  | taken {c : ProcPtr} {pid : Int} (free : (f c).kind = .free) (positive : 0 < pid) :
      FamilyStep init f (.taken c) (update f c ⟨.embryo, pid, (f c).parent⟩)
  | dropped {c : ProcPtr} (embryo : (f c).kind = .embryo) :
      FamilyStep init f (.dropped c) (update f c { f c with kind := .free })
  | born {p c : ProcPtr} (alive : (f p).kind = .alive) (embryo : (f c).kind = .embryo) :
      FamilyStep init f (.born p c)
        (update f c ⟨.alive, (f c).pid, some p⟩)
  | exited {p : ProcPtr} (alive : (f p).kind = .alive) (ne : p ≠ init) :
      FamilyStep init f (.exited p (f p).pid) (orphan init p f)
  | collected {p c : ProcPtr} (alive : (f p).kind = .alive) (zombie : (f c).kind = .zombie)
      (child : (f c).parent = some p) :
      FamilyStep init f (.collected p c (f c).pid) (update f c ⟨.free, 0, none⟩)

/-! ## The table as a family -/

/-- A slot without its details. -/
def Proc.life (e : Proc) : Life := ⟨e.state.kind, e.pid, e.parent⟩

theorem ProcState.kind_eq_free : s.kind = .free ↔ s = .unused := by
  cases s <;> simp [ProcState.kind]

theorem ProcState.kind_eq_embryo : s.kind = .embryo ↔ s = .embryo := by
  cases s <;> simp [ProcState.kind]

theorem ProcState.kind_eq_zombie : s.kind = .zombie ↔ s = .zombie := by
  cases s <;> simp [ProcState.kind]

namespace Kernel

variable {k t : Kernel}

variable {p c : ProcPtr}

/-- The processes without their details. -/
def family (k : Kernel) (p : ProcPtr) : Life := (k.ptable p).life

/-- What `wait` of `p` returns in this round, unless it sleeps. -/
def waitReturn (k : Kernel) (p : ProcPtr) : Option Int :=
  match entries.find? fun c => (k.ptable c).parent = some p ∧ (k.ptable c).state = .zombie with
  | some c => some (k.ptable c).pid
  | none =>
    if (entries.all fun c => (k.ptable c).parent ≠ some p) ∨ (k.ptable p).killed then some (-1)
    else none

/-- The turn that an event is. -/
def turn (k : Kernel) : ProcEvent → Turn
  | .allocproc _ =>
    match entries.find? fun q => (k.ptable q).state = .unused with
    | none => .idle
    | some np => .taken np
  | .forkFail p _ => (k.forking p).elim .idle .dropped
  | .forkDone p _ => (k.forking p).elim .idle (.born p)
  | .exit p => .exited p (k.ptable p).pid
  | .wait p =>
    match entries.find? fun c =>
      (k.ptable c).parent = some p ∧ (k.ptable c).state = .zombie with
    | some c => .collected p c (k.ptable c).pid
    | none => .idle
  | _ => .idle

/-- The state after an event, and its turn. -/
def call (k : Kernel) (e : ProcEvent) : Option (Kernel × Turn) :=
  (k.step e).map fun t => (t, k.turn e)

theorem call_eq_some {e : ProcEvent} {a : Turn} :
    k.call e = some (t, a) ↔ k.step e = some t ∧ a = k.turn e := by
  rw [call, Option.map_eq_some_iff]
  constructor
  · rintro ⟨u, hu, h⟩
    cases h
    exact ⟨hu, rfl⟩
  · rintro ⟨h, rfl⟩
    exact ⟨t, h, rfl⟩

theorem family_modify (k : Kernel) (p : ProcPtr) (g : Proc → Proc) :
    (k.modify p g).family = update k.family p (g (k.ptable p)).life := by
  funext q
  rw [family, modify_ptable, update_apply]
  split <;> rfl

theorem family_modify_same {g : Proc → Proc}
    (h : (g (k.ptable p)).life = (k.ptable p).life) : (k.modify p g).family = k.family := by
  rw [family_modify, h]
  exact Function.update_eq_self p k.family

theorem family_wakeup1 (k : Kernel) (chan : Option Chan) : (k.wakeup1 chan).family = k.family := by
  funext p
  simp only [family, wakeup1]
  split
  · rename_i h
    simp [Proc.life, h.1, ProcState.kind]
  · rfl

theorem family_reparent (k : Kernel) (p : ProcPtr) :
    (k.reparent p).family = fun q =>
      { k.family q with parent :=
          if (k.family q).parent = some p then some k.initproc else (k.family q).parent } := by
  funext q
  simp only [family, reparent]
  split
  · rename_i h
    simp [Proc.life, h]
  · rename_i h
    simp [Proc.life, h]

theorem family_exit (k : Kernel) (p : ProcPtr) :
    (k.exit p).family = orphan k.initproc p k.family := by
  rw [Kernel.exit]
  have passed : ∀ chan, ((k.wakeup1 chan).reparent p).family = fun q =>
      { k.family q with parent :=
          if (k.family q).parent = some p then some k.initproc else (k.family q).parent } := by
    intro chan
    rw [family_reparent, family_wakeup1]
    rfl
  have woken : ∀ u : Kernel, u.family = (fun q =>
      { k.family q with parent :=
          if (k.family q).parent = some p then some k.initproc else (k.family q).parent }) →
      (u.modify p fun e => { e with state := .zombie }).family = orphan k.initproc p k.family := by
    intro u hu
    have at_p : (u.ptable p).life = _ := congrFun hu p
    rw [family_modify, hu]
    funext q
    rw [update_apply]
    split
    · rename_i e
      subst e
      rw [Proc.life, Life.mk.injEq] at at_p
      rw [Proc.life, orphan, Life.mk.injEq, if_pos rfl]
      exact ⟨rfl, at_p.2.1, at_p.2.2⟩
    · rename_i ne
      rw [orphan, if_neg ne]
  apply woken
  split
  · rw [family_wakeup1]
    exact passed _
  · exact passed _

theorem family_kill (k : Kernel) (pid : Int) : (k.kill pid).family = k.family := by
  rw [kill]
  split
  · rfl
  · apply family_modify_same
    rw [Proc.life, Proc.life, Life.mk.injEq]
    refine ⟨?_, rfl, rfl⟩
    dsimp only
    split
    · rename_i h
      rw [h]
      rfl
    · rfl

/-! ## Forks under way -/

/-- The child a process in `fork` works on is an `EMBRYO` of its own, and pids
are positive. -/
structure Forks (k : Kernel) : Prop where
  embryo : ∀ p c, k.forking p = some c → (k.family c).kind = .embryo
  apart : ∀ p q c, k.forking p = some c → k.forking q = some c → p = q
  positive : 0 < k.nextpid

theorem Forks.keep (hk : k.Forks) (forking : t.forking = k.forking) (next : t.nextpid = k.nextpid)
    (kinds : ∀ c, (k.family c).kind = .embryo → (t.family c).kind = .embryo) : t.Forks where
  embryo p c h := kinds c (hk.embryo p c (forking ▸ h))
  apart p q c hp hq := hk.apart p q c (forking ▸ hp) (forking ▸ hq)
  positive := next ▸ hk.positive

theorem Forks.same (hk : k.Forks) (forking : t.forking = k.forking) (next : t.nextpid = k.nextpid)
    (family : t.family = k.family) : t.Forks :=
  hk.keep forking next fun c h => by rw [family]; exact h

theorem Forks.children (hk : k.Forks) :
    Children (fun c => (k.family c).kind = .embryo) k.forking :=
  ⟨hk.embryo, hk.apart⟩

/-- The end of a `fork`, one way or the other. -/
theorem Forks.finish (hk : k.Forks) {l : Life} (hp : k.forking p = some c)
    (forking : t.forking = update k.forking p none) (next : t.nextpid = k.nextpid)
    (family : t.family = update k.family c l) : t.Forks := by
  have children : Children (fun c => (t.family c).kind = .embryo) t.forking := by
    rw [forking]
    refine hk.children.finish hp fun q ne => ?_
    rw [family, update_of_ne ne]
    exact id
  exact ⟨children.embryo, children.apart, next ▸ hk.positive⟩

/-- A `fork` that has found the slot `c`. -/
theorem Forks.begin (hk : k.Forks) {l : Life} (free : (k.family c).kind = .free)
    (embryo : l.kind = .embryo) (forking : t.forking = update k.forking p (some c))
    (next : t.nextpid = k.nextpid + 1) (family : t.family = update k.family c l) :
    t.Forks := by
  have children : Children (fun c => (t.family c).kind = .embryo) t.forking := by
    rw [forking]
    refine hk.children.begin ?_ ?_ fun q ne => ?_
    · rw [free]
      exact nofun
    · rw [family, update_self]
      exact embryo
    · rw [family, update_of_ne ne]
      exact id
  have positive := hk.positive
  exact ⟨children.embryo, children.apart, by omega⟩

theorem alive_of_free (h : k.Free p) : (k.family p).kind = .alive :=
  alive_of_running h.1

/-! ## The kernel refines the family -/

/-- A step of the kernel is a turn. -/
structure Refines (k : Kernel) (a : Turn) (t : Kernel) : Prop where
  family : FamilyStep k.initproc k.family a t.family
  init : t.initproc = k.initproc
  forks : t.Forks

theorem Refines.idle (hk : k.Forks) (family : t.family = k.family) (init : t.initproc = k.initproc)
    (forking : t.forking = k.forking) (next : t.nextpid = k.nextpid) : k.Refines .idle t where
  family := by
    rw [family]
    exact .idle
  init := init
  forks := hk.same forking next family

theorem allocproc_refines (hk : k.Forks) (p : ProcPtr) :
    k.Refines (k.turn (.allocproc p)) (k.allocproc p) := by
  rw [turn, allocproc]
  cases found : entries.find? fun q => (k.ptable q).state = .unused with
  | none => exact .idle hk rfl rfl rfl rfl
  | some c =>
    have unused : (k.ptable c).state = .unused := by
      simpa using List.find?_some found
    have free : (k.family c).kind = .free := ProcState.kind_eq_free.mpr unused
    have family := family_modify k c fun e => { e with state := .embryo, pid := k.nextpid }
    exact ⟨family ▸ .taken free hk.positive, rfl, hk.begin free rfl rfl rfl family⟩

theorem forkFail_refines (hk : k.Forks) (hp : k.forking p = some c)
    (kstack : Bool) : k.Refines (.dropped c) (k.forkFail p c kstack) := by
  have family := family_modify k c fun e =>
    { e with state := .unused, pgdir := if kstack then e.pgdir else none }
  exact ⟨family ▸ .dropped (hk.embryo p c hp), rfl, hk.finish hp rfl rfl family⟩

theorem forkDone_refines (hk : k.Forks) (alive : (k.family p).kind = .alive)
    (hp : k.forking p = some c) (pgdir : Nat) :
    k.Refines (.born p c) (k.forkDone p c pgdir) := by
  have family := family_modify k c fun e =>
    { e with state := .runnable, parent := some p, pgdir := some pgdir }
  exact ⟨family ▸ .born alive (hk.embryo p c hp), rfl, hk.finish hp rfl rfl family⟩

theorem exit_forks (hk : k.Forks) (alive : (k.family p).kind = .alive) :
    (k.exit p).Forks := by
  apply hk.keep
  · rw [Kernel.exit]
    split <;> rfl
  · rw [Kernel.exit]
    split <;> rfl
  · intro c embryo
    rw [family_exit, orphan, if_neg]
    · exact embryo
    · rintro rfl
      rw [alive] at embryo
      cases embryo

theorem exit_refines (hk : k.Forks) (alive : (k.family p).kind = .alive)
    (ne : p ≠ k.initproc) : k.Refines (.exited p (k.ptable p).pid) (k.exit p) where
  family := by
    rw [family_exit]
    exact .exited alive ne
  init := by
    rw [Kernel.exit]
    split <;> rfl
  forks := exit_forks hk alive

theorem wait_refines (hk : k.Forks) (alive : (k.family p).kind = .alive) :
    k.Refines (k.turn (.wait p)) (k.wait p) := by
  rw [turn, wait]
  cases found : entries.find? fun c =>
      (k.ptable c).parent = some p ∧ (k.ptable c).state = .zombie with
  | none =>
    dsimp only
    split
    · exact .idle hk rfl rfl rfl rfl
    · refine .idle hk (family_modify_same ?_) rfl rfl rfl
      exact congrArg (Life.mk · _ _) alive.symm
  | some c =>
    have found := List.find?_some found
    obtain ⟨child, zombie⟩ := of_decide_eq_true found
    have zombie : (k.family c).kind = .zombie := ProcState.kind_eq_zombie.mpr zombie
    have family : (k.reap c).family = update k.family c ⟨.free, 0, none⟩ :=
      family_modify k c fun e => { e with state := .unused, pid := 0, parent := none, killed := false }
    refine ⟨?_, rfl, hk.keep rfl rfl ?_⟩
    · rw [family]
      exact .collected alive zombie child
    · intro q embryo
      rw [family, update_of_ne]
      · exact embryo
      · rintro rfl
        rw [zombie] at embryo
        cases embryo

theorem step_family {e : ProcEvent} (hk : k.Forks) (h : k.step e = some t) :
    k.Refines (k.turn e) t := by
  cases e with
  | schedule p | yield p | sleep p n =>
    obtain ⟨hp, rfl⟩ := Runs.ite_some.mp h
    exact .idle hk (family_modify_same (by simp [Proc.life, hp, ProcState.kind])) rfl rfl rfl
  | wakeup n =>
    cases h
    exact .idle hk (family_wakeup1 k _) rfl rfl rfl
  | allocproc p =>
    obtain ⟨_, rfl⟩ := Runs.ite_some.mp h
    exact allocproc_refines hk p
  | forkFail p kstack =>
    obtain ⟨_, c, hc, rfl⟩ := Runs.ite_map.mp h
    rw [turn, hc]
    exact forkFail_refines hk hc kstack
  | forkDone p pgdir =>
    obtain ⟨hd, c, hc, rfl⟩ := Runs.ite_map.mp h
    rw [turn, hc]
    exact forkDone_refines hk (alive_of_running hd.1) hc pgdir
  | exit p =>
    obtain ⟨hp, rfl⟩ := Runs.ite_some.mp h
    exact exit_refines hk (alive_of_free hp.1) hp.2
  | wait p =>
    obtain ⟨hp, rfl⟩ := Runs.ite_some.mp h
    exact wait_refines hk (alive_of_free hp)
  | kill p pid =>
    obtain ⟨_, rfl⟩ := Runs.ite_some.mp h
    have forking : (k.kill pid).forking = k.forking := by
      rw [Kernel.kill]
      split <;> rfl
    refine .idle hk (family_kill k pid) ?_ forking ?_
    · rw [Kernel.kill]
      split <;> rfl
    · rw [Kernel.kill]
      split <;> rfl
  | createWindow p arg | deleteWindow p arg | reorderQueue i =>
    obtain ⟨_, _, _, rfl⟩ := Runs.ite_map.mp h
    exact .idle hk rfl rfl rfl rfl

end Kernel

/-! ## Parents -/

/-- Every process has a parent that is there to collect it. -/
structure Tended (init : ProcPtr) (f : ProcPtr → Life) : Prop where
  root : (f init).kind = .alive
  parents : ∀ c, c ≠ init → (f c).kind = .alive ∨ (f c).kind = .zombie →
    ∃ p, (f c).parent = some p ∧ (f p).kind = .alive
  positive : ∀ c, (f c).kind ≠ .free → 0 < (f c).pid

variable {init : ProcPtr} {f g : ProcPtr → Life}

/-- A slot without a live process is nobody's parent, so it can change. -/
theorem Tended.update (hf : Tended init f) {c : ProcPtr} {l : Life} (dead : (f c).kind ≠ .alive)
    (parent : l.kind = .alive ∨ l.kind = .zombie →
      ∃ p, l.parent = some p ∧ (f p).kind = .alive)
    (positive : l.kind ≠ .free → 0 < l.pid) : Tended init (Function.update f c l) := by
  have live : ∀ p, (f p).kind = .alive → (Function.update f c l p).kind = .alive := by
    intro p hp
    rw [update_of_ne]
    · exact hp
    · rintro rfl
      exact dead hp
  refine ⟨live init hf.root, ?_, ?_⟩
  · intro q ne hq
    rw [update_apply] at hq ⊢
    split at hq
    · obtain ⟨p, hp, alive⟩ := parent hq
      exact ⟨p, by simp [*], live p alive⟩
    · rename_i other
      obtain ⟨p, hp, alive⟩ := hf.parents q ne hq
      exact ⟨p, by rw [if_neg other]; exact hp, live p alive⟩
  · intro q hq
    rw [update_apply] at hq ⊢
    split at hq
    · rename_i e
      rw [if_pos e]
      exact positive hq
    · rename_i e
      rw [if_neg e]
      exact hf.positive q hq

theorem Tended.exited (hf : Tended init f) {p : ProcPtr} (alive : (f p).kind = .alive)
    (ne : p ≠ init) : Tended init (orphan init p f) := by
  have stays : ∀ q, q ≠ p → (f q).kind = .alive → (orphan init p f q).kind = .alive := by
    intro q hq h
    rw [orphan, if_neg hq]
    exact h
  refine ⟨stays init ne.symm hf.root, ?_, ?_⟩
  · intro c hc hk
    have before : (f c).kind = .alive ∨ (f c).kind = .zombie := by
      by_cases e : c = p
      · exact .inl (e ▸ alive)
      · rwa [orphan, if_neg e] at hk
    obtain ⟨q, hq, live⟩ := hf.parents c hc before
    by_cases e : q = p
    · exact ⟨init, orphan_child (e ▸ hq), stays init ne.symm hf.root⟩
    · refine ⟨q, ?_, stays q e live⟩
      rw [orphan_other]
      · exact hq
      · rw [hq]
        exact fun h => e (Option.some.inj h)
  · intro c hc
    apply hf.positive c
    by_cases e : c = p
    · rw [e, alive]
      exact nofun
    · rwa [orphan, if_neg e] at hc

theorem Tended.step {a : Turn} (hf : Tended init f) (h : FamilyStep init f a g) :
    Tended init g := by
  cases h with
  | idle => exact hf
  | taken free positive => exact hf.update (by rw [free]; exact nofun) (by simp) fun _ => positive
  | dropped embryo => exact hf.update (by rw [embryo]; exact nofun) (by simp) (by simp)
  | @born p c alive embryo =>
    have positive := hf.positive c (by rw [embryo]; exact nofun)
    exact hf.update (by rw [embryo]; exact nofun) (fun _ => ⟨p, rfl, alive⟩) fun _ => positive
  | exited alive ne => exact hf.exited alive ne
  | collected alive zombie child =>
    exact hf.update (by rw [zombie]; exact nofun) (by simp) (by simp)

/-! ## Exits and collections -/

/-- The pids of the processes that left the slot `c` by an exit, oldest first. -/
def exits (c : ProcPtr) (as : List Turn) : List Int :=
  as.filterMap fun
    | .exited p pid => if p = c then some pid else none
    | _ => none

/-- The pids with which `wait` collected what was in the slot `c`. -/
def collections (c : ProcPtr) (as : List Turn) : List Int :=
  as.filterMap fun
    | .collected _ q pid => if q = c then some pid else none
    | _ => none

theorem exits_append (c : ProcPtr) (as bs : List Turn) :
    exits c (as ++ bs) = exits c as ++ exits c bs :=
  List.filterMap_append

theorem collections_append (c : ProcPtr) (as bs : List Turn) :
    collections c (as ++ bs) = collections c as ++ collections c bs :=
  List.filterMap_append

/-- The exit from the slot that is not collected yet. -/
def Life.pending (l : Life) : List Int := if l.kind = .zombie then [l.pid] else []

/-- The collected exits are all but the one that is pending. -/
def Accounted (as : List Turn) (f : ProcPtr → Life) : Prop :=
  ∀ c, exits c as = collections c as ++ (f c).pending

theorem pending_update {c : ProcPtr} {l : Life} (hf : (f c).kind ≠ .zombie)
    (hl : l.kind ≠ .zombie) (q : ProcPtr) : (update f c l q).pending = (f q).pending := by
  rw [update_apply]
  split
  · rename_i e
    rw [e, Life.pending, Life.pending, if_neg hf, if_neg hl]
  · rfl

theorem Accounted.keep {as : List Turn} {a : Turn} (h : Accounted as f)
    (exit : ∀ c, exits c [a] = []) (collect : ∀ c, collections c [a] = [])
    (pending : ∀ c, (g c).pending = (f c).pending) : Accounted (as ++ [a]) g := by
  intro c
  rw [exits_append, exit, collections_append, collect, pending, List.append_nil, List.append_nil]
  exact h c

theorem Accounted.step {as : List Turn} {a : Turn} (h : Accounted as f)
    (hs : FamilyStep init f a g) : Accounted (as ++ [a]) g := by
  cases hs with
  | idle => exact h.keep (fun _ => rfl) (fun _ => rfl) fun _ => rfl
  | taken free positive =>
    exact h.keep (fun _ => rfl) (fun _ => rfl) (pending_update (by rw [free]; exact nofun) nofun)
  | dropped embryo | born alive embryo =>
    exact h.keep (fun _ => rfl) (fun _ => rfl)
      (pending_update (by rw [embryo]; exact nofun) nofun)
  | @exited p alive ne =>
    intro c
    rw [exits_append, h c, collections_append]
    by_cases e : c = p
    · subst e
      simp [exits, collections, Life.pending, orphan, alive]
    · simp [exits, collections, Life.pending, orphan, e, Ne.symm e]
  | @collected p c alive zombie child =>
    intro q
    rw [exits_append, h q, collections_append]
    by_cases e : q = c
    · subst e
      simp [exits, collections, Life.pending, zombie]
    · simp [exits, collections, Life.pending, e, Ne.symm e]

namespace Kernel

variable {k t : Kernel}

variable {e : ProcEvent}

theorem userinit_forks : userinit.Forks := ⟨nofun, nofun, by decide⟩

theorem userinit_tended : Tended userinit.initproc userinit.family := by
  refine ⟨rfl, ?_, ?_⟩
  · intro c ne hc
    have free : (userinit.family c).kind = .free := by simp [family, userinit, show c ≠ 0 from ne,
      Proc.life, ProcState.kind]
    rw [free] at hc
    rcases hc with hc | hc <;> cases hc
  · intro c hc
    by_cases e : c = 0
    · subst e
      decide
    · simp [family, userinit, e, Proc.life, ProcState.kind] at hc

/-- The family part of a run from `userinit`. -/
theorem run_family {ls : List (ProcEvent × Turn)}
    (run : Runs.Steps (fun k l t => k.call l.1 = some (t, l.2)) userinit ls k) :
    k.Forks ∧ Tended k.initproc k.family ∧ Accounted (ls.map Prod.snd) k.family := by
  induction run with
  | nil =>
    refine ⟨userinit_forks, userinit_tended, ?_⟩
    intro c
    by_cases e : c = 0
    · subst e
      rfl
    · simp [exits, collections, Life.pending, family, userinit, e, Proc.life, ProcState.kind]
  | @snoc as k t a _ h ih =>
    obtain ⟨forks, tended, accounted⟩ := ih
    obtain ⟨h, e⟩ := call_eq_some.mp h
    have refines := step_family forks h
    rw [← e] at refines
    rw [List.map_append, refines.init]
    exact ⟨refines.forks, tended.step refines.family, accounted.step refines.family⟩

/-- Every process out of `fork` has a parent that can still call `wait`. -/
def Parented (k : Kernel) : Prop :=
  ∀ c, c ≠ k.initproc → (k.ptable c).state ≠ .unused → (k.ptable c).state ≠ .embryo →
    ∃ p, (k.ptable c).parent = some p ∧ (k.ptable p).state ≠ .unused ∧
      (k.ptable p).state ≠ .zombie

theorem parented_of_tended (h : Tended k.initproc k.family) : k.Parented := by
  intro c ne unused embryo
  have kind : (k.family c).kind = .alive ∨ (k.family c).kind = .zombie := by
    cases hc : (k.family c).kind with
    | free => exact absurd (ProcState.kind_eq_free.mp hc) unused
    | embryo => exact absurd (ProcState.kind_eq_embryo.mp hc) embryo
    | alive => exact .inl rfl
    | zombie => exact .inr rfl
  obtain ⟨p, hp, alive⟩ := h.parents c ne kind
  refine ⟨p, hp, ?_, ?_⟩
  · intro e
    rw [family, Proc.life, e] at alive
    cases alive
  · intro e
    rw [family, Proc.life, e] at alive
    cases alive

/-- What a step does with the exited processes. -/
structure Reaps (k : Kernel) (e : ProcEvent) (t : Kernel) : Prop where
  /-- Nothing but the `wait` of its parent takes an exited process out of its
  slot, and that `wait` returns its pid. -/
  zombie : ∀ c, (k.ptable c).state = .zombie →
    ((t.ptable c).state = .zombie ∧ (t.ptable c).pid = (k.ptable c).pid) ∨
      ∃ p, e = .wait p ∧ (k.ptable c).parent = some p ∧
        k.waitReturn p = some (k.ptable c).pid ∧ (t.ptable c).state = .unused
  /-- A `wait` that returns a pid has collected the child with that pid. -/
  returned : ∀ p pid, e = .wait p → k.waitReturn p = some pid → pid ≠ -1 →
    ∃ c, (k.ptable c).state = .zombie ∧ (k.ptable c).parent = some p ∧
      (k.ptable c).pid = pid ∧ (t.ptable c).state = .unused
  /-- A `wait` that returns -1 has no children to wait for, or the process is killed. -/
  refused : ∀ p, e = .wait p → k.waitReturn p = some (-1) →
    (∀ c, (k.ptable c).parent ≠ some p) ∨ (k.ptable p).killed = true
  /-- Children of a process that exits are children of `init` from then on. -/
  orphans : ∀ p c, e = .exit p → (k.ptable c).parent = some p →
    (t.ptable c).parent = some k.initproc

theorem entries_all {P : ProcPtr → Prop} [DecidablePred P] :
    (entries.all fun c => P c) = true ↔ ∀ c, P c := by
  simp [entries]

/-- The child a `wait` finds. -/
theorem wait_found {p c : ProcPtr}
    (found : entries.find? (fun c => (k.ptable c).parent = some p ∧ (k.ptable c).state = .zombie) =
      some c) :
    (k.ptable c).parent = some p ∧ (k.ptable c).state = .zombie := by
  have found := List.find?_some found
  exact of_decide_eq_true found

theorem zombie_step (hk : k.Forks) (h : k.step e = some t) {c : ProcPtr}
    (zombie : (k.family c).kind = .zombie) :
    ((t.family c).kind = .zombie ∧ (t.family c).pid = (k.family c).pid) ∨
      ∃ p, k.turn e = .collected p c (k.family c).pid ∧ (k.family c).parent = some p ∧
        (t.family c).kind = .free := by
  have refines := (step_family hk h).family
  generalize k.turn e = a at refines
  generalize t.family = g at refines
  -- A slot that is no zombie changes, so it is another one.
  have other : ∀ {q : ProcPtr} {l : Life}, (k.family q).kind ≠ .zombie →
      (update k.family q l c).kind = .zombie ∧
        (update k.family q l c).pid = (k.family c).pid := by
    intro q l hq
    rw [update_of_ne]
    · exact ⟨zombie, rfl⟩
    · rintro rfl
      exact hq zombie
  cases refines with
  | idle => exact .inl ⟨zombie, rfl⟩
  | taken free positive => exact .inl (other (by rw [free]; exact nofun))
  | dropped embryo | born alive embryo => exact .inl (other (by rw [embryo]; exact nofun))
  | @exited p alive ne =>
    refine .inl ⟨?_, rfl⟩
    rw [orphan]
    dsimp only
    split
    · rfl
    · exact zombie
  | @collected p q alive zombie' child =>
    by_cases e : c = q
    · subst e
      exact .inr ⟨p, rfl, child, by rw [update_self]⟩
    · rw [update_of_ne e]
      exact .inl ⟨zombie, rfl⟩

/-- Only `wait` collects. -/
theorem turn_collected {p c : ProcPtr} {pid : Int}
    (h : k.turn e = .collected p c pid) : e = .wait p ∧ k.waitReturn p = some pid := by
  cases e with
  | allocproc q =>
    rw [turn] at h
    split at h <;> cases h
  | forkFail q kstack | forkDone q pgdir =>
    rw [turn] at h
    cases hq : k.forking q <;> rw [hq] at h <;> cases h
  | wait q =>
    rw [turn] at h
    cases found : entries.find? fun c =>
        (k.ptable c).parent = some q ∧ (k.ptable c).state = .zombie with
    | none =>
      rw [found] at h
      cases h
    | some d =>
      rw [found] at h
      cases h
      refine ⟨rfl, ?_⟩
      rw [waitReturn, found]
  | exit q | schedule q | yield q | sleep q n | wakeup n | kill q pid | createWindow q arg
  | deleteWindow q arg | reorderQueue i => cases h

theorem step_reaps (hk : k.Forks) (hf : Tended k.initproc k.family)
    (h : k.step e = some t) : k.Reaps e t where
  zombie c hc := by
    rcases zombie_step hk h (ProcState.kind_eq_zombie.mpr hc) with ⟨kind, pid⟩ | ⟨p, a, parent, kind⟩
    · exact .inl ⟨ProcState.kind_eq_zombie.mp kind, pid⟩
    · obtain ⟨e, returned⟩ := turn_collected a
      exact .inr ⟨p, e, parent, returned, ProcState.kind_eq_free.mp kind⟩
  returned p pid he hr ne := by
    subst he
    obtain ⟨_, rfl⟩ := Runs.ite_some.mp h
    rw [waitReturn] at hr
    rw [wait]
    cases found : entries.find? fun c =>
        (k.ptable c).parent = some p ∧ (k.ptable c).state = .zombie with
    | none =>
      rw [found] at hr
      dsimp only at hr
      split at hr
      · exact absurd (Option.some.inj hr).symm ne
      · cases hr
    | some c =>
      rw [found] at hr
      obtain ⟨child, zombie⟩ := wait_found found
      refine ⟨c, zombie, child, Option.some.inj hr, ?_⟩
      rw [reap_ptable, update_self]
  refused p he hr := by
    rw [waitReturn] at hr
    cases found : entries.find? fun c =>
        (k.ptable c).parent = some p ∧ (k.ptable c).state = .zombie with
    | none =>
      rw [found] at hr
      dsimp only at hr
      split at hr
      · rename_i cond
        exact cond.imp_left entries_all.mp
      · cases hr
    | some c =>
      -- A zombie has a positive pid.
      rw [found] at hr
      obtain ⟨_, zombie⟩ := wait_found found
      have kind : (k.family c).kind = .zombie := ProcState.kind_eq_zombie.mpr zombie
      have positive : 0 < (k.ptable c).pid := hf.positive c (by rw [kind]; decide)
      rw [Option.some.inj hr] at positive
      exact absurd positive (by decide)
  orphans p c he hc := by
    subst he
    obtain ⟨_, rfl⟩ := Runs.ite_some.mp h
    have family := congrFun (family_exit k p) c
    exact (congrArg Life.parent family).trans (orphan_child hc)

/-- In every run from `userinit`, each exit is collected once: by the parent of
the process, which gets its pid, and with the process in its slot until then. -/
theorem children_reaped_once {ls : List (ProcEvent × Turn)}
    (run : Runs.Steps (fun k l t => k.call l.1 = some (t, l.2)) userinit ls k) :
    k.Parented ∧
      (∀ c, exits c (ls.map Prod.snd) = collections c (ls.map Prod.snd) ++
        if (k.ptable c).state = .zombie then [(k.ptable c).pid] else []) ∧
      ∀ e t, k.step e = some t → k.Reaps e t := by
  obtain ⟨forks, tended, accounted⟩ := run_family run
  refine ⟨parented_of_tended tended, ?_, fun e t h => step_reaps forks tended h⟩
  intro c
  rw [accounted c, Life.pending]
  simp only [family, Proc.life, ProcState.kind_eq_zombie]

/-- A child of `init` forks, and both end, the parent first. -/
def sampleFamily : List ProcEvent :=
  [.schedule 0, .allocproc 0, .forkDone 0 5, .schedule 1, .allocproc 1, .forkDone 1 6, .exit 1,
    .schedule 2, .exit 2, .wait 0, .wait 0]

theorem children_reaped_once_orphan :
    ∃ ls k, Runs.Steps (fun k l t => k.call l.1 = some (t, l.2)) userinit ls k ∧
      collections 1 (ls.map Prod.snd) = [2] ∧ collections 2 (ls.map Prod.snd) = [3] ∧
      k.Parented ∧
      (∀ c, exits c (ls.map Prod.snd) = collections c (ls.map Prod.snd) ++
        if (k.ptable c).state = .zombie then [(k.ptable c).pid] else []) ∧
      ∀ e t, k.step e = some t → k.Reaps e t := by
  have found : (Runs.execOut call userinit sampleFamily).any (fun r =>
      collections 1 (r.2.map Prod.snd) = [2] ∧ collections 2 (r.2.map Prod.snd) = [3]) = true := by
    decide +kernel
  obtain ⟨⟨k, ls⟩, hr, collected⟩ := (Option.any_eq_true _ _).mp found
  have run := Runs.Steps.of_execOut hr
  obtain ⟨first, second⟩ := of_decide_eq_true collected
  exact ⟨ls, k, run, first, second, children_reaped_once run⟩

end Kernel

end Xv6Gui
