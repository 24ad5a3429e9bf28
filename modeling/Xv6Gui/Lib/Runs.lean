import Mathlib.Data.List.Basic

/-!
# Runs of a labelled transition relation

A system is a relation `R s a t`: from the state `s` the label `a` leads to
`t`.  A run is a list of labels, oldest first, with the states it passes
through.  An invariant is proved once, of the initial state and of one step
(`Steps.invariant`), and then holds at the end of every run.  When the
invariant speaks of what happened before, it takes the labels as an argument
(`Steps.invariant_hist`).

A condition on the steps of a run is a *guard* `G s a` on the state before the
step and its label.  `Guarded R G` is the relation whose runs are the runs of
`R` all of whose steps meet the guard.

A system given by a partial function is run by `exec`, so that a run on
concrete labels can be evaluated, and `Steps.of_exec` turns the evaluation
into a run.
-/

namespace Runs

variable {σ α : Type*}

variable {s t : σ} {as : List α} {f : σ → α → Option σ}

/-- Two partial functions one after the other. -/
theorem bind_some {β γ : Type} {x : Option β} {f : β → Option γ} {c : γ} :
    (x >>= f) = some c ↔ ∃ b, x = some b ∧ f b = some c :=
  Option.bind_eq_some_iff

/-- A step behind a test. -/
theorem ite_some {β : Type} {c : Prop} [Decidable c] {a b : β} :
    (if c then some a else none) = some b ↔ c ∧ a = b := by
  rw [Option.ite_none_right_eq_some, Option.some.injEq]

theorem ite_map {β γ : Type} {c : Prop} [Decidable c] {x : Option β} {f : β → γ} {b : γ} :
    (if c then x.map f else none) = some b ↔ c ∧ ∃ a, x = some a ∧ f a = b := by
  rw [Option.ite_none_right_eq_some, Option.map_eq_some_iff]

/-- `Steps R s₀ as s`: the labels `as` lead from `s₀` to `s`. -/
inductive Steps (R : σ → α → σ → Prop) (s₀ : σ) : List α → σ → Prop where
  | nil : Steps R s₀ [] s₀
  | snoc {as : List α} {s t : σ} {a : α} :
      Steps R s₀ as s → R s a t → Steps R s₀ (as ++ [a]) t

/-- The steps of `R` whose label and first state meet the guard. -/
def Guarded (R : σ → α → σ → Prop) (G : σ → α → Prop) (s : σ) (a : α) (t : σ) : Prop :=
  G s a ∧ R s a t

variable {R : σ → α → σ → Prop}

/-- What holds at the start and is kept by every step holds after every run. -/
theorem Steps.invariant {I : σ → Prop} {s₀ : σ}
    (run : Steps R s₀ as s) (init : I s₀)
    (step : ∀ {s a t}, I s → R s a t → I t) : I s := by
  induction run with
  | nil => exact init
  | snoc _ h ih => exact step ih h

/-- The invariant rule for a property of the state and of the labels so far. -/
theorem Steps.invariant_hist {I : List α → σ → Prop} {s₀ : σ}
    (run : Steps R s₀ as s) (init : I [] s₀)
    (step : ∀ {as s a t}, I as s → R s a t → I (as ++ [a]) t) : I as s := by
  induction run with
  | nil => exact init
  | snoc _ h ih => exact step ih h

theorem Steps.single {a : α} (h : R s a t) : Steps R s [a] t :=
  .snoc .nil h

theorem Steps.trans {u : σ} {bs : List α}
    (first : Steps R s as t) (second : Steps R t bs u) : Steps R s (as ++ bs) u := by
  induction second with
  | nil => simpa using first
  | snoc _ h ih =>
    rw [← List.append_assoc]
    exact .snoc ih h

/-! ## Partial functions -/

/-- Run a partial step function over a list of labels. -/
def exec (f : σ → α → Option σ) : σ → List α → Option σ
  | s, [] => some s
  | s, a :: as => (f s a).bind fun t => exec f t as

/-- An evaluated run is a run. -/
theorem Steps.of_exec :
    ∀ {as : List α} {s t : σ}, exec f s as = some t →
      Steps (fun s a t => f s a = some t) s as t
  | [], s, t, h => by
    cases h
    exact .nil
  | a :: as, s, t, h => by
    rw [exec, Option.bind_eq_some_iff] at h
    obtain ⟨u, hu, h⟩ := h
    exact (Steps.single hu).trans (Steps.of_exec h)

/-- Run a partial step function with outputs.  The labels are the inputs with their outputs. -/
def execOut {β : Type*} (f : σ → α → Option (σ × β)) : σ → List α → Option (σ × List (α × β))
  | s, [] => some (s, [])
  | s, a :: as =>
    (f s a).bind fun r => (execOut f r.1 as).map fun rest => (rest.1, (a, r.2) :: rest.2)

theorem Steps.of_execOut {β : Type*} {f : σ → α → Option (σ × β)} :
    ∀ {as : List α} {s t : σ} {labels : List (α × β)}, execOut f s as = some (t, labels) →
      Steps (fun s l t => f s l.1 = some (t, l.2)) s labels t
  | [], s, t, _, h => by
    cases h
    exact .nil
  | a :: as, s, t, _, h => by
    rw [execOut, Option.bind_eq_some_iff] at h
    obtain ⟨⟨u, b⟩, hu, h⟩ := h
    obtain ⟨⟨t', labels⟩, rest, e⟩ := Option.map_eq_some_iff.mp h
    cases e
    exact (Steps.single hu).trans (Steps.of_execOut rest)

/-- Only the labels that meet a guard. -/
def guardedBy (f : σ → α → Option σ) (G : σ → α → Prop) [∀ s a, Decidable (G s a)]
    (s : σ) (a : α) : Option σ :=
  if G s a then f s a else none

/-- Another step relation, which has the steps with the labels of the run. -/
theorem Steps.mono_of_mem {S : σ → α → σ → Prop}
    (h : ∀ a ∈ as, ∀ {s t}, R s a t → S s a t) (run : Steps R s as t) : Steps S s as t := by
  induction run with
  | nil => exact .nil
  | snoc _ hr ih => exact .snoc (ih fun a ha => h a (by simp [ha])) (h _ (by simp) hr)

theorem Steps.mono {S : σ → α → σ → Prop}
    (h : ∀ {s a t}, R s a t → S s a t) (run : Steps R s as t) : Steps S s as t :=
  run.mono_of_mem fun _ _ => h

theorem guarded_of_guardedBy {G : σ → α → Prop}
    [∀ s a, Decidable (G s a)] {a : α} (h : guardedBy f G s a = some t) :
    Guarded (fun s a t => f s a = some t) G s a t := by
  rw [guardedBy] at h
  split at h
  · rename_i hg
    exact ⟨hg, h⟩
  · cases h

/-- An evaluated run whose steps meet the guard is a guarded run. -/
theorem Steps.of_exec_guardedBy {G : σ → α → Prop}
    [∀ s a, Decidable (G s a)] (h : exec (guardedBy f G) s as = some t) :
    Steps (Guarded (fun s a t => f s a = some t) G) s as t :=
  Steps.mono guarded_of_guardedBy (Steps.of_exec h)

end Runs
