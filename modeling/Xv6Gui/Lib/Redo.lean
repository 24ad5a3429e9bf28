import Mathlib.Data.Set.Basic
import Mathlib.Logic.Function.Basic

/-!
# Redo logs

A disk is a function from addresses to contents, changed by single writes that
are atomic and happen in order.  A crash leaves the disk after some of the
writes of a program.

A redo log keeps a list of pending writes in an area of the disk.  `Layout`
says how the area is read and how it is cleared.  The view of a disk is its
contents with the pending writes done.  Recovery does the pending writes and
clears the log; it keeps the view, at every crash point and over any number of
restarts, and at its end the log is empty.
-/

namespace Redo

variable {α β : Type*} [DecidableEq α]

/-! ## Writes -/

/-- The disk after a list of writes, the first one first. -/
def apply (d : α → β) (ws : List (α × β)) : α → β :=
  ws.foldl (fun d w => Function.update d w.1 w.2) d

variable {d d' : α → β} {ws : List (α × β)} {a : α}

@[simp] theorem apply_nil : apply d [] = d := rfl

@[simp] theorem apply_cons (w : α × β) : apply d (w :: ws) = apply (Function.update d w.1 w.2) ws :=
  rfl

theorem apply_append (vs : List (α × β)) : apply d (vs ++ ws) = apply (apply d vs) ws := by
  rw [apply, List.foldl_append]
  rfl

/-- An address that is not written keeps its contents. -/
theorem apply_other (h : ∀ w ∈ ws, a ≠ w.1) : apply d ws a = d a := by
  induction ws generalizing d with
  | nil => rfl
  | cons w ws ih =>
    obtain ⟨hw, hws⟩ := List.forall_mem_cons.mp h
    rw [apply_cons, ih hws, Function.update_of_ne hw]

/-- Two disks agree after the same writes, where they agreed or are written. -/
theorem apply_congr (h : d' a = d a ∨ ∃ w ∈ ws, a = w.1) : apply d' ws a = apply d ws a := by
  induction ws generalizing d d' with
  | nil => simpa using h
  | cons w ws ih =>
    rw [apply_cons, apply_cons]
    refine ih ?_
    by_cases hw : a = w.1
    · left
      rw [hw, Function.update_self, Function.update_self]
    · rw [Function.update_of_ne hw, Function.update_of_ne hw]
      simpa [hw] using h

/-- An address holds what is written there when all the writes to it agree. -/
theorem apply_of_mem {f : α → β} (h : ∀ w ∈ ws, w.2 = f w.1) (ha : ∃ w ∈ ws, a = w.1) :
    apply d ws a = f a := by
  induction ws generalizing d with
  | nil =>
    obtain ⟨w, hw, _⟩ := ha
    cases hw
  | cons w ws ih =>
    obtain ⟨hw, hws⟩ := List.forall_mem_cons.mp h
    rw [apply_cons]
    by_cases later : ∃ w ∈ ws, a = w.1
    · exact ih hws later
    · have first : a = w.1 := by
        obtain ⟨v, hv, e⟩ := ha
        obtain rfl | hv := List.mem_cons.mp hv
        · exact e
        · exact absurd ⟨v, hv, e⟩ later
      rw [apply_other fun v hv e => later ⟨v, hv, e⟩, first, Function.update_self, hw]

/-- Doing some of the writes before all of them makes no difference. -/
theorem apply_absorb {vs : List (α × β)} (h : ∀ v ∈ vs, ∃ w ∈ ws, v.1 = w.1) :
    apply (apply d vs) ws = apply d ws := by
  funext a
  refine apply_congr ?_
  by_cases hv : ∃ v ∈ vs, a = v.1
  · obtain ⟨v, hv, rfl⟩ := hv
    exact .inr (h v hv)
  · left
    refine apply_other ?_
    intro v hm e
    exact hv ⟨v, hm, e⟩

/-! ## Crashes -/

/-- Run a program of writes that is computed from the disk, crash after the
given number of writes and start again, once for each number, and then run it to
its end. -/
def restart (program : (α → β) → Option (List (α × β))) : (α → β) → List Nat → Option (α → β)
  | d, [] => (program d).map (apply d)
  | d, k :: ks => (program d).bind fun ws => restart program (apply d (ws.take k)) ks

/-- What the program keeps at every crash point holds where its last run
starts. -/
theorem restart_invariant {program : (α → β) → Option (List (α × β))} {I : (α → β) → Prop}
    {Q : (α → β) → Prop}
    (step : ∀ d, I d → ∃ ws, program d = some ws ∧ (∀ k, I (apply d (ws.take k))) ∧ Q (apply d ws))
    {ks : List Nat} (h : I d) : ∃ t, restart program d ks = some t ∧ Q t := by
  induction ks generalizing d with
  | nil =>
    obtain ⟨ws, hws, _, final⟩ := step d h
    exact ⟨apply d ws, by rw [restart, hws, Option.map_some], final⟩
  | cons k ks ih =>
    obtain ⟨ws, hws, crash, _⟩ := step d h
    rw [restart, hws, Option.bind_some]
    exact ih (crash k)

/-! ## Layouts -/

/-- How a redo log lies on a disk. -/
structure Layout (α β : Type*) [DecidableEq α] where
  /-- The addresses of the log. -/
  area : Set α
  /-- The pending writes, `none` where the area cannot be read. -/
  pending : (α → β) → Option (List (α × β))
  /-- The log is empty. -/
  empty : (α → β) → Prop
  /-- The write that empties the log. -/
  clear : (α → β) → α × β
  pending_congr : ∀ {d d'}, (∀ a ∈ area, d' a = d a) → pending d' = pending d
  clear_mem : ∀ d, (clear d).1 ∈ area
  empty_clear : ∀ d, empty (Function.update d (clear d).1 (clear d).2)
  pending_of_empty : ∀ {d}, empty d → pending d = some []

namespace Layout

variable (L : Layout α β)

/-- Recovery: do the pending writes and clear the log. -/
def recover (d : α → β) (ws : List (α × β)) : List (α × β) := ws ++ [L.clear (apply d ws)]

/-- The disk `d` stands for `view`: the pending writes `ws` stay outside the log,
and done they give the view there. -/
structure Views (d view : α → β) (ws : List (α × β)) : Prop where
  pending : L.pending d = some ws
  outside : ∀ w ∈ ws, w.1 ∉ L.area
  view : ∀ a ∉ L.area, apply d ws a = view a

variable {L} {view : α → β}

/-- A write outside the log to an address that is pending keeps the view. -/
theorem Views.install (h : L.Views d view ws) {vs : List (α × β)}
    (hv : ∀ v ∈ vs, ∃ w ∈ ws, v.1 = w.1) : L.Views (apply d vs) view ws where
  pending := by
    rw [← h.pending]
    refine L.pending_congr ?_
    intro a ha
    refine apply_other ?_
    rintro v hm rfl
    obtain ⟨w, hw, e⟩ := hv v hm
    exact h.outside w hw (e ▸ ha)
  outside := h.outside
  view a ha := by rw [apply_absorb hv, h.view a ha]

/-- Clearing the log keeps the view once every pending write is done. -/
theorem Views.of_clear (done : ∀ a ∉ L.area, d a = view a) :
    L.Views (apply d [L.clear d]) view [] where
  pending := L.pending_of_empty (L.empty_clear d)
  outside := by simp
  view a ha := by
    have ne : a ≠ (L.clear d).1 := by
      rintro rfl
      exact ha (L.clear_mem d)
    rw [apply_nil, apply_cons, apply_nil, Function.update_of_ne ne]
    exact done a ha

/-- Filling an empty log keeps the view as long as nothing is pending. -/
theorem Views.fill (h : L.Views d view []) {vs : List (α × β)} (hv : ∀ v ∈ vs, v.1 ∈ L.area)
    (hp : L.pending (apply d vs) = some []) : L.Views (apply d vs) view [] where
  pending := hp
  outside := by simp
  view a ha := by
    rw [apply_nil, apply_other]
    · exact h.view a ha
    · rintro v hm rfl
      exact ha (hv v hm)

/-- At the end of recovery the view is on the disk and the log is empty. -/
theorem Views.recover (h : L.Views d view ws) :
    L.Views (apply d (L.recover d ws)) view [] ∧ L.empty (apply d (L.recover d ws)) := by
  rw [Layout.recover, apply_append]
  exact ⟨.of_clear h.view, L.empty_clear _⟩

/-- At every crash point of recovery the view is the same. -/
theorem Views.recover_take (h : L.Views d view ws) (k : Nat) :
    ∃ vs, L.Views (apply d ((L.recover d ws).take k)) view vs := by
  obtain hk | hk := Nat.lt_or_ge ws.length k
  · rw [List.take_of_length_le]
    · exact ⟨[], h.recover.1⟩
    · rw [Layout.recover, List.length_append, List.length_singleton]
      exact hk
  · rw [Layout.recover, List.take_append_of_le_length hk]
    exact ⟨ws, h.install fun v hv => ⟨v, List.mem_of_mem_take hv, rfl⟩⟩

/-- A program that recovers ends with the view on the disk and an empty log,
however often it crashes. -/
theorem Views.restart {program : (α → β) → Option (List (α × β))}
    (hp : ∀ {d ws}, L.pending d = some ws → (∀ w ∈ ws, w.1 ∉ L.area) →
      program d = some (L.recover d ws))
    (h : L.Views d view ws) (ks : List Nat) :
    ∃ t, Redo.restart program d ks = some t ∧ L.Views t view [] ∧ L.empty t := by
  refine restart_invariant (I := fun d => ∃ ws, L.Views d view ws) ?_ ⟨ws, h⟩
  rintro d ⟨ws, h⟩
  exact ⟨L.recover d ws, hp h.pending h.outside, h.recover_take, h.recover⟩

end Layout

end Redo
