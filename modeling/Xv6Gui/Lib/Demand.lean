import Mathlib.Data.Finset.Card
import Mathlib.Data.Set.Basic
import Mathlib.Logic.Function.Basic
import Xv6Gui.Lib.Runs

/-!
# Places filled on demand

There are places that may hold a value, and a list of values that are still
free.  A place that is demanded and holds nothing gets the first free value.

After a run of demands the places demanded hold a value, those that held one
before hold the same, and as many free values are gone, from the front, as
different places were missing.  If no value stood in two places and none of the
free ones in any, this stays so.
-/

namespace Demand

open Runs

variable {π β : Type*}

/-- The values of the places, and the free values in the order they are taken. -/
structure State (π β : Type*) where
  val : π → Option β
  supply : List β

/-- No value stands twice, in places or among the free ones. -/
structure Sound (s : State π β) : Prop where
  inj : ∀ p q b, s.val p = some b → s.val q = some b → p = q
  fresh : ∀ p b, s.val p = some b → b ∉ s.supply
  nodup : s.supply.Nodup

variable [DecidableEq π] {s t : State π β} {p : π} {ps : List π}

/-- A missing place gets the first free value. -/
def Fill (s : State π β) (p : π) (t : State π β) : Prop :=
  s.val p = none ∧ ∃ b, s.supply = b :: t.supply ∧ t.val = Function.update s.val p (some b)

/-- A place is demanded. -/
def Step (s : State π β) (p : π) (t : State π β) : Prop :=
  (s.val p ≠ none ∧ t = s) ∨ Fill s p t

/-- The places among those demanded that hold nothing. -/
def missing (s : State π β) (ps : List π) : Finset π := ps.toFinset.filter fun p => s.val p = none

theorem mem_missing : p ∈ missing s ps ↔ p ∈ ps ∧ s.val p = none := by
  rw [missing, Finset.mem_filter, List.mem_toFinset]

theorem Fill.sound (h : Fill s p t) (hs : Sound s) : Sound t := by
  obtain ⟨absent, b, supply, val⟩ := h
  have nodup : b ∉ t.supply ∧ t.supply.Nodup := by
    have := hs.nodup
    rw [supply] at this
    exact List.nodup_cons.mp this
  have new : ∀ q, s.val q ≠ some b := fun q hq => hs.fresh q b hq (supply ▸ List.mem_cons_self)
  have old : ∀ q ≠ p, t.val q = s.val q := fun q hq => by rw [val, Function.update_of_ne hq]
  have here : t.val p = some b := by rw [val, Function.update_self]
  refine ⟨?_, ?_, nodup.2⟩
  · intro q q' c hq hq'
    by_cases e : q = p
    · by_cases e' : q' = p
      · rw [e, e']
      · rw [e, here] at hq
        rw [old q' e', ← hq] at hq'
        exact absurd hq' (new q')
    · by_cases e' : q' = p
      · rw [e', here] at hq'
        rw [old q e, ← hq'] at hq
        exact absurd hq (new q)
      · exact hs.inj q q' c (old q e ▸ hq) (old q' e' ▸ hq')
  · intro q c hq mem
    by_cases e : q = p
    · rw [e, here] at hq
      cases hq
      exact nodup.1 mem
    · exact hs.fresh q c (old q e ▸ hq) (supply ▸ List.mem_cons_of_mem _ mem)

theorem Fill.val_none_iff (h : Fill s p t) (q : π) :
    t.val q = none ↔ s.val q = none ∧ q ≠ p := by
  obtain ⟨_, b, _, val⟩ := h
  by_cases e : q = p
  · simp [val, e]
  · simp [val, e]

theorem Step.val_none_iff (h : Step s p t) (q : π) :
    t.val q = none ↔ s.val q = none ∧ q ≠ p := by
  obtain ⟨present, rfl⟩ | fill := h
  · constructor
    · intro hq
      exact ⟨hq, fun e => present (e ▸ hq)⟩
    · exact And.left
  · exact fill.val_none_iff q

/-! ## Runs of demands -/

/-- A place is missing afterwards if it was and has not been demanded. -/
theorem val_none_iff (h : Steps Step s ps t) (q : π) :
    t.val q = none ↔ s.val q = none ∧ q ∉ ps := by
  induction h with
  | nil => simp
  | snoc _ step ih => rw [step.val_none_iff, ih, List.mem_append, List.mem_singleton, not_or,
      and_assoc]

/-- A run of demands for places that hold something does nothing. -/
theorem eq_of_present (h : Steps Step s ps t) (present : ∀ p ∈ ps, s.val p ≠ none) : t = s := by
  induction h with
  | nil => rfl
  | snoc _ step ih =>
    have same := ih fun p hp => present p (List.mem_append_left _ hp)
    obtain ⟨_, rfl⟩ | ⟨absent, _⟩ := step
    · exact same
    · rw [same] at absent
      exact absurd absent (present _ (List.mem_append_right _ List.mem_cons_self))

theorem missing_snoc (h : Steps Step s ps t) (p : π) :
    missing s (ps ++ [p]) = missing s ps ∪ missing t [p] := by
  ext q
  simp only [mem_missing, Finset.mem_union, List.mem_append, List.mem_singleton, val_none_iff h]
  tauto

theorem missing_disjoint (h : Steps Step s ps t) (qs : List π) :
    Disjoint (missing s ps) (missing t qs) := by
  refine Finset.disjoint_left.mpr ?_
  intro q hq hq'
  exact ((val_none_iff h q).mp (mem_missing.mp hq').2).2 (mem_missing.mp hq).1

theorem missing_of_some (h : t.val p ≠ none) : missing t [p] = ∅ := by
  ext q
  simp only [mem_missing, List.mem_singleton, Finset.notMem_empty, iff_false]
  rintro ⟨rfl, absent⟩
  exact h absent

theorem missing_of_none (h : t.val p = none) : missing t [p] = {p} := by
  ext q
  simp only [mem_missing, List.mem_singleton, Finset.mem_singleton]
  constructor
  · exact And.left
  · rintro rfl
    exact ⟨rfl, h⟩

/-- The free values that the demands take. -/
def taken (s : State π β) (ps : List π) : List β := s.supply.take (missing s ps).card

theorem taken_snoc_of_some (h : Steps Step s ps t) (present : t.val p ≠ none) :
    taken s (ps ++ [p]) = taken s ps := by
  rw [taken, missing_snoc h, missing_of_some present, Finset.union_empty, taken]

theorem taken_snoc_of_none {b : β} {rest : List β} (h : Steps Step s ps t)
    (supply : s.supply = taken s ps ++ t.supply) (length : (taken s ps).length = (missing s ps).card)
    (absent : t.val p = none) (next : t.supply = b :: rest) :
    taken s (ps ++ [p]) = taken s ps ++ [b] := by
  have card : (missing s (ps ++ [p])).card = (taken s ps ++ [b]).length := by
    rw [missing_snoc h, Finset.card_union_of_disjoint (missing_disjoint h _),
      missing_of_none absent, Finset.card_singleton, List.length_append, length,
      List.length_singleton]
  have split : s.supply = (taken s ps ++ [b]) ++ rest := by
    rw [List.append_assoc, List.singleton_append, ← next]
    exact supply
  rw [taken, card]
  conv_lhs => rw [split]
  exact List.take_left

/-- The free values are taken from the front, one for each missing place. -/
theorem supply_eq (h : Steps Step s ps t) :
    s.supply = taken s ps ++ t.supply ∧ (taken s ps).length = (missing s ps).card := by
  induction h with
  | nil => simp [taken, missing]
  | @snoc ps t u p run step ih =>
    obtain ⟨supply, length⟩ := ih
    obtain ⟨present, rfl⟩ | ⟨absent, b, next, _⟩ := step
    · rw [taken_snoc_of_some run present, missing_snoc run, missing_of_some present,
        Finset.union_empty]
      exact ⟨supply, length⟩
    · rw [taken_snoc_of_none run supply length absent next, missing_snoc run,
        Finset.card_union_of_disjoint (missing_disjoint run _), missing_of_none absent,
        Finset.card_singleton, List.length_append, length, List.length_singleton]
      refine ⟨?_, rfl⟩
      rw [List.append_assoc, List.singleton_append, ← next]
      exact supply

/-- The values that are free or stand in a place. -/
def pool (s : State π β) : Set β := {b | b ∈ s.supply ∨ ∃ p, s.val p = some b}

omit [DecidableEq π] in
theorem mem_pool {b : β} : b ∈ pool s ↔ b ∈ s.supply ∨ ∃ p, s.val p = some b := Iff.rfl

theorem Fill.pool_eq (h : Fill s p t) : pool t = pool s := by
  obtain ⟨absent, b, supply, val⟩ := h
  have here : t.val p = some b := by rw [val, Function.update_self]
  have old : ∀ q ≠ p, t.val q = s.val q := fun q hq => by rw [val, Function.update_of_ne hq]
  ext c
  rw [mem_pool, mem_pool, supply, List.mem_cons]
  constructor
  · rintro (free | ⟨q, hq⟩)
    · exact .inl (.inr free)
    · by_cases e : q = p
      · rw [e, here] at hq
        exact .inl (.inl (Option.some.inj hq).symm)
      · exact .inr ⟨q, old q e ▸ hq⟩
  · rintro ((rfl | free) | ⟨q, hq⟩)
    · exact .inr ⟨p, here⟩
    · exact .inl free
    · have e : q ≠ p := by
        rintro rfl
        rw [absent] at hq
        cases hq
      exact .inr ⟨q, (old q e).trans hq⟩

/-- No value is lost, and none is made. -/
theorem pool_eq (h : Steps Step s ps t) : pool t = pool s := by
  induction h with
  | nil => rfl
  | snoc _ step ih =>
    obtain ⟨_, rfl⟩ | fill := step
    · exact ih
    · exact fill.pool_eq.trans ih

end Demand
