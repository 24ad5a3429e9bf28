import Mathlib.Algebra.Order.Group.Multiset
import Mathlib.Tactic.Abel

/-!
# Balances

A store hands out items and takes them back, and counts the times it could not do what it was asked.
Between two states, with the items that are in hand in each of them, the *balance* is kept if nothing
is gone, and if something is gone when something was missed, and only then.  In between, what was
missed may not have cost anything yet: then the balance is *overdue*, and the first item that is
dropped settles it.
-/

namespace Balance

variable {σ ι : Type}

/-- What is in stock, and what was missed so far. -/
structure Account (σ ι : Type) where
  stock : σ → Multiset ι
  misses : σ → Nat

/-- From `s`, with `held` in hand, to `t`, with `left` in hand: something is lost if and only if
something was missed. -/
structure Kept (c : Account σ ι) (s : σ) (held : Multiset ι) (t : σ) (left : Multiset ι) : Prop where
  later : c.misses s ≤ c.misses t
  count : ∃ lost, c.stock t + left + lost = c.stock s + held ∧
    (lost = 0 ↔ c.misses t = c.misses s)

/-- Something was missed. -/
structure Overdue (c : Account σ ι) (s : σ) (held : Multiset ι) (t : σ) (left : Multiset ι) :
    Prop where
  missed : c.misses s < c.misses t
  count : ∃ lost, c.stock t + left + lost = c.stock s + held

variable {c : Account σ ι} {s t u : σ} {held left next : Multiset ι}

theorem Kept.refl (s : σ) (held : Multiset ι) : Kept c s held s held :=
  ⟨le_rfl, 0, add_zero _, by simp⟩

/-- Items move between the stock and the hand. -/
theorem Kept.move (h : Kept c s held t left) (total : c.stock u + next = c.stock t + left)
    (misses : c.misses u = c.misses t) : Kept c s held u next := by
  obtain ⟨later, lost, count, none⟩ := h
  exact ⟨misses ▸ later, lost, by rw [total, count], by rw [misses, none]⟩

theorem Kept.trans (h : Kept c s held t left) (k : Kept c t left u next) : Kept c s held u next := by
  obtain ⟨later, lost, count, none⟩ := h
  obtain ⟨later', lost', count', none'⟩ := k
  refine ⟨later.trans later', lost' + lost, ?_, ?_⟩
  · rw [← add_assoc, count', count]
  · constructor
    · intro e
      have gone : lost' = 0 ∧ lost = 0 := by
        have le := Multiset.le_add_right lost' lost
        have le' := Multiset.le_add_left lost lost'
        rw [e] at le le'
        exact ⟨Multiset.le_zero.mp le, Multiset.le_zero.mp le'⟩
      exact (none'.mp gone.1).trans (none.mp gone.2)
    · intro e
      rw [none.mpr (by omega), none'.mpr (by omega), add_zero]

/-- Something is missed. -/
theorem Kept.miss (h : Kept c s held t left) (total : c.stock u + next = c.stock t + left)
    (misses : c.misses t < c.misses u) : Overdue c s held u next := by
  obtain ⟨later, lost, count, -⟩ := h
  exact ⟨later.trans_lt misses, lost, by rw [total, count]⟩

/-- Items are dropped. -/
theorem Overdue.drop {items : Multiset ι} (h : Overdue c s held t (items + left))
    (some : items ≠ 0) : Kept c s held t left := by
  obtain ⟨missed, lost, count⟩ := h
  refine ⟨missed.le, items + lost, by rw [← count]; abel, ?_⟩
  have ne : items + lost ≠ 0 := fun e =>
    some (Multiset.le_zero.mp (e ▸ Multiset.le_add_right items lost))
  simp [ne, missed.ne']

/-- What is there was there before. -/
theorem Kept.mem (h : Kept c s held t left) {x : ι} (hx : x ∈ c.stock t + left) :
    x ∈ c.stock s + held := by
  obtain ⟨-, lost, count, -⟩ := h
  rw [← count]
  exact Multiset.mem_add.mpr (.inl hx)

end Balance
