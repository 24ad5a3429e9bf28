import Mathlib.Data.List.Nodup
import Mathlib.Logic.Function.Basic

/-!
# Circular doubly linked lists

Two maps give the successor and the predecessor of a node.  `Path next prev a l z`
says that from `a` the successors visit the nodes `l`, in this order, and then
`z`, and that each of these nodes points back to the one before it.  A path that
ends where it began is a circle, with its first node as the sentinel.

`Circle.unlink` takes out a node by patching its two neighbours, and `Circle.push`
puts one in behind the sentinel.  A circle can be walked either way
(`Circle.reverse`), and `Circle.scan` says what a search along it finds.
-/

namespace Circular

variable {ν : Type*}

/-! ## Paths -/

/-- From `a` through `l` to `z`, with the links back. -/
def Path (next prev : ν → ν) : ν → List ν → ν → Prop
  | a, [], z => next a = z ∧ prev z = a
  | a, b :: l, z => (next a = b ∧ prev b = a) ∧ Path next prev b l z

variable {next prev next' prev' : ν → ν} {a z q hd : ν} {l l₁ l₂ : List ν}

theorem path_append : ∀ {a : ν} {l₁ : List ν},
    Path next prev a (l₁ ++ q :: l₂) z ↔ Path next prev a l₁ q ∧ Path next prev q l₂ z
  | _, [] => Iff.rfl
  | _, _ :: _ => by
    rw [List.cons_append, Path, Path, path_append]
    exact and_assoc.symm

theorem Path.congr (h : Path next prev a l z) (hn : ∀ x ∈ a :: l, next' x = next x)
    (hp : ∀ x ∈ z :: l, prev' x = prev x) : Path next' prev' a l z := by
  induction l generalizing a with
  | nil => exact ⟨(hn a (by simp)).trans h.1, (hp z (by simp)).trans h.2⟩
  | cons b l ih =>
    refine ⟨⟨(hn a (by simp)).trans h.1.1, (hp b (by simp)).trans h.1.2⟩, ih h.2 ?_ ?_⟩
    · intro x hx
      exact hn x (.tail _ hx)
    · intro x hx
      refine hp x ?_
      rcases List.mem_cons.mp hx with rfl | hx
      · exact .head _
      · exact .tail _ (.tail _ hx)

theorem Path.reverse (h : Path next prev a l z) : Path prev next z l.reverse a := by
  induction l generalizing a with
  | nil => exact ⟨h.2, h.1⟩
  | cons b l ih =>
    rw [List.reverse_cons, path_append]
    exact ⟨ih h.2, h.1.2, h.1.1⟩

theorem Path.next_mem (h : Path next prev a l z) : next a ∈ z :: l := by
  cases l with
  | nil =>
    rw [h.1]
    exact .head _
  | cons b l =>
    rw [h.1.1]
    exact .tail _ (.head _)

theorem Path.prev_mem (h : Path next prev a l z) : prev z ∈ a :: l := by
  have := h.reverse.next_mem
  rwa [List.mem_cons, List.mem_reverse, ← List.mem_cons] at this

/-! ## Circles -/

/-- The nodes `l` behind the sentinel `hd`. -/
structure Circle (next prev : ν → ν) (hd : ν) (l : List ν) : Prop where
  path : Path next prev hd l hd
  nodup : (hd :: l).Nodup

theorem Circle.reverse (h : Circle next prev hd l) : Circle prev next hd l.reverse where
  path := h.path.reverse
  nodup := by
    have nodup := List.nodup_cons.mp h.nodup
    rw [List.nodup_cons, List.mem_reverse, List.nodup_reverse]
    exact nodup

section Update

variable [DecidableEq ν]

open Function (update_of_ne update_self update)

/-- Patching the neighbours of `q` joins the paths on its two sides. -/
theorem Path.unlink (first : Path next prev a l₁ q) (second : Path next prev q l₂ z)
    (nodup : (a :: (l₁ ++ q :: l₂)).Nodup) (out : z ∉ l₁ ++ q :: l₂) :
    Path (update next (prev q) (next q)) (update prev (next q) (prev q)) a (l₁ ++ l₂) z := by
  induction l₁ generalizing a with
  | nil =>
    obtain ⟨_, back⟩ := first
    cases l₂ with
    | nil =>
      obtain ⟨on, _⟩ := second
      exact ⟨by rw [back, on, update_self], by rw [on, back, update_self]⟩
    | cons b l₂ =>
      obtain ⟨⟨on, _⟩, rest⟩ := second
      simp only [List.nil_append, List.nodup_cons, List.mem_cons, not_or] at nodup out
      refine ⟨⟨by rw [back, on, update_self], by rw [on, back, update_self]⟩,
        rest.congr ?_ ?_⟩
      · intro x hx
        rw [update_of_ne]
        rintro rfl
        rw [back] at hx
        rcases List.mem_cons.mp hx with e | hx
        · exact nodup.1.2.1 e
        · exact nodup.1.2.2 hx
      · intro x hx
        rw [update_of_ne]
        rintro rfl
        rw [on] at hx
        rcases List.mem_cons.mp hx with e | hx
        · exact out.2.1 e.symm
        · exact nodup.2.2.1 hx
  | cons c l₁ ih =>
    obtain ⟨⟨on, back⟩, first⟩ := first
    simp only [List.cons_append, List.mem_cons, not_or] at out
    have nodup' := (List.nodup_cons.mp nodup).2
    refine ⟨⟨?_, ?_⟩, ih first nodup' out.2⟩
    · rw [update_of_ne]
      · exact on
      · intro e
        refine (List.nodup_cons.mp nodup).1 ?_
        have mem := first.prev_mem
        rw [← e] at mem
        rw [List.cons_append, ← List.cons_append]
        exact List.mem_append_left _ mem
    · rw [update_of_ne]
      · exact back
      · intro e
        have mem := second.next_mem
        rw [← e] at mem
        rcases List.mem_cons.mp mem with e | mem
        · exact out.1 e.symm
        · exact (List.nodup_cons.mp nodup').1 (by simp [mem])

/-- Taking out one node. -/
theorem Circle.unlink (h : Circle next prev hd (l₁ ++ q :: l₂)) :
    Circle (update next (prev q) (next q)) (update prev (next q) (prev q)) hd (l₁ ++ l₂) where
  path := by
    obtain ⟨first, second⟩ := path_append.mp h.path
    exact first.unlink second h.nodup (List.nodup_cons.mp h.nodup).1
  nodup := h.nodup.sublist
    ((List.Sublist.append_left (List.sublist_cons_self q l₂) l₁).cons_cons hd)

/-- Putting a node in behind the sentinel. -/
theorem Circle.push (h : Circle next prev hd l) (fresh : q ∉ hd :: l) :
    Circle (update (update next q (next hd)) hd q) (update (update prev q hd) (next hd) q)
      hd (q :: l) where
  path := by
    have q_hd : q ≠ hd := fun e => fresh (e ▸ .head _)
    have q_next : q ≠ next hd := fun e => fresh (e ▸ h.path.next_mem)
    refine ⟨⟨update_self .., ?_⟩, ?_⟩
    · rw [update_of_ne q_next, update_self]
    · cases l with
      | nil =>
        obtain ⟨on, _⟩ := h.path
        exact ⟨by rw [update_of_ne q_hd, update_self, on],
          by rw [on, update_self]⟩
      | cons b l =>
        obtain ⟨⟨on, _⟩, rest⟩ := h.path
        have nodup := h.nodup
        simp only [List.nodup_cons, List.mem_cons, not_or] at nodup fresh
        refine ⟨⟨by rw [update_of_ne q_hd, update_self, on],
          by rw [on, update_self]⟩, rest.congr ?_ ?_⟩
        · intro x hx
          rw [update_of_ne, update_of_ne]
          · rintro rfl
            rcases List.mem_cons.mp hx with e | hx
            · exact fresh.2.1 e
            · exact fresh.2.2 hx
          · rintro rfl
            rcases List.mem_cons.mp hx with e | hx
            · exact nodup.1.1 e
            · exact nodup.1.2 hx
        · intro x hx
          rw [on, update_of_ne, update_of_ne]
          · rintro rfl
            rcases List.mem_cons.mp hx with e | hx
            · exact fresh.1 e
            · exact fresh.2.2 hx
          · rintro rfl
            rcases List.mem_cons.mp hx with e | hx
            · exact nodup.1.1 e.symm
            · exact nodup.2.1 hx
  nodup := by
    have nodup := List.nodup_cons.mp h.nodup
    rw [List.mem_cons, not_or] at fresh
    rw [List.nodup_cons, List.mem_cons, List.nodup_cons, not_or]
    exact ⟨⟨Ne.symm fresh.1, nodup.1⟩, fresh.2, nodup.2⟩

/-! ## Searching -/

/-- The loop over the nodes from `a` on, up to the sentinel. -/
def scan (next : ν → ν) (hd : ν) (P : ν → Bool) : Nat → ν → Option ν
  | 0, _ => none
  | n + 1, a => if a = hd then none else if P a then some a else scan next hd P n (next a)

theorem Path.scan {P : ν → Bool} (h : Path next prev a l hd) (out : hd ∉ l) :
    Circular.scan next hd P l.length (next a) = l.find? P := by
  induction l generalizing a with
  | nil => rfl
  | cons b l ih =>
    rw [List.mem_cons, not_or] at out
    rw [List.length_cons, Circular.scan, h.1.1, if_neg (Ne.symm out.1), List.find?_cons,
      ih h.2 out.2]
    cases P b <;> rfl

/-- A search along the circle finds the first node there is. -/
theorem Circle.scan {P : ν → Bool} (h : Circle next prev hd l) :
    Circular.scan next hd P l.length (next hd) = l.find? P :=
  h.path.scan (List.nodup_cons.mp h.nodup).1

end Update

end Circular
