import Mathlib.Data.List.Induction
import Mathlib.Logic.Function.Basic

/-!
# Walks in a tree of nodes

A tree is given by the child of a node at a label, if there is one.  A place in
it is the list of labels on the way from the root.  Which lists are places is a
set that is closed under leaving the last label away; a node at a place without
places below may hold anything.

When a place that has no node gets one, and nothing else on the way to a place
changes, then `walk` changes at that place only.
-/

namespace Trie

variable {ν ι : Type*} {child child' : ν → ι → Option ν} {r x y : ν} {p : List ι} {j : ι}

/-- The node at a place. -/
def walk (child : ν → ι → Option ν) (r : ν) (p : List ι) : Option ν := p.foldlM child r

/-- A place stays one when its last label is left away. -/
def Closed (V : List ι → Prop) : Prop := ∀ p j, V (p ++ [j]) → V p

theorem walk_snoc (p : List ι) (j : ι) :
    walk child r (p ++ [j]) = (walk child r p).bind fun x => child x j := by
  rw [walk, List.foldlM_append]
  simp [walk]

variable {V : List ι → Prop}

/-- Only the nodes above a place matter. -/
theorem walk_congr (closed : Closed V)
    (same : ∀ q k z, V (q ++ [k]) → walk child r q = some z → child' z k = child z k)
    (q : List ι) (hq : V q) : walk child' r q = walk child r q := by
  induction q using List.reverseRecOn with
  | nil => rfl
  | append_singleton q k ih =>
    rw [walk_snoc, walk_snoc, ih (closed q k hq)]
    cases hz : walk child r q with
    | none => rfl
    | some z => exact same q k z hq hz

/-- A missing place gets a node without children. -/
theorem walk_grow [DecidableEq ι] (closed : Closed V) (parent : walk child r p = some x)
    (missing : child x j = none) (new : child' x j = some y)
    (empty : ∀ k, V (p ++ [j] ++ [k]) → child' y k = none)
    (same : ∀ q k z, V (q ++ [k]) → walk child r q = some z → (q, k) ≠ (p, j) →
      child' z k = child z k)
    (q : List ι) (hq : V q) :
    walk child' r q = Function.update (walk child r) (p ++ [j]) (some y) q := by
  have absent : walk child r (p ++ [j]) = none := by
    rw [walk_snoc, parent]
    exact missing
  induction q using List.reverseRecOn with
  | nil => exact (Function.update_of_ne (List.append_ne_nil_of_right_ne_nil _ (by simp)).symm ..).symm
  | append_singleton q k ih =>
    have ih := ih (closed q k hq)
    rw [walk_snoc, ih]
    by_cases here : q = p ++ [j]
    · rw [here, Function.update_self, Function.update_of_ne (by simp), walk_snoc, absent]
      exact empty k (here ▸ hq)
    · rw [Function.update_of_ne here]
      by_cases last : (q, k) = (p, j)
      · cases last
        rw [Function.update_self, parent]
        exact new
      · have other : q ++ [k] ≠ p ++ [j] := by
          intro e
          obtain ⟨e₁, e₂⟩ := List.append_inj' e rfl
          cases e₂
          exact last (by rw [e₁])
        rw [Function.update_of_ne other, walk_snoc]
        cases hz : walk child r q with
        | none => rfl
        | some z => exact same q k z hq hz last

end Trie
