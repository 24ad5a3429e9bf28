import Mathlib.Data.List.Nodup
import Mathlib.Logic.Function.Basic

/-!
# Doubly linked lists through two link maps

Nodes are elements of an arbitrary type.  Two maps give the successor and the
predecessor of a node, and `none` is the null link.  `DList next prev hd l`
says that from the head `hd` the successors visit exactly the nodes `l`, in
this order and without repetition, before they reach null, and that every node
of `l` points back to the one before it.  The head is not part of the list, so
it can be a sentinel.

Two updates of the links keep the shape.  `DList.unlink` takes out one node,
wherever it stands, by patching the successor of the node before it and the
predecessor of the node after it.  `DList.push` puts a fresh node behind the
last one.  Neither says anything of the links of a node off the list, so such a
node may keep stale links.

`Chain.split` and `Back.split` are what a loop along the links needs.
-/

namespace Linked

variable {ν : Type*}

/-! ## Shape -/

/-- Following `next` from `a` visits exactly `l` and then reaches null. -/
def Chain (next : ν → Option ν) : ν → List ν → Prop
  | a, [] => next a = none
  | a, b :: l => next a = some b ∧ Chain next b l

/-- Every node of `l` points back to the node before it, the first one to `a`. -/
def Back (prev : ν → Option ν) : ν → List ν → Prop
  | _, [] => True
  | a, b :: l => prev b = some a ∧ Back prev b l

/-- A doubly linked list `l` behind the head `hd`. -/
structure DList (next prev : ν → Option ν) (hd : ν) (l : List ν) : Prop where
  /-- The successors. -/
  chain : Chain next hd l
  /-- The predecessors. -/
  back : Back prev hd l
  /-- No node is visited twice, the head included. -/
  nodup : (hd :: l).Nodup

variable {next prev : ν → Option ν} {a hd q : ν} {l l₁ l₂ : List ν}

theorem Chain.congr {next' : ν → Option ν} (h : Chain next a l)
    (agree : ∀ x ∈ a :: l, next' x = next x) : Chain next' a l := by
  induction l generalizing a with
  | nil => exact (agree a (by simp)).trans h
  | cons b l ih =>
    refine ⟨(agree a (by simp)).trans h.1, ih h.2 ?_⟩
    intro x hx
    exact agree x (List.mem_cons_of_mem _ hx)

theorem Back.congr {prev' : ν → Option ν} (h : Back prev a l)
    (agree : ∀ x ∈ l, prev' x = prev x) : Back prev' a l := by
  induction l generalizing a with
  | nil => trivial
  | cons b l ih =>
    refine ⟨(agree b (by simp)).trans h.1, ih h.2 ?_⟩
    intro x hx
    exact agree x (List.mem_cons_of_mem _ hx)

/-- A chain determines its nodes. -/
theorem Chain.unique : ∀ {a : ν} {l l' : List ν},
    Chain next a l → Chain next a l' → l = l'
  | _, [], [], _, _ => rfl
  | _, [], _ :: _, h, h' => by
    have := h.symm.trans h'.1
    cases this
  | _, _ :: _, [], h, h' => by
    have := h'.symm.trans h.1
    cases this
  | _, b :: l, b' :: l', h, h' => by
    have hb : b = b' := Option.some.inj (h.1.symm.trans h'.1)
    subst hb
    rw [Chain.unique h.2 h'.2]

/-- A chain cut in front of one of its nodes. -/
theorem Chain.split : ∀ {a : ν} (l₁ : List ν), Chain next a (l₁ ++ q :: l₂) →
    next (l₁.getLastD a) = some q ∧ Chain next q l₂
  | _, [], h => h
  | _, _ :: l₁, h => by
    simp only [List.getLastD_cons]
    exact Chain.split l₁ h.2

theorem Back.split : ∀ {a : ν} (l₁ : List ν), Back prev a (l₁ ++ q :: l₂) →
    prev q = some (l₁.getLastD a) ∧ Back prev q l₂
  | _, [], h => h
  | _, _ :: l₁, h => by
    simp only [List.getLastD_cons]
    exact Back.split l₁ h.2

theorem Back.left : ∀ {a : ν} (l₁ : List ν), Back prev a (l₁ ++ l₂) → Back prev a l₁
  | _, [], _ => trivial
  | _, _ :: l₁, h => ⟨h.1, Back.left l₁ h.2⟩

theorem getLastD_append_cons (b : ν) (l₂ : List ν) : ∀ (a : ν) (l₁ : List ν),
    (l₁ ++ b :: l₂).getLastD a = l₂.getLastD b
  | _, [] => by rw [List.nil_append, List.getLastD_cons]
  | _, c :: l₁ => by
    rw [List.cons_append, List.getLastD_cons]
    exact getLastD_append_cons b l₂ c l₁

/-! ## Taking out a node -/

section Update

variable [DecidableEq ν]

open Function (update_of_ne update_self update)

/-- Redirecting the node before `q` past `q`. -/
theorem Chain.unlink (h : Chain next hd (l₁ ++ q :: l₂))
    (nodup : (hd :: (l₁ ++ q :: l₂)).Nodup) :
    Chain (update next (l₁.getLastD hd) (next q)) hd (l₁ ++ l₂) := by
  induction l₁ generalizing hd with
  | nil =>
    simp only [List.nil_append, List.getLastD_nil] at h nodup ⊢
    have hq := h.2
    cases l₂ with
    | nil =>
      rw [Chain, update_self]
      exact hq
    | cons b l₂ =>
      refine ⟨by rw [update_self]; exact hq.1, hq.2.congr ?_⟩
      intro x hx
      refine update_of_ne ?_ _ _
      rintro rfl
      exact (List.nodup_cons.1 nodup).1 (.tail _ hx)
  | cons c l₁ ih =>
    simp only [List.cons_append, List.getLastD_cons] at h nodup ⊢
    have hne : hd ≠ l₁.getLastD c := by
      intro he
      have hmem : l₁.getLastD c ∈ c :: l₁ := List.getLastD_mem_cons
      rw [← he] at hmem
      refine (List.nodup_cons.1 nodup).1 ?_
      rcases List.mem_cons.1 hmem with rfl | hmem
      · exact .head _
      · exact .tail _ (List.mem_append_left _ hmem)
    refine ⟨by rw [update_of_ne hne]; exact h.1, ih h.2 ?_⟩
    exact (List.nodup_cons.1 nodup).2

/-- The predecessor links after `q` is taken out: only the node behind `q`
changes. -/
def unlinkPrev (prev : ν → Option ν) (before : ν) : List ν → ν → Option ν
  | [] => prev
  | b :: _ => update prev b (some before)

theorem Back.unlink (h : Back prev hd (l₁ ++ q :: l₂))
    (nodup : (hd :: (l₁ ++ q :: l₂)).Nodup) :
    Back (unlinkPrev prev (l₁.getLastD hd) l₂) hd (l₁ ++ l₂) := by
  induction l₁ generalizing hd with
  | nil =>
    simp only [List.nil_append, List.getLastD_nil] at h nodup ⊢
    cases l₂ with
    | nil => trivial
    | cons b l₂ =>
      refine ⟨update_self _ _ _, h.2.2.congr ?_⟩
      intro x hx
      refine update_of_ne ?_ _ _
      rintro rfl
      simp only [List.nodup_cons] at nodup
      exact nodup.2.2.1 hx
  | cons c l₁ ih =>
    simp only [List.cons_append, List.getLastD_cons] at h nodup ⊢
    refine ⟨?_, ih h.2 (List.nodup_cons.1 nodup).2⟩
    cases l₂ with
    | nil => exact h.1
    | cons b l₂ =>
      rw [unlinkPrev, update_of_ne]
      · exact h.1
      · rintro rfl
        simp at nodup

omit [DecidableEq ν] in
theorem nodup_unlink (nodup : (hd :: (l₁ ++ q :: l₂)).Nodup) :
    (hd :: (l₁ ++ l₂)).Nodup := by
  refine List.Nodup.sublist ?_ nodup
  exact (List.Sublist.append_left (List.sublist_cons_self q l₂) l₁).cons_cons hd

/-- Taking out one node keeps the shape. -/
theorem DList.unlink (h : DList next prev hd (l₁ ++ q :: l₂)) :
    DList (update next (l₁.getLastD hd) (next q))
      (unlinkPrev prev (l₁.getLastD hd) l₂) hd (l₁ ++ l₂) where
  chain := h.chain.unlink h.nodup
  back := h.back.unlink h.nodup
  nodup := nodup_unlink h.nodup

/-! ## Adding a node at the end -/

theorem Chain.push (h : Chain next hd l) (nodup : (hd :: (l ++ [q])).Nodup) :
    Chain (update (update next (l.getLastD hd) (some q)) q none) hd (l ++ [q]) := by
  induction l generalizing hd with
  | nil =>
    simp only [List.nil_append, List.getLastD_nil] at nodup ⊢
    have hne : hd ≠ q := by
      rintro rfl
      simp at nodup
    exact ⟨by rw [update_of_ne hne, update_self],
      update_self _ _ _⟩
  | cons c l ih =>
    simp only [List.cons_append, List.getLastD_cons] at nodup ⊢
    have hout := (List.nodup_cons.1 nodup).1
    have hq : hd ≠ q := by
      rintro rfl
      exact hout (by simp)
    have hlast : hd ≠ l.getLastD c := by
      intro he
      have hmem : l.getLastD c ∈ c :: l := List.getLastD_mem_cons
      rw [← he] at hmem
      refine hout ?_
      rcases List.mem_cons.1 hmem with rfl | hmem
      · exact .head _
      · exact .tail _ (List.mem_append_left _ hmem)
    refine ⟨?_, ih h.2 (List.nodup_cons.1 nodup).2⟩
    rw [update_of_ne hq, update_of_ne hlast]
    exact h.1

theorem Back.push (h : Back prev hd l) (fresh : q ∉ l) :
    Back (update prev q (some (l.getLastD hd))) hd (l ++ [q]) := by
  induction l generalizing hd with
  | nil => exact ⟨update_self _ _ _, trivial⟩
  | cons c l ih =>
    simp only [List.cons_append, List.getLastD_cons]
    refine ⟨?_, ih h.2 (fun hm => fresh (.tail _ hm))⟩
    rw [update_of_ne]
    · exact h.1
    · rintro rfl
      exact fresh (.head _)

/-- Adding a fresh node behind the last one keeps the shape. -/
theorem DList.push (h : DList next prev hd l) (fresh : q ∉ hd :: l) :
    DList (update (update next (l.getLastD hd) (some q)) q none)
      (update prev q (some (l.getLastD hd))) hd (l ++ [q]) := by
  have nodup : (hd :: (l ++ [q])).Nodup := by
    rw [← List.cons_append]
    refine h.nodup.append (List.nodup_singleton q) ?_
    intro x hx hq
    rw [List.mem_singleton] at hq
    exact fresh (hq ▸ hx)
  exact ⟨h.chain.push nodup, h.back.push (fun hm => fresh (.tail _ hm)), nodup⟩

end Update

end Linked
