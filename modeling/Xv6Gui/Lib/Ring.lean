import Mathlib.Data.Nat.ModEq
import Mathlib.Logic.Function.Basic

/-!
# Ring buffers with free-running counters

A ring of `N` cells with two counters that are never reset: `head` counts what was taken
out and `tail` what was put in.  Both run modulo `M`, a multiple of `N` that is larger than
`N`, as machine words do.  The ring is full if the counters differ by `N`, and empty if they
agree.

`Holds r done q` says that `done` elements were taken out so far and the elements of the
queue `q` are in the ring.
-/

namespace Ring

variable {α : Type*}

/-- The cells and the counters. -/
structure Buffer (α : Type*) where
  data : Nat → α
  head : Nat
  tail : Nat

/-- Store a value at the tail. -/
def push (N M : Nat) (r : Buffer α) (a : α) : Buffer α :=
  { r with data := Function.update r.data (r.tail % N) a, tail := (r.tail + 1) % M }

/-- The next element to be taken out. -/
def front (N : Nat) (r : Buffer α) : α := r.data (r.head % N)

/-- Drop the value at the head. -/
def pop (M : Nat) (r : Buffer α) : Buffer α := { r with head := (r.head + 1) % M }

/-- After `done` elements were taken out, the ring holds `q`. -/
structure Holds (N M : Nat) (r : Buffer α) (done : Nat) (q : List α) : Prop where
  head : r.head = done % M
  tail : r.tail = (done + q.length) % M
  fits : q.length ≤ N
  cell : ∀ k a, q[k]? = some a → r.data ((done + k) % N) = a

variable {N M done : Nat} {r : Buffer α} {q : List α} {a : α}

theorem holds_nil (data : Nat → α) : Holds N M ⟨data, 0, 0⟩ 0 [] :=
  ⟨by simp, by simp, by simp, by simp⟩

theorem Holds.full_iff (h : Holds N M r done q) (lt : N < M) :
    r.tail = (r.head + N) % M ↔ q.length = N := by
  rw [h.head, h.tail, Nat.mod_add_mod]
  constructor
  · intro same
    have cancel : q.length ≡ N [MOD M] := Nat.ModEq.add_left_cancel' done same
    exact cancel.eq_of_lt_of_lt (h.fits.trans_lt lt) lt
  · intro full
    rw [full]

theorem Holds.empty_iff (h : Holds N M r done q) (lt : N < M) : r.head = r.tail ↔ q = [] := by
  rw [h.head, h.tail]
  constructor
  · intro same
    have cancel : 0 ≡ q.length [MOD M] := Nat.ModEq.add_left_cancel' done same
    have zero := cancel.eq_of_lt_of_lt (by omega) (h.fits.trans_lt lt)
    exact List.length_eq_zero_iff.mp zero.symm
  · intro empty
    simp [empty]

/-- Cells with different offsets from the head differ. -/
theorem cell_ne {i j : Nat} (lt : i < j) (hj : j < N) : (done + i) % N ≠ (done + j) % N := by
  intro same
  have cancel : i ≡ j [MOD N] := Nat.ModEq.add_left_cancel' done same
  have := cancel.eq_of_lt_of_lt (by omega) hj
  omega

theorem Holds.push (h : Holds N M r done q) (dvd : N ∣ M) (room : q.length < N) :
    Holds N M (push N M r a) done (q ++ [a]) := by
  have slot : r.tail % N = (done + q.length) % N := by
    rw [h.tail, Nat.mod_mod_of_dvd _ dvd]
  constructor
  case head => exact h.head
  case tail => simp [Ring.push, h.tail, Nat.add_assoc]
  case fits => simpa using Nat.succ_le_of_lt room
  case cell =>
    intro k b hb
    simp only [Ring.push, slot]
    obtain lt | rfl | gt := Nat.lt_trichotomy k q.length
    · rw [Function.update_of_ne (cell_ne lt room)]
      rw [List.getElem?_append_left lt] at hb
      exact h.cell k b hb
    · simpa using hb
    · rw [List.getElem?_eq_none (by simp; omega)] at hb
      cases hb

theorem Holds.front (h : Holds N M r done (a :: q)) (dvd : N ∣ M) : front N r = a := by
  have cell := h.cell 0 a rfl
  rwa [Nat.add_zero, ← Nat.mod_mod_of_dvd done dvd, ← h.head] at cell

theorem Holds.pop (h : Holds N M r done (a :: q)) : Holds N M (pop M r) (done + 1) q := by
  constructor
  case head => simp [Ring.pop, h.head]
  case tail => simp [Ring.pop, h.tail, Nat.add_comm, Nat.add_left_comm]
  case fits => exact (Nat.le_succ _).trans h.fits
  case cell =>
    intro k b hb
    have cell := h.cell (k + 1) b hb
    rwa [Nat.add_right_comm done 1 k, Nat.add_assoc done k 1]

/-- The elements in the ring, oldest first. -/
def queue (N M : Nat) (r : Buffer α) : List α :=
  (List.range ((r.tail + M - r.head) % M)).map fun k => r.data ((r.head + k) % N)

theorem Holds.queue_eq (h : Holds N M r done q) (dvd : N ∣ M) (lt : N < M) : queue N M r = q := by
  have length : (r.tail + M - r.head) % M = q.length := by
    have small := h.fits.trans_lt lt
    have head : done % M < M := Nat.mod_lt _ (by omega)
    rw [h.tail, h.head, Nat.add_mod, Nat.mod_eq_of_lt small]
    obtain wrap | wrap := Nat.lt_or_ge (done % M + q.length) M
    · rw [Nat.mod_eq_of_lt wrap]
      have : done % M + q.length + M - done % M = q.length + M := by omega
      rw [this, Nat.add_mod_right, Nat.mod_eq_of_lt small]
    · have rest : (done % M + q.length - M) % M = done % M + q.length - M :=
        Nat.mod_eq_of_lt (by omega)
      have : done % M + q.length - M + M - done % M = q.length := by omega
      rw [Nat.mod_eq_sub_mod wrap, rest, this, Nat.mod_eq_of_lt small]
  refine List.ext_getElem (by simp [queue, length]) ?_
  intro k hk hk'
  simp only [queue, List.getElem_map, List.getElem_range]
  rw [h.head, Nat.add_mod, Nat.mod_mod_of_dvd _ dvd, ← Nat.add_mod]
  exact h.cell k _ (List.getElem?_eq_getElem hk')

end Ring
