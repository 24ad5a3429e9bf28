import Mathlib.Algebra.Order.Ring.Nat

/-!
# Two `memmove`s

`memmove` of `string.c` looks whether the destination starts inside of the source, and copies from
the end then.  That of `ulib.c` always copies from the start.  Both ranges lie in the address space,
so addresses are numbers that do not wrap around.

A copy from the start that meets its own bytes repeats the first ones, with the distance of the two
ranges as the period (`copyUp_above`).
-/

namespace Xv6Gui

open Function (update update_self update_of_ne)

variable {m : Nat → UInt8} {dst src n : Nat}

/-- `*d++ = *s++`, `n` times. -/
def copyUp (m : Nat → UInt8) (d s : Nat) : Nat → Nat → UInt8
  | 0 => m
  | n + 1 => copyUp (update m d (m s)) (d + 1) (s + 1) n

/-- `*--d = *--s`, `n` times. -/
def copyDown (m : Nat → UInt8) (d s : Nat) : Nat → Nat → UInt8
  | 0 => m
  | n + 1 => copyDown (update m (d - 1) (m (s - 1))) (d - 1) (s - 1) n

/-- `memmove` of `string.c`. -/
def memmove (m : Nat → UInt8) (dst src n : Nat) : Nat → UInt8 :=
  if src < dst ∧ src + n > dst then copyDown m (dst + n) (src + n) n else copyUp m dst src n

/-- `memmove` of `ulib.c`, with an `int` as the length. -/
def ulibMemmove (m : Nat → UInt8) (dst src : Nat) (n : Int) : Nat → UInt8 :=
  copyUp m dst src n.toNat

/-- The destination holds the original bytes of the source. -/
def moved (m : Nat → UInt8) (dst src n a : Nat) : UInt8 :=
  if dst ≤ a ∧ a < dst + n then m (src + (a - dst)) else m a

theorem copyUp_below (below : dst ≤ src) : copyUp m dst src n = moved m dst src n := by
  induction n generalizing m dst src with
  | zero =>
    funext a
    rw [moved, if_neg (by omega)]
    rfl
  | succ n ih =>
    funext a
    rw [copyUp, ih (by omega), moved, moved]
    by_cases first : a = dst
    · rw [first, if_neg (by omega), if_pos (by omega), update_self, Nat.sub_self, Nat.add_zero]
    · rw [update_of_ne first, update_of_ne (by omega)]
      by_cases inside : dst + 1 ≤ a ∧ a < dst + 1 + n
      · rw [if_pos inside, if_pos (by omega)]
        congr 1
        omega
      · rw [if_neg inside, if_neg (by omega)]

/-- A copy over its own source. -/
theorem copyUp_above (above : src < dst) (a : Nat) : copyUp m dst src n a =
    if dst ≤ a ∧ a < dst + n then m (src + (a - dst) % (dst - src)) else m a := by
  induction n generalizing m dst src with
  | zero =>
    rw [if_neg (by omega)]
    rfl
  | succ n ih =>
    have period : dst + 1 - (src + 1) = dst - src := by omega
    rw [copyUp, ih (by omega), period]
    by_cases first : a = dst
    · rw [first, if_neg (by omega), if_pos (by omega), update_self, Nat.sub_self, Nat.zero_mod,
        Nat.add_zero]
    rw [update_of_ne first]
    by_cases inside : dst + 1 ≤ a ∧ a < dst + 1 + n
    · rw [if_pos inside, if_pos (by omega)]
      have next : (a - dst) % (dst - src) = ((a - (dst + 1)) % (dst - src) + 1) % (dst - src) := by
        rw [Nat.mod_add_mod]
        congr 1
        omega
      have less : (a - (dst + 1)) % (dst - src) < dst - src := Nat.mod_lt _ (by omega)
      rw [next]
      generalize (a - (dst + 1)) % (dst - src) = r at less ⊢
      -- The byte that was just stored is read when a period is over.
      by_cases last : r + 1 = dst - src
      · rw [last, Nat.mod_self, show src + 1 + r = dst by omega, update_self, Nat.add_zero]
      · rw [Nat.mod_eq_of_lt (by omega), update_of_ne (by omega), Nat.add_right_comm, Nat.add_assoc]
    · rw [if_neg inside, if_neg (by omega)]

theorem copyDown_above (above : src ≤ dst) :
    copyDown m (dst + n) (src + n) n = moved m dst src n := by
  induction n generalizing m with
  | zero =>
    funext a
    rw [moved, if_neg (by omega)]
    rfl
  | succ n ih =>
    funext a
    rw [copyDown, Nat.add_succ_sub_one, Nat.add_succ_sub_one, ih, moved, moved]
    by_cases last : a = dst + n
    · rw [last, if_neg (by omega), if_pos (by omega), update_self, Nat.add_sub_cancel_left]
    · by_cases inside : dst ≤ a ∧ a < dst + n
      · rw [if_pos inside, if_pos (by omega), update_of_ne (by omega)]
      · rw [if_neg inside, if_neg (by omega), update_of_ne last]

theorem memmove_eq : memmove m dst src n = moved m dst src n := by
  rw [memmove]
  split
  · rename_i overlap
    exact copyDown_above overlap.1.le
  · rename_i apart
    by_cases below : dst ≤ src
    · exact copyUp_below below
    · funext a
      rw [copyUp_above (not_le.mp below), moved]
      by_cases inside : dst ≤ a ∧ a < dst + n
      · rw [if_pos inside, if_pos inside, Nat.mod_eq_of_lt (by omega)]
      · rw [if_neg inside, if_neg inside]

/-- The `memmove` of the kernel moves the bytes.  That of the user library does the same, unless
the destination starts inside of the source; then it does if the source repeats itself with the
distance of the two as the period. -/
theorem memmoves_agree_iff (m : Nat → UInt8) (dst src n : Nat) :
    memmove m dst src n = moved m dst src n ∧
      (ulibMemmove m dst src n = memmove m dst src n ↔
        (src < dst ∧ dst < src + n → ∀ i < n, m (src + i) = m (src + i % (dst - src)))) := by
  refine ⟨memmove_eq, ?_⟩
  rw [memmove_eq, ulibMemmove, Int.toNat_natCast]
  by_cases below : dst ≤ src
  · exact iff_of_true (copyUp_below below) fun overlap => absurd overlap.1 below.not_gt
  have above : src < dst := not_le.mp below
  constructor
  · intro same _ i hi
    have byte := congrFun same (dst + i)
    rw [copyUp_above above, moved, if_pos (by omega), if_pos (by omega),
      Nat.add_sub_cancel_left] at byte
    exact byte.symm
  · intro repeats
    funext a
    rw [copyUp_above above, moved]
    by_cases inside : dst ≤ a ∧ a < dst + n
    · rw [if_pos inside, if_pos inside]
      by_cases overlap : dst < src + n
      · exact (repeats ⟨above, overlap⟩ (a - dst) (by omega)).symm
      · rw [Nat.mod_eq_of_lt (by omega)]
    · rw [if_neg inside, if_neg inside]

/-- Two bytes are moved by one place. -/
theorem memmoves_differ :
    memmove (fun a => a.toUInt8) 1 0 2 2 = 1 ∧ ulibMemmove (fun a => a.toUInt8) 1 0 2 2 = 0 := by
  decide

end Xv6Gui
