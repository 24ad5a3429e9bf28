import Mathlib.Tactic.Ring
import Xv6Gui.Param

/-!
# Disk blocks

A block is an array of bytes.  The kernel looks at it through pointers to larger
types, so the accessors for a `uint` in a block are defined by its bytes, lowest
first.
-/

namespace Xv6Gui

/-- `BSIZE`. -/
def bsize : Nat := 512

/-- The data of a block. -/
abbrev Block := Fin bsize → UInt8

/-- The value of an `int` with the bits of a `uint`. -/
def toInt (w : Nat) : Int := if w < 2 ^ 31 then w else w - 2 ^ 32

/-- The bits of an `int`. -/
def ofInt (v : Int) : Nat := (v % 2 ^ 32).toNat

theorem ofInt_lt (v : Int) : ofInt v < 2 ^ 32 := by
  rw [ofInt]
  omega

theorem toInt_ofInt {v : Int} (h₀ : 0 ≤ v) (h₁ : v < 2 ^ 31) : toInt (ofInt v) = v := by
  rw [toInt, ofInt]
  omega

namespace Block

variable {b : Block} {i : Nat}

/-- A byte, and 0 behind the block. -/
def byte (b : Block) (i : Nat) : Nat := if h : i < bsize then (b ⟨i, h⟩).toNat else 0

/-- `((uint*)b)[i]`. -/
def word (b : Block) (i : Nat) : Nat :=
  b.byte (4 * i) + 2 ^ 8 * b.byte (4 * i + 1) + 2 ^ 16 * b.byte (4 * i + 2) +
    2 ^ 24 * b.byte (4 * i + 3)

/-- `((uint*)b)[i] = v`. -/
def setWord (b : Block) (i v : Nat) : Block := fun j =>
  if j.val / 4 = i then UInt8.ofNat (v / 2 ^ (8 * (j.val % 4))) else b j

theorem byte_lt (b : Block) (i : Nat) : b.byte i < 2 ^ 8 := by
  rw [byte]
  split
  · exact UInt8.toNat_lt _
  · decide

theorem word_lt (b : Block) (i : Nat) : b.word i < 2 ^ 32 := by
  have h₀ := b.byte_lt (4 * i)
  have h₁ := b.byte_lt (4 * i + 1)
  have h₂ := b.byte_lt (4 * i + 2)
  have h₃ := b.byte_lt (4 * i + 3)
  rw [word]
  omega

theorem byte_setWord_self {v k : Nat} (hi : 4 * i + 3 < bsize) (hk : k < 4) :
    (b.setWord i v).byte (4 * i + k) = v / 2 ^ (8 * k) % 2 ^ 8 := by
  have inside : 4 * i + k < bsize := by omega
  have index : (4 * i + k) / 4 = i := by omega
  have offset : (4 * i + k) % 4 = k := by omega
  rw [byte, dif_pos inside]
  simp only [setWord, index, offset, if_true, UInt8.toNat_ofNat']

/-- A word holds what was stored in it. -/
theorem word_setWord_self {v : Nat} (hi : 4 * i + 3 < bsize) :
    (b.setWord i v).word i = v % 2 ^ 32 := by
  have h₀ := byte_setWord_self (b := b) (v := v) hi (k := 0) (by omega)
  have h₁ := byte_setWord_self (b := b) (v := v) hi (k := 1) (by omega)
  have h₂ := byte_setWord_self (b := b) (v := v) hi (k := 2) (by omega)
  have h₃ := byte_setWord_self (b := b) (v := v) hi (k := 3) (by omega)
  rw [word, ← add_zero (4 * i), h₀, add_zero, h₁, h₂, h₃]
  norm_num
  omega

/-- The other words stay. -/
theorem word_setWord_of_ne {j v : Nat} (h : j ≠ i) :
    (b.setWord i v).word j = b.word j := by
  have bytes : ∀ k < 4, (b.setWord i v).byte (4 * j + k) = b.byte (4 * j + k) := by
    intro k hk
    have index : (4 * j + k) / 4 ≠ i := by omega
    rw [byte, byte]
    simp only [setWord, index, if_false]
  rw [word, word, bytes 1 (by omega), bytes 2 (by omega), bytes 3 (by omega)]
  rw [← add_zero (4 * j), bytes 0 (by omega)]

/-- A block of zeros. -/
def zero : Block := fun _ => 0

/-- `memmove(data + start, src, m)`. -/
def copy (b : Block) (start m : Nat) (src : Nat → UInt8) : Block := fun j =>
  if start ≤ j.val ∧ j.val < start + m then src (j.val - start) else b j

/-- `data[i/8] & (1 << (i % 8))`. -/
def bit (b : Block) (i : Nat) : Bool := (b.byte (i / 8)).testBit (i % 8)

/-- `data[i/8] |= 1 << (i % 8)`. -/
def setBit (b : Block) (i : Nat) : Block := fun j =>
  if j.val = i / 8 then b j ||| UInt8.ofNat (2 ^ (i % 8)) else b j

/-- `data[i/8] &= ~(1 << (i % 8))`. -/
def resetBit (b : Block) (i : Nat) : Block := fun j =>
  if j.val = i / 8 then b j &&& ~~~ UInt8.ofNat (2 ^ (i % 8)) else b j

/-- The bytes that `memmove(dst, data + start, m)` copies. -/
def slice (b : Block) (start m : Nat) : List UInt8 :=
  (List.range m).map fun k => UInt8.ofNat (b.byte (start + k))

theorem word_zero (i : Nat) : zero.word i = 0 := by
  have bytes : ∀ k, zero.byte k = 0 := by
    intro k
    rw [byte]
    split <;> rfl
  rw [word, bytes, bytes, bytes, bytes]
  rfl

theorem byte_setBit_self (h : i / 8 < bsize) :
    (b.setBit i).byte (i / 8) = b.byte (i / 8) ||| 2 ^ (i % 8) := by
  have small : 2 ^ (i % 8) < 2 ^ 8 := Nat.pow_lt_pow_right (by decide) (Nat.mod_lt _ (by decide))
  rw [byte, byte, dif_pos h, dif_pos h]
  simp only [setBit, if_true, UInt8.toNat_or, UInt8.toNat_ofNat', Nat.mod_eq_of_lt small]

theorem bit_setBit_self (h : i / 8 < bsize) : (b.setBit i).bit i = true := by
  rw [bit, byte_setBit_self h, Nat.testBit_or, Nat.testBit_two_pow_self, Bool.or_true]

/-- The other bits stay. -/
theorem bit_setBit_of_ne {j : Nat} (h : j ≠ i) : (b.setBit i).bit j = b.bit j := by
  rw [bit, bit]
  by_cases same : j / 8 = i / 8
  · have other : i % 8 ≠ j % 8 := by omega
    by_cases inside : i / 8 < bsize
    · rw [same, byte_setBit_self inside, Nat.testBit_or, Nat.testBit_two_pow_of_ne other,
        Bool.or_false]
    · rw [same, byte, byte, dif_neg inside, dif_neg inside]
  · rw [byte, byte]
    simp only [setBit, same, if_false]

theorem testBit_and_not (c : UInt8) {k : Nat} (hk : k < 8) (i : Nat) :
    (c &&& ~~~ UInt8.ofNat (2 ^ k)).toNat.testBit i = (c.toNat.testBit i && i != k) := by
  have small : 2 ^ k < 2 ^ 8 := Nat.pow_lt_pow_right (by decide) hk
  have bit : (UInt8.ofNat (2 ^ k)).toBitVec.getLsbD i = decide (k = i) := by
    rw [← BitVec.testBit_toNat, UInt8.toNat_toBitVec, UInt8.toNat_ofNat', Nat.mod_eq_of_lt small,
      Nat.testBit_two_pow]
  rw [← UInt8.toNat_toBitVec, ← UInt8.toNat_toBitVec, BitVec.testBit_toNat, BitVec.testBit_toNat,
    UInt8.toBitVec_and, UInt8.toBitVec_not, BitVec.getLsbD_and, BitVec.getLsbD_not, bit]
  by_cases inside : i < 8
  · by_cases e : i = k
    · simp [e]
    · simp [inside, e, Ne.symm e]
  · rw [BitVec.getLsbD_of_ge _ _ (by omega)]
    rfl

theorem byte_resetBit_self (h : i / 8 < bsize) (k : Nat) :
    ((b.resetBit i).byte (i / 8)).testBit k = ((b.byte (i / 8)).testBit k && k != i % 8) := by
  rw [byte, byte, dif_pos h, dif_pos h]
  have self : b.resetBit i ⟨i / 8, h⟩ = b ⟨i / 8, h⟩ &&& ~~~ UInt8.ofNat (2 ^ (i % 8)) := if_pos rfl
  rw [self]
  exact testBit_and_not _ (Nat.mod_lt _ (by decide)) k

/-- One bit is cleared, the others stay. -/
theorem bit_resetBit {j : Nat} (h : i / 8 < bsize) :
    (b.resetBit i).bit j = (b.bit j && j != i) := by
  rw [bit, bit]
  by_cases same : j / 8 = i / 8
  · have index : (j % 8 != i % 8) = (j != i) := by
      by_cases e : j = i
      · rw [e, bne_self_eq_false, bne_self_eq_false]
      · have other : j % 8 ≠ i % 8 := by omega
        rw [bne_iff_ne.mpr other, bne_iff_ne.mpr e]
    rw [same, byte_resetBit_self h, index]
  · have e : j ≠ i := fun e => same (by rw [e])
    rw [byte, byte]
    simp [resetBit, same, e]

end Block

end Xv6Gui
