import Mathlib.Data.Nat.Bitwise
import Xv6Gui.Fs.Inode
import Xv6Gui.Lib.Effect

/-!
# The bitmap of free blocks

What code of the file system sees of its state is the contents of the blocks,
not the buffers and the log they are in.  In this view `balloc` takes the lowest
block that is free in the bitmap, marks it as used and clears it.
-/

namespace Xv6Gui

/-! ## Running code of the file system -/

namespace FsM

variable {α β : Type} {x : FsM α} {f : α → FsM β} {s t : Fs} {b : β}

theorem bind_ok : (x >>= f).run s = .ok (b, t) ↔
    ∃ a u, x.run s = .ok (a, u) ∧ (f a).run u = .ok (b, t) :=
  Effect.bind_ok

theorem get_bind {f : Fs → FsM β} : (get >>= f).run s = (f s).run s := rfl

end FsM

/-! ## What the code sees -/

/-- The state without the buffers and the log. -/
structure View where
  data : Nat → Block
  icache : InodePtr → Inode
  ftable : FilePtr → File
  logged : Finset Nat
  ops : List (Finset Nat)

/-- What the file system sees of a state. -/
def Fs.view (s : Fs) : View := ⟨s.data, s.icache, s.ftable, s.logged, s.ops⟩

namespace View

/-- `log_write`. -/
def write (v : View) (b : Nat) (d : Block) : View :=
  { v with data := Function.update v.data b d, logged := insert b v.logged }

/-- Change an inode in memory. -/
def setInode (v : View) (ip : InodePtr) (f : Inode → Inode) : View :=
  { v with icache := Function.update v.icache ip (f (v.icache ip)) }

/-- The super block. -/
def sb (v : View) : Superblock := (v.data 1).superblock

end View

variable {s t : Fs} {b : Nat} {d : Block}

theorem bread_ok (h : (bread b).run s = .ok (d, t)) : d = s.view.data b ∧ t.view = s.view := by
  cases h
  refine ⟨Bio.bread_fst .., ?_⟩
  exact congrArg (View.mk · s.icache s.ftable s.logged s.ops) (Bio.bread_data ..)

theorem logWrite_eq (h : (logWrite b d).run s = .ok ((), t)) : 1 ≤ s.log.log.outstanding ∧
    t = { s with
      log := ⟨{ s.log.bio with cache := Function.update s.log.bio.cache b (some ⟨d, true⟩) },
        { s.log.log with lh := s.log.log.lh.record b }⟩
      logged := insert b s.logged } := by
  have step : logWrite b d s = .ok ((), t) := h
  rw [logWrite] at step
  split at step
  · cases step
  · rename_i log hlog
    cases step
    rw [LogState.logWrite] at hlog
    split at hlog
    · cases hlog
    · split at hlog
      · cases hlog
      · rename_i inside
        cases hlog
        exact ⟨not_lt.mp inside, rfl⟩

theorem logWrite_ok (h : (logWrite b d).run s = .ok ((), t)) : t.view = s.view.write b d := by
  have data : t.log.bio.data = Function.update s.log.bio.data b d := by
    rw [(logWrite_eq h).2]
    funext a
    by_cases ha : a = b
    · subst ha
      simp only [Bio.data, Function.update_self]
    · simp only [Bio.data, Function.update_of_ne ha]
  rw [(logWrite_eq h).2] at data ⊢
  exact congrArg (View.mk · s.icache s.ftable (insert b s.logged) s.ops) data

theorem setInode_ok {ip : InodePtr} {f : Inode → Inode} (h : (setInode ip f).run s = .ok ((), t)) :
    t.view = s.view.setInode ip f := by
  cases h
  rfl

/-! ## Free blocks -/

namespace View

/-- The bit of a block is set. -/
def used (v : View) (b : Nat) : Bool := (v.data (bblock b v.sb.ninodes)).bit (b % bpb)

/-- The blocks that are free, the lowest one first. -/
def free (v : View) : List Nat := (List.range v.sb.size).filter fun b => !v.used b

/-- The first block behind the bitmap. -/
def dataStart (v : View) : Nat := v.sb.ninodes / ipb + 3 + (v.sb.size / bpb + 1)

/-- `balloc` of block `b`. -/
def alloc (v : View) (b : Nat) : View :=
  let bit := bblock b v.sb.ninodes
  (v.write bit ((v.data bit).setBit (b % bpb))).write b .zero

end View

theorem clearBit_of_some {bp : Block} {sb : Superblock} {b bi : Nat}
    (h : clearBit bp sb b = some bi) :
    bi < bpb ∧ b + bi < sb.size ∧ bp.bit bi = false ∧ ∀ j < bi, bp.bit j = true := by
  obtain ⟨clear, inside, before⟩ := List.find?_range'_eq_some.mp h
  have := List.mem_range'_1.mp inside
  refine ⟨by omega, by omega, by simpa using clear, ?_⟩
  intro j hj
  simpa using before j (Nat.zero_le j) hj

theorem clearBit_of_none {bp : Block} {sb : Superblock} {b j : Nat}
    (h : clearBit bp sb b = none) (hj : j < bpb) (hb : b + j < sb.size) : bp.bit j = true := by
  have all := List.find?_eq_none.mp h j (List.mem_range'_1.mpr (by omega))
  simpa using all

/-- The blocks of a round of `balloc` have their bits in one block. -/
theorem bblock_round {k j : Nat} (hj : j < bpb) (n : Nat) :
    bblock (bpb * k + j) n = bblock (bpb * k) n := by
  rw [bblock, bblock, Nat.mul_add_div (by decide), Nat.div_eq_of_lt hj,
    Nat.mul_div_cancel_left _ (by decide)]
  rfl

theorem used_round {v : View} {k j : Nat} (hj : j < bpb) :
    v.used (bpb * k + j) = (v.data (bblock (bpb * k) v.sb.ninodes)).bit j := by
  rw [View.used, Nat.mul_add_mod, Nat.mod_eq_of_lt hj, bblock_round hj]

/-- A round takes the first block that is free, if it is in the part of the
bitmap that is left. -/
theorem ballocLoop_ok {rounds k : Nat} (before : ∀ x < bpb * k, x < s.view.sb.size → s.view.used x)
    (h : (ballocLoop s.view.sb rounds (bpb * k)).run s = .ok (b, t)) :
    t.view = s.view.alloc b ∧ b < s.view.sb.size ∧ s.view.used b = false ∧
      ∀ x < b, s.view.used x = true := by
  induction rounds generalizing s k with
  | zero => cases h
  | succ rounds ih =>
    obtain ⟨bp, u, hread, h⟩ := FsM.bind_ok.mp h
    obtain ⟨rfl, hu⟩ := bread_ok hread
    split at h
    · rename_i bi hbi
      obtain ⟨lt, size, clear, least⟩ := clearBit_of_some hbi
      obtain ⟨_, u₁, hwrite, h⟩ := FsM.bind_ok.mp h
      obtain ⟨_, u₂, hzero, h⟩ := FsM.bind_ok.mp h
      obtain ⟨_, u₃, hread, hzero⟩ := FsM.bind_ok.mp hzero
      cases h
      have view : t.view = s.view.alloc (bpb * k + bi) := by
        have mod : (bpb * k + bi) % bpb = bi := by
          rw [Nat.mul_add_mod, Nat.mod_eq_of_lt lt]
        rw [logWrite_ok hzero, (bread_ok hread).2, logWrite_ok hwrite, hu, View.alloc, mod,
          bblock_round lt]
      refine ⟨view, size, by rw [used_round lt, clear], ?_⟩
      intro x hx
      by_cases low : x < bpb * k
      · exact before x low (by omega)
      · obtain ⟨j, rfl⟩ := Nat.exists_eq_add_of_le (Nat.le_of_not_lt low)
        rw [used_round (by omega)]
        exact least j (by omega)
    · rename_i none
      rw [← hu] at h ⊢
      have next : bpb * k + bpb = bpb * (k + 1) := (Nat.mul_succ ..).symm
      rw [next] at h
      refine ih ?_ h
      intro x hx size
      rw [hu] at size ⊢
      by_cases low : x < bpb * k
      · exact before x low size
      · obtain ⟨j, rfl⟩ := Nat.exists_eq_add_of_le (Nat.le_of_not_lt low)
        have hj : j < bpb := by omega
        rw [used_round hj]
        exact clearBit_of_none none hj size

/-- `balloc` takes the lowest free block. -/
theorem balloc_ok (h : balloc.run s = .ok (b, t)) :
    t.view = s.view.alloc b ∧ b < s.view.sb.size ∧ s.view.used b = false ∧
      ∀ x < b, s.view.used x = true := by
  obtain ⟨sb, u, hsb, h⟩ := FsM.bind_ok.mp h
  obtain ⟨bp, u', hread, hsb⟩ := FsM.bind_ok.mp hsb
  obtain ⟨rfl, hu⟩ := bread_ok hread
  cases hsb
  rw [← hu] at h ⊢
  exact ballocLoop_ok (k := 0) (fun x hx => by omega) h

/-- To take the lowest number out of a set takes the head off its list. -/
theorem filter_range_least {n a : Nat} {f g : Nat → Bool} (ha : a < n) (fa : f a = true)
    (least : ∀ x < a, f x = false) (hg : ∀ x < n, g x = (f x && x != a)) :
    (List.range n).filter f = a :: (List.range n).filter g := by
  obtain ⟨d, rfl⟩ := Nat.exists_eq_add_of_lt ha
  have ga : g a = false := by simp [hg a ha]
  have low : ∀ x ∈ List.range a, g x = f x := by
    intro x hx
    have := List.mem_range.mp hx
    have ne : x ≠ a := by omega
    simp [hg x (by omega), ne]
  have none : (List.range a).filter f = [] := by
    refine List.filter_eq_nil_iff.mpr ?_
    intro x hx
    simp [least x (List.mem_range.mp hx)]
  have high : ∀ x ∈ (List.range d).map (a + 1 + ·), g x = f x := by
    intro x hx
    obtain ⟨i, hi, rfl⟩ := List.mem_map.mp hx
    have := List.mem_range.mp hi
    have ne : a + 1 + i ≠ a := by omega
    simp [hg (a + 1 + i) (by omega), ne]
  have split : List.range (a + d + 1) = List.range a ++ [a] ++ (List.range d).map (a + 1 + ·) := by
    rw [← List.range_succ, ← List.range_add]
    congr 1
    omega
  rw [split]
  simp only [List.filter_append, List.filter_congr low, List.filter_congr high, none]
  simp [fa, ga]

namespace View

variable {v w : View}

theorem mem_free : b ∈ v.free ↔ b < v.sb.size ∧ v.used b = false := by
  simp [free]

theorem free_nodup (v : View) : v.free.Nodup := List.nodup_range.filter _

theorem bblock_lt (h : b < v.sb.size) : bblock b v.sb.ninodes < v.dataStart := by
  have := Nat.div_le_div_right (c := bpb) h.le
  rw [bblock, dataStart]
  omega

theorem one_lt_bblock (b n : Nat) : 1 < bblock b n := Nat.lt_add_left _ (by decide)

theorem write_data_other {z : Nat} (h : z ≠ b) : (v.write b d).data z = v.data z :=
  Function.update_of_ne h ..

theorem dataStart_pos (v : View) : 1 < v.dataStart := by
  rw [dataStart]
  exact Nat.lt_add_right _ (Nat.lt_add_left _ (by decide))

theorem write_sb (h : v.dataStart ≤ b) (d : Block) : (v.write b d).sb = v.sb := by
  have := v.dataStart_pos
  rw [sb, write_data_other (by omega)]
  rfl

theorem write_free (h : v.dataStart ≤ b) (d : Block) : (v.write b d).free = v.free := by
  rw [free, free, write_sb h]
  refine List.filter_congr ?_
  intro x hx
  have := bblock_lt (List.mem_range.mp hx)
  rw [used, used, write_sb h, write_data_other (by omega)]

theorem alloc_data_self (v : View) (b : Nat) : (v.alloc b).data b = .zero :=
  Function.update_self ..

theorem alloc_data_other {z : Nat} (hb : z ≠ b) (hbit : z ≠ bblock b v.sb.ninodes) :
    (v.alloc b).data z = v.data z :=
  (Function.update_of_ne hb ..).trans (Function.update_of_ne hbit ..)

theorem alloc_data_bit (hb : bblock b v.sb.ninodes ≠ b) :
    (v.alloc b).data (bblock b v.sb.ninodes) =
      (v.data (bblock b v.sb.ninodes)).setBit (b % bpb) :=
  (Function.update_of_ne hb ..).trans (Function.update_self ..)

/-- The allocation of a block sets its bit and leaves the others. -/
theorem used_alloc {x : Nat} (start : v.dataStart ≤ b) (hx : x < v.sb.size) :
    ((v.alloc b).data (bblock x v.sb.ninodes)).bit (x % bpb) = (v.used x || x == b) := by
  have low := bblock_lt hx
  by_cases same : bblock x v.sb.ninodes = bblock b v.sb.ninodes
  · rw [same, alloc_data_bit (by omega), used, same]
    by_cases e : x = b
    · have inside : b % bpb / 8 < bsize := by
        have : b % bpb < 4096 := Nat.mod_lt _ (by decide)
        have : bsize = 512 := rfl
        omega
      rw [e, Block.bit_setBit_self inside]
      simp
    · have div : x / bpb = b / bpb := by
        rw [bblock, bblock] at same
        omega
      have other : x % bpb ≠ b % bpb := by
        intro mod
        exact e (by rw [← Nat.div_add_mod x bpb, ← Nat.div_add_mod b bpb, div, mod])
      rw [Block.bit_setBit_of_ne other]
      simp [e]
  · rw [alloc_data_other (by omega) same, used]
    have e : x ≠ b := fun e => same (by rw [e])
    simp [e]

/-- The allocation of the lowest free block takes it from the list. -/
theorem free_alloc (low : ∀ b ∈ v.free, v.dataStart ≤ b) (size : b < v.sb.size)
    (clear : v.used b = false) (least : ∀ x < b, v.used x = true) (hsb : w.sb = v.sb)
    (hdata : ∀ z < v.dataStart, 1 < z → w.data z = (v.alloc b).data z) :
    v.free = b :: w.free := by
  have start := low b (mem_free.mpr ⟨size, clear⟩)
  rw [free, free, hsb]
  refine filter_range_least size (by rw [clear]; rfl) (fun x hx => by rw [least x hx]; rfl) ?_
  intro x hx
  have used : w.used x = (v.used x || x == b) := by
    rw [View.used, hsb, hdata _ (bblock_lt hx) (one_lt_bblock ..), used_alloc start hx]
  rw [used, Bool.not_or]
  rfl

end View

end Xv6Gui
