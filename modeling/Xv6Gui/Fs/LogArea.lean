import Xv6Gui.Fs.BlockOwners

/-!
# Blocks of the log

`balloc` looks for a free block up to the end of the disk, and the log lies at the end.
Its blocks are free in the bitmap, so only the blocks before it keep `balloc` away from
it: `balloc` takes a block of the log if and only if all blocks before the log are used.

As long as there is a free block before the log whenever one is allocated, commits do
not change what lies before the log.
-/

namespace Xv6Gui

open Effect Runs

variable {s t : Fs} {b : Nat}

/-! ## `balloc` and `bfree` -/

/-- A free block lies before the log. -/
def Fs.Roomy (s : Fs) : Prop :=
  ∃ a < s.log.log.start, a < s.view.sb.size ∧ s.view.used a = false

theorem balloc_below_iff (run : balloc.run s = .ok (b, t)) : b < s.log.log.start ↔ s.Roomy := by
  obtain ⟨_, inside, clear, least⟩ := balloc_ok run
  constructor
  · intro below
    exact ⟨b, below, inside, clear⟩
  · rintro ⟨a, below, _, free⟩
    by_contra behind
    have used := least a (by omega)
    rw [free] at used
    cases used

theorem clearBit_eq_none {bp : Block} {sb : Superblock} {k : Nat}
    (all : ∀ j < bpb, k + j < sb.size → bp.bit j = true) : clearBit bp sb k = none := by
  rw [clearBit, List.find?_eq_none]
  intro j hj
  have := List.mem_range'_1.mp hj
  rw [all j (by omega) (by omega)]
  decide

theorem clearBit_eq_some {bp : Block} {sb : Superblock} {k j : Nat} (hj : j < bpb)
    (inside : k + j < sb.size) (clear : bp.bit j = false) (least : ∀ i < j, bp.bit i = true) :
    clearBit bp sb k = some j := by
  rw [clearBit, List.find?_range'_eq_some]
  refine ⟨by rw [clear]; rfl, List.mem_range'_1.mpr (by omega), ?_⟩
  intro i _ hi
  rw [least i hi]
  rfl

section

variable {J : Log → Prop} {S : Nat → Prop} {E : Halt → Prop} {v : View}
  (contract : LogContract J S E)

include contract

/-- A round of `balloc` goes on or takes the first free block. -/
theorem ballocLoop_log {rounds k : Nat} (bits : S (bblock b v.sb.ninodes)) (block : S b)
    (inside : b < v.sb.size) (clear : v.used b = false) (least : ∀ x < b, v.used x = true)
    (low : bpb * k ≤ b) (enough : b < bpb * (k + rounds)) :
    Triple (Fs.At v J) (ballocLoop v.sb rounds (bpb * k))
      (fun a t => a = b ∧ Fs.At (v.alloc b) J t) E := by
  induction rounds generalizing k with
  | zero => exact absurd enough (by rw [Nat.add_zero]; omega)
  | succ rounds ih =>
    refine Triple.bind (bread_triple _) fun bp => Triple.known ?_
    rintro rfl
    by_cases here : b < bpb * k + bpb
    · obtain ⟨j, rfl⟩ := Nat.exists_eq_add_of_le low
      have hj : j < bpb := by omega
      rw [used_round hj] at clear
      have before : ∀ i < j, (v.data (bblock (bpb * k) v.sb.ninodes)).bit i = true := by
        intro i hi
        rw [← used_round (by omega)]
        exact least _ (by omega)
      rw [clearBit_eq_some hj inside clear before]
      rw [bblock_round hj] at bits
      have mod : (bpb * k + j) % bpb = j := by rw [Nat.mul_add_mod, Nat.mod_eq_of_lt hj]
      have view : v.alloc (bpb * k + j) =
          (v.write (bblock (bpb * k) v.sb.ninodes)
            ((v.data (bblock (bpb * k) v.sb.ninodes)).setBit j)).write (bpb * k + j) .zero := by
        rw [View.alloc, mod, bblock_round hj]
      refine Triple.bind (logWrite_triple contract bits _) fun _ => Triple.bind
        (Triple.bind (bread_triple _) fun bp => Triple.known fun _ =>
          logWrite_triple contract block _) fun _ => Triple.pure ?_
      intro t ht
      rw [view]
      exact ⟨rfl, ht⟩
    · have all : ∀ j < bpb, bpb * k + j < v.sb.size →
          (v.data (bblock (bpb * k) v.sb.ninodes)).bit j = true := by
        intro j hj _
        rw [← used_round hj]
        exact least _ (by omega)
      have next : bpb * k + bpb = bpb * (k + 1) := (Nat.mul_succ ..).symm
      rw [clearBit_eq_none all, next]
      refine ih (by omega) ?_
      rwa [Nat.add_assoc, Nat.add_comm 1]

/-- `balloc` takes the first free block, or `log_write` panics. -/
theorem balloc_log (bits : S (bblock b v.sb.ninodes)) (block : S b) (inside : b < v.sb.size)
    (clear : v.used b = false) (least : ∀ x < b, v.used x = true) :
    Triple (Fs.At v J) balloc (fun a t => a = b ∧ Fs.At (v.alloc b) J t) E := by
  refine Triple.bind (Q := fun sb t => sb = v.sb ∧ Fs.At v J t) ?_ fun sb => Triple.known ?_
  · refine Triple.bind (bread_triple 1) fun bp => Triple.pure ?_
    rintro s ⟨rfl, at_⟩
    exact ⟨rfl, at_⟩
  · rintro rfl
    refine ballocLoop_log contract (k := 0) bits block inside clear least (Nat.zero_le _) ?_
    rw [Nat.zero_add, show bpb = 4096 from rfl]
    omega

end

theorem bfree_ok (run : (bfree b).run s = .ok ((), t)) :
    s.view.used b = true ∧ t.view = s.view.reset b := by
  obtain ⟨sb, u, hsb, run⟩ := FsM.bind_ok.mp run
  obtain ⟨bp, u', hread, hsb⟩ := FsM.bind_ok.mp hsb
  obtain ⟨rfl, view⟩ := bread_ok hread
  cases hsb
  obtain ⟨bp, u', hread, run⟩ := FsM.bind_ok.mp run
  obtain ⟨rfl, view'⟩ := bread_ok hread
  rw [view] at view' run
  split at run
  · rename_i bit
    refine ⟨bit, ?_⟩
    rw [logWrite_ok run, view']
    rfl
  · cases run

/-! ## Runs -/

/-- The calls that allocate and free blocks, and the starts and the ends of
transactions. -/
inductive BlockCall where
  | beginOp
  | endOp
  | balloc
  | bfree (b : Nat)

/-- The state after a call. -/
def BlockCall.after (s : Fs) : BlockCall → Option Fs
  | .beginOp => FsCall.after.returned (Xv6Gui.beginOp.run s)
  | .endOp => FsCall.after.returned (Xv6Gui.endOp.run s)
  | .balloc => FsCall.after.returned (Xv6Gui.balloc.run s)
  | .bfree b => FsCall.after.returned ((Xv6Gui.bfree b).run s)

/-- Only blocks behind the bitmap are freed. -/
def BlockCall.Proper (s : Fs) : BlockCall → Prop
  | .bfree b => s.view.dataStart ≤ b ∧ b < s.view.sb.size
  | _ => True

/-- A proper call that returns. -/
abbrev BlockStep : Fs → BlockCall → Fs → Prop :=
  Guarded (fun s c t => c.after s = some t) fun s c => c.Proper s

/-- When a block is allocated, there is a free one before the log. -/
def BlockCall.Roomy (s : Fs) : BlockCall → Prop
  | .balloc => s.Roomy
  | _ => True

/-- Nothing behind the start of the log is logged, and the blocks up to the bitmap are
used. -/
structure LogApart (s : Fs) : Prop where
  behind : s.view.dataStart ≤ s.log.log.start
  low : ∀ b ∈ s.view.free, s.view.dataStart ≤ b
  nonneg : 0 ≤ s.log.log.lh.n
  sectors : ∀ z ∈ s.log.log.lh.sectors, z < s.log.log.start
  logged : ∀ z ∈ s.logged, z < s.log.log.start

theorem LogApart.logs (h : LogApart s) (logs : Logs s t) (sb : t.view.sb = s.view.sb)
    (low : ∀ b ∈ t.view.free, s.view.dataStart ≤ b)
    (logged : ∀ z ∈ t.logged, z ∈ s.logged ∨ z < s.log.log.start) : LogApart t := by
  have below : ∀ z ∈ t.logged, z < s.log.log.start :=
    fun z hz => (logged z hz).elim (h.logged z) id
  refine ⟨?_, ?_, logs.nonneg, ?_, ?_⟩
  · rw [View.dataStart_congr sb, logs.start]
    exact h.behind
  · rw [View.dataStart_congr sb]
    exact low
  · rw [logs.start]
    exact fun z hz => (logs.sectors z hz).elim (h.sectors z) (below z)
  · rw [logs.start]
    exact below

theorem LogApart.balloc (h : LogApart s) (roomy : s.Roomy) (run : balloc.run s = .ok (b, t)) :
    (LogApart t ∧ t.view.sb = s.view.sb) ∧ s.view.dataStart ≤ b ∧ b < s.log.log.start := by
  obtain ⟨view, inside, clear, least⟩ := balloc_ok run
  have start : s.view.dataStart ≤ b := h.low b (View.mem_free.mpr ⟨inside, clear⟩)
  have below := (balloc_below_iff run).mpr roomy
  have sb : t.view.sb = s.view.sb := by
    rw [view]
    exact View.sb_alloc start
  refine ⟨⟨h.logs (logsFrame_table.content.balloc.rel run h.nonneg) sb ?_ ?_, sb⟩, start, below⟩
  · intro x hx
    obtain ⟨size, free⟩ := View.mem_free.mp hx
    rw [sb] at size
    rw [view, View.used_alloc_view start size, Bool.or_eq_false_iff] at free
    exact h.low x (View.mem_free.mpr ⟨size, free.1⟩)
  · intro z hz
    have hz : z ∈ t.view.logged := hz
    rw [view] at hz
    have bit := View.bblock_lt inside
    have := h.behind
    obtain rfl | hz := Finset.mem_insert.mp hz
    · exact .inr below
    · obtain rfl | hz := Finset.mem_insert.mp hz
      · exact .inr (by omega)
      · exact .inl hz

theorem LogApart.bfree (h : LogApart s) (start : s.view.dataStart ≤ b) (inside : b < s.view.sb.size)
    (run : (bfree b).run s = .ok ((), t)) : LogApart t ∧ t.view.sb = s.view.sb := by
  obtain ⟨_, view⟩ := bfree_ok run
  have sb : t.view.sb = s.view.sb := by
    rw [view]
    exact View.reset_sb ..
  refine ⟨h.logs ((logsFrame_table.content.bfree b).rel run h.nonneg) sb ?_ ?_, sb⟩
  · intro x hx
    obtain ⟨size, free⟩ := View.mem_free.mp hx
    rw [sb] at size
    rw [view, View.used_reset, Bool.and_eq_false_iff] at free
    obtain free | same := free
    · exact h.low x (View.mem_free.mpr ⟨size, free⟩)
    · rw [bne_eq_false_iff_eq] at same
      exact same ▸ start
  · intro z hz
    have hz : z ∈ t.view.logged := hz
    rw [view] at hz
    have bit := View.bblock_lt inside
    have := h.behind
    obtain rfl | hz := Finset.mem_insert.mp hz
    · exact .inr (by omega)
    · exact .inl hz

theorem LogApart.boundary (h : LogApart s) (step : OpBoundary s t) :
    LogApart t ∧ t.view.sb = s.view.sb := by
  have sb : t.view.sb = s.view.sb := by
    have := s.view.dataStart_pos
    have := h.behind
    rw [View.sb, step.low 1 (by omega)]
    rfl
  refine ⟨⟨?_, ?_, step.nonneg, ?_, ?_⟩, sb⟩
  · rw [View.dataStart_congr sb, step.start]
    exact h.behind
  · intro x hx
    obtain ⟨size, free⟩ := View.mem_free.mp hx
    rw [sb] at size
    have bit := View.bblock_lt size
    have := h.behind
    rw [View.used, sb, step.low _ (by omega)] at free
    rw [View.dataStart_congr sb]
    exact h.low x (View.mem_free.mpr ⟨size, free⟩)
  · rw [step.start]
    exact fun z hz => h.sectors z (step.sectors z hz)
  · rw [step.logged]
    intro z hz
    cases hz

/-- A call that allocates only before the log keeps it apart. -/
theorem BlockStep.apart {c : BlockCall} (h : LogApart s) (step : BlockStep s c t)
    (roomy : c.Roomy s) : LogApart t ∧ t.view.sb = s.view.sb := by
  obtain ⟨proper, after⟩ := step
  cases c with
  | beginOp =>
    obtain ⟨_, run⟩ := FsCall.of_returned after
    exact h.boundary (beginOp_transaction h.nonneg run)
  | endOp =>
    obtain ⟨_, run⟩ := FsCall.of_returned after
    exact h.boundary (endOp_transaction h.nonneg h.sectors run)
  | balloc =>
    obtain ⟨_, run⟩ := FsCall.of_returned after
    exact (h.balloc roomy run).1
  | bfree b =>
    obtain ⟨_, run⟩ := FsCall.of_returned after
    exact h.bfree proper.1 proper.2 run

/-- The start of the log stays. -/
def startFrame : Frame Fs where
  rel s t := t.log.log.start = s.log.log.start
  refl _ := rfl
  trans h k := k.trans h

theorem startFrame_table : TableFrame startFrame :=
  .of_fields fun _ _ _ _ _ => rfl

theorem endOp_start (run : endOp.run s = .ok ((), t)) : t.log.log.start = s.log.log.start := by
  simp only [endOp, FsM.get_bind] at run
  split at run
  · cases run
  · split at run
    · cases run
      let m : LogState := { s.log with
        log := { s.log.log with outstanding := s.log.log.outstanding - 1 } }
      show m.commit.log.start = s.log.log.start
      rw [m.commit_log]
    · cases run
      rfl

theorem BlockStep.start {c : BlockCall} (step : BlockStep s c t) :
    t.log.log.start = s.log.log.start := by
  obtain ⟨_, after⟩ := step
  cases c with
  | beginOp =>
    obtain ⟨_, run⟩ := FsCall.of_returned after
    simp only [Xv6Gui.beginOp, FsM.get_bind] at run
    split at run
    · cases run
    · cases run
      rfl
  | endOp =>
    obtain ⟨_, run⟩ := FsCall.of_returned after
    exact endOp_start run
  | balloc =>
    obtain ⟨_, run⟩ := FsCall.of_returned after
    exact startFrame_table.content.balloc.rel run
  | bfree b =>
    obtain ⟨_, run⟩ := FsCall.of_returned after
    exact (startFrame_table.content.bfree b).rel run

theorem Booted.apart (h : Booted s) : LogApart s := by
  have sound := h.sound
  exact ⟨h.behind, h.owned.low, sound.nonneg, sound.sectors, sound.logged⟩

end Xv6Gui
