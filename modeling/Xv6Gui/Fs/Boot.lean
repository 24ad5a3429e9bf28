import Xv6Gui.Fs.BlockOwners

/-!
# Starting the kernel

`initlog` finds the log through the super block and recovers the disk from it.  Before
it runs nothing is in the buffers, and no inode is in memory.  A log whose header is
empty leaves the disk as it is.
-/

namespace Xv6Gui

/-- `initlog`.  The device and the lock are not part of the state. -/
def initlog (disk : Nat → Block) : Option LogState :=
  let (buf, bio) := Bio.bread ⟨disk, fun _ => none, []⟩ 1
  let sb := buf.superblock
  LogState.recoverFromLog ⟨bio, ⟨sb.size - sb.nlog, sb.nlog, 0, false, ⟨0, fun _ => 0⟩⟩⟩

/-- A free slot of the inode table. -/
def unusedInode : Inode := { newDinode 0 with inum := 0, ref := 0, busy := false, valid := false }

/-- The kernel after `initlog`. -/
def boot (disk : Nat → Block) : Option Fs := do
  let log ← initlog disk
  return { log := log, icache := fun _ => unusedInode,
           ftable := fun _ => ⟨.none, false, ⟨0, ninode_pos⟩, 0⟩, logged := ∅, ops := [] }

/-- The kernel sees what is on the disk, and is at rest. -/
structure Fs.Fresh (disk : Nat → Block) (s : Fs) : Prop where
  data : s.view.data = disk
  icache : s.icache = fun _ => unusedInode
  logged : s.logged = ∅
  start : s.log.log.start = s.sb.size - s.sb.nlog
  size : s.log.log.size = s.sb.nlog
  outstanding : s.log.log.outstanding = 0
  committing : s.log.log.committing = false
  empty : s.log.log.lh.n = 0

theorem Block.setWord_zero : Block.zero.setWord 0 0 = .zero := by
  funext j
  simp only [Block.setWord, Block.zero]
  split <;> simp

/-- Recovery from an empty log. -/
theorem LogState.recover_empty {m : LogState} (header : m.bio.data m.log.start = .zero) :
    ∃ m' sector, m.recoverFromLog = some m' ∧ m'.bio.data = m.bio.data ∧
      m'.log = { m.log with lh := ⟨0, sector⟩ } := by
  have word : toInt (Block.zero.word 0) = 0 := by rw [Block.word_zero]; rfl
  have read : m.readHead = some ⟨(m.bio.bread m.log.start).2,
      { m.log with lh := ⟨0, m.log.lh.sector⟩ }⟩ := by
    simp only [readHead, Bio.bread_fst, header, word]
    rw [if_neg (by decide)]
    simp
  refine ⟨_, m.log.lh.sector, by rw [recoverFromLog, read]; rfl, ?_, rfl⟩
  simp only [installTrans, clearN, writeHead, encodeHead, Int.toNat_zero, List.range_zero,
    List.foldl_nil, Bio.bwrite_data, Bio.bread_data, Bio.bread_fst, header]
  have zero : ofInt 0 = 0 := rfl
  rw [zero, Block.setWord_zero, Function.update_eq_self_iff, header]

/-- With an empty log the kernel starts with the disk as it is. -/
theorem boot_fresh (disk : Nat → Block)
    (header : disk ((disk 1).superblock.size - (disk 1).superblock.nlog) = .zero) :
    ∃ s, boot disk = some s ∧ s.Fresh disk := by
  have data : (Bio.bread ⟨disk, fun _ => none, []⟩ 1).2.data = disk := by
    rw [Bio.bread_data]
    rfl
  obtain ⟨m, sector, run, same, log⟩ := LogState.recover_empty
    (m := ⟨(Bio.bread ⟨disk, fun _ => none, []⟩ 1).2, ⟨(disk 1).superblock.size -
      (disk 1).superblock.nlog, (disk 1).superblock.nlog, 0, false, ⟨0, fun _ => 0⟩⟩⟩)
    (by rw [data]; exact header)
  have init : initlog disk = some m := run
  refine ⟨_, by rw [boot, init]; rfl, ?_⟩
  have view : m.bio.data = disk := same.trans data
  refine ⟨view, rfl, rfl, ?_, ?_, ?_, ?_, ?_⟩
  · show m.log.start = (m.bio.data 1).superblock.size - (m.bio.data 1).superblock.nlog
    rw [view, log]
  · show m.log.size = (m.bio.data 1).superblock.nlog
    rw [view, log]
  · show m.log.outstanding = 0
    rw [log]
  · show m.log.committing = false
    rw [log]
  · show m.log.lh.n = 0
    rw [log]

variable {s : Fs} {disk : Nat → Block}

/-- The kernel starts with a disk on which blocks are owned. -/
theorem Fs.Fresh.booted (h : s.Fresh disk) (behind : s.view.dataStart ≤ s.log.log.start)
    (owned : s.view.Owned s.log.log.start) : Booted s := by
  refine ⟨h.start, h.empty, h.logged, ?_, behind, owned⟩
  intro ip
  rw [h.icache]
  rfl

end Xv6Gui
