import Xv6Gui.Fs.Block
import Xv6Gui.Lib.Redo

/-!
# The log

The functions of `log.c` that read and write the disk, over the buffers of
`bio.c`.

A buffer that is in the cache has been read, and it stays there: `bget` takes a
buffer away from its sector only when it is clean, and then the next `bread`
finds the same data on the disk.  How many buffers there are is not part of this
state.  The device is always `ROOTDEV`.

Every call of `bwrite` is a single write of a sector and is recorded in
`writes`, so that a crash can be placed between two of them.
-/

namespace Xv6Gui

open Function (update update_self update_of_ne)

/-! ## Buffers -/

/-- A buffer with `B_VALID`. -/
structure Buf where
  data : Block
  /-- `B_DIRTY`. -/
  dirty : Bool

/-- The disk, its cache, and all writes so far. -/
structure Bio where
  disk : Nat → Block
  cache : Nat → Option Buf
  /-- Ghost: the writes to the disk so far, the first one first. -/
  writes : List (Nat × Block)

namespace Bio

/-- What a sector holds for the kernel: its buffer, or else the disk. -/
def data (m : Bio) (sector : Nat) : Block :=
  match m.cache sector with
  | some b => b.data
  | none => m.disk sector

/-- `bread`: the data of the buffer, and the buffer in the cache.  `B_BUSY` is left out: a commit that
reads a block of the log that is also held as a block of a file returns here and sleeps in the
kernel. -/
def bread (m : Bio) (sector : Nat) : Block × Bio :=
  match m.cache sector with
  | some b => (b.data, m)
  | none =>
    (m.disk sector,
      { m with cache := update m.cache sector (some ⟨m.disk sector, false⟩) })

/-- `bwrite` of a buffer whose data is now `data`. -/
def bwrite (m : Bio) (sector : Nat) (data : Block) : Bio where
  disk := update m.disk sector data
  cache := update m.cache sector (some ⟨data, false⟩)
  writes := m.writes ++ [(sector, data)]

variable (m : Bio) (sector : Nat)

theorem bread_fst : (m.bread sector).1 = m.data sector := by
  rw [bread, data]
  split <;> rfl

theorem bread_disk : (m.bread sector).2.disk = m.disk := by
  rw [bread]
  split <;> rfl

theorem bread_writes : (m.bread sector).2.writes = m.writes := by
  rw [bread]
  split <;> rfl

theorem bread_data : (m.bread sector).2.data = m.data := by
  funext a
  rw [bread]
  split
  · rfl
  · rename_i miss
    by_cases ha : a = sector
    · subst ha
      simp only [data, update_self, miss]
    · simp only [data, update_of_ne ha]

theorem bwrite_data (b : Block) : (m.bwrite sector b).data = update m.data sector b := by
  funext a
  by_cases ha : a = sector
  · subst ha
    simp only [data, bwrite, update_self]
  · simp only [data, bwrite, update_of_ne ha]

end Bio

/-! ## The log in memory -/

/-- `struct logheader`. -/
structure LogHeader where
  n : Int
  /-- The array `sector`, of `LOGSIZE` entries. -/
  sector : Nat → Nat

/-- The sectors in the header. -/
def LogHeader.sectors (lh : LogHeader) : List Nat := (List.range lh.n.toNat).map lh.sector

/-- The loop of `log_write` and the stores behind it.  The search ends at the
first entry that has the sector, or behind the last one. -/
def LogHeader.record (lh : LogHeader) (sector : Nat) : LogHeader :=
  let i := lh.sectors.findIdx (· = sector)
  { sector := update lh.sector i sector
    n := if (i : Int) = lh.n then lh.n + 1 else lh.n }

/-- `struct log`. -/
structure Log where
  start : Nat
  size : Nat
  outstanding : Int
  committing : Bool
  lh : LogHeader

/-- The disk and the log. -/
structure LogState where
  bio : Bio
  log : Log

namespace LogState

/-- A round of the loop of `install_trans`. -/
def installTransAt (m : LogState) (tail : Nat) : LogState :=
  let (lbuf, bio) := m.bio.bread (m.log.start + tail + 1)
  let (_, bio) := bio.bread (m.log.lh.sector tail)
  { m with bio := bio.bwrite (m.log.lh.sector tail) lbuf }

/-- `install_trans`. -/
def installTrans (m : LogState) : LogState :=
  (List.range m.log.lh.n.toNat).foldl installTransAt m

/-- `read_head`.  More sectors than the header in memory has room for would be
stored behind it. -/
def readHead (m : LogState) : Option LogState :=
  let (buf, bio) := m.bio.bread m.log.start
  let n := toInt (buf.word 0)
  if n > logSize then
    none
  else
    let sector := fun i => if i < n.toNat then buf.word (i + 1) else m.log.lh.sector i
    some { m with bio := bio, log := { m.log with lh := ⟨n, sector⟩ } }

/-- The header block for a header in memory.  Words behind the last sector stay
as they are in the buffer. -/
def encodeHead (lh : LogHeader) (buf : Block) : Block :=
  (List.range lh.n.toNat).foldl (fun buf i => buf.setWord (i + 1) (lh.sector i))
    (buf.setWord 0 (ofInt lh.n))

/-- `write_head`. -/
def writeHead (m : LogState) : LogState :=
  let (buf, bio) := m.bio.bread m.log.start
  { m with bio := bio.bwrite m.log.start (encodeHead m.log.lh buf) }

/-- `log.lh.n = 0`. -/
def clearN (m : LogState) : LogState :=
  { m with log := { m.log with lh := { m.log.lh with n := 0 } } }

/-- `recover_from_log`. -/
def recoverFromLog (m : LogState) : Option LogState := do
  let m ← m.readHead
  return m.installTrans.clearN.writeHead

/-- A round of the loop of `write_log`. -/
def writeLogAt (m : LogState) (tail : Nat) : LogState :=
  let (_, bio) := m.bio.bread (m.log.start + tail + 1)
  let (frm, bio) := bio.bread (m.log.lh.sector tail)
  { m with bio := bio.bwrite (m.log.start + tail + 1) frm }

/-- `write_log`. -/
def writeLog (m : LogState) : LogState :=
  (List.range m.log.lh.n.toNat).foldl writeLogAt m

/-- `commit`. -/
def commit (m : LogState) : LogState :=
  if m.log.lh.n > 0 then m.writeLog.writeHead.installTrans.clearN.writeHead else m

/-- `log_write` of a buffer whose data is now `data`. -/
def logWrite (m : LogState) (sector : Nat) (data : Block) : Except String LogState :=
  if m.log.lh.n ≥ logSize ∨ m.log.lh.n ≥ (m.log.size : Int) - 1 then
    .error "too big a transaction"
  else if m.log.outstanding < 1 then
    .error "log_write outside of trans"
  else
    let cache := update m.bio.cache sector (some ⟨data, true⟩)
    .ok { bio := { m.bio with cache := cache },
          log := { m.log with lh := m.log.lh.record sector } }

end LogState

/-! ## The header in memory -/

namespace LogHeader

variable {lh : LogHeader} {s : Nat}

theorem sectors_length (lh : LogHeader) : lh.sectors.length = lh.n.toNat := by
  rw [sectors, List.length_map, List.length_range]

/-- A sector that is listed is absorbed. -/
theorem record_of_mem (hn : 0 ≤ lh.n) (h : s ∈ lh.sectors) : lh.record s = lh := by
  have found := List.findIdx_lt_length_of_exists (p := (· = s)) ⟨s, h, decide_eq_true rfl⟩
  have entry : lh.sector (lh.sectors.findIdx (· = s)) = s := by
    have eq := List.findIdx_getElem (w := found)
    simpa [sectors] using eq
  rw [sectors_length] at found
  have update : update lh.sector (lh.sectors.findIdx (· = s)) s = lh.sector :=
    Function.update_eq_self_iff.mpr entry.symm
  rw [record, update, if_neg (by omega)]

/-- Another sector is appended. -/
theorem record_of_not_mem (hn : 0 ≤ lh.n) (h : s ∉ lh.sectors) :
    (lh.record s).sectors = lh.sectors ++ [s] ∧ (lh.record s).n = lh.n + 1 := by
  have index : lh.sectors.findIdx (· = s) = lh.n.toNat := by
    rw [← sectors_length, List.findIdx_eq_length]
    intro x hx
    exact decide_eq_false fun e => h (e ▸ hx)
  have n : (lh.record s).n = lh.n + 1 := by
    rw [record, index]
    exact if_pos (by omega)
  have succ : (lh.n + 1).toNat = lh.n.toNat + 1 := by omega
  refine ⟨?_, n⟩
  rw [sectors, n, succ, List.range_succ, List.map_append, sectors, List.map_singleton]
  congr 1
  · refine List.map_congr_left ?_
    intro i hi
    rw [record, index]
    exact update_of_ne (List.mem_range.mp hi).ne _ _
  · rw [record, index]
    exact congrArg (fun x => [x]) (update_self ..)

end LogHeader

end Xv6Gui
