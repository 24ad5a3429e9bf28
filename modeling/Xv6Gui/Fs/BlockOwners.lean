import Xv6Gui.Fs.CacheSteps
import Xv6Gui.Fs.Frames
import Xv6Gui.Log.CrashSafety

/-!
# No block is shared

A run of calls of the inode layer.  The calls read and write files, allocate and
free inodes, and form transactions, whose blocks `end_op` writes to the disk through
the log.

A commit overwrites the blocks of the log, which are the last ones of the disk.  But
they are not marked as used in the bitmap, so when all other blocks are in use
`balloc` gives them away.  If such a block becomes an index block of a file, the
next commits store the header of the log in it, and it lists blocks that belong to
others.

If no call takes a block of the log, then in every state every block of a file is
used and at one position only, and no block is freed twice.
-/

namespace Xv6Gui

open Effect Runs

variable {s t : Fs} {ip : InodePtr} {top : Nat}

/-! ## Commits -/

/-- A commit of sectors before the log changes nothing before the log. -/
theorem LogState.commit_data {m : LogState} (low : ∀ z ∈ m.log.lh.sectors, z < m.log.start)
    {z : Nat} (hz : z < m.log.start) : m.commit.bio.data z = m.bio.data z := by
  by_cases hn : 0 < m.log.lh.n
  · have below : ∀ i < m.log.lh.n.toNat, m.log.lh.sector i < m.log.start :=
      fun i hi => low _ (sector_mem hi)
    have apart : Apart m.log := by
      intro i hi j _
      have := below i hi
      omega
    have wrote := commit_wrote_of_apart apart (fun i hi => (below i hi).ne) hn
    have before : Redo.apply m.bio.data (m.logWrites ++ [m.headWrite]) z = m.bio.data z := by
      rw [Redo.apply_append, Redo.apply_cons, Redo.apply_nil,
        Function.update_of_ne (by exact hz.ne), logWrites_other (.inl hz.le)]
    rw [wrote.data, Redo.apply_append, Redo.apply_append, Redo.apply_cons, Redo.apply_nil,
      Function.update_of_ne hz.ne]
    by_cases there : ∃ w ∈ m.homeWrites, z = w.1
    · refine Redo.apply_of_mem ?_ there
      intro w hw
      obtain ⟨i, _, rfl⟩ := List.mem_map.mp hw
      rfl
    · rw [Redo.apply_other, before]
      intro w hw e
      exact there ⟨w, hw, e⟩
  · rw [commit, if_neg hn]

theorem LogState.foldl_log {f : LogState → Nat → LogState} (h : ∀ m i, (f m i).log = m.log)
    (m : LogState) (l : List Nat) : (l.foldl f m).log = m.log := by
  induction l generalizing m with
  | nil => rfl
  | cons i l ih => rw [List.foldl_cons, ih, h]

/-- After a commit the log is empty. -/
theorem LogState.commit_log (m : LogState) :
    m.commit.log =
      { m.log with lh := { m.log.lh with n := if m.log.lh.n > 0 then 0 else m.log.lh.n } } := by
  rw [commit]
  split
  · have install : ∀ m : LogState, m.installTrans.log = m.log :=
      fun m => foldl_log (f := installTransAt) (fun _ _ => rfl) m _
    have write : m.writeLog.log = m.log := foldl_log (f := writeLogAt) (fun _ _ => rfl) m _
    show ({ m.writeLog.writeHead.installTrans.log with
      lh := { m.writeLog.writeHead.installTrans.log.lh with n := 0 } } : Log) = _
    rw [install, show m.writeLog.writeHead.log = m.writeLog.log from rfl, write]
  · rfl

/-! ## What is logged -/

/-- The sectors listed in the log header are those from before, and those logged in
the operation. -/
structure Logs (s t : Fs) : Prop where
  start : t.log.log.start = s.log.log.start
  nonneg : 0 ≤ t.log.log.lh.n
  sectors : ∀ z ∈ t.log.log.lh.sectors, z ∈ s.log.log.lh.sectors ∨ z ∈ t.logged
  logged : s.logged ⊆ t.logged

/-- What every call keeps of the log. -/
def logsFrame : Frame Fs where
  rel s t := 0 ≤ s.log.log.lh.n → Logs s t
  refl s nonneg := ⟨rfl, nonneg, fun _ => .inl, fun _ hz => hz⟩
  trans {s t u} h k nonneg := by
    obtain ⟨start, nonneg, sectors, logged⟩ := h nonneg
    obtain ⟨start', nonneg', sectors', logged'⟩ := k nonneg
    refine ⟨start'.trans start, nonneg', ?_, fun z hz => logged' (logged hz)⟩
    intro z hz
    obtain hz | hz := sectors' z hz
    · exact (sectors z hz).imp_right fun hz => logged' hz
    · exact .inr hz

theorem logsFrame_table : TableFrame logsFrame := by
  refine ⟨?_, ?_, ?_⟩
  · intro b
    constructor
    intro s a t run nonneg
    cases run
    exact ⟨rfl, nonneg, fun _ => .inl, fun _ hz => hz⟩
  · intro b d
    constructor
    intro s a t run nonneg
    obtain ⟨-, rfl⟩ := logWrite_eq run
    by_cases mem : b ∈ s.log.log.lh.sectors
    · have same := LogHeader.record_of_mem nonneg mem
      refine ⟨rfl, ?_, ?_, fun z hz => Finset.mem_insert_of_mem hz⟩
      · rw [same]
        exact nonneg
      · rw [same]
        exact fun _ => .inl
    · obtain ⟨sectors, n⟩ := LogHeader.record_of_not_mem nonneg mem
      refine ⟨rfl, ?_, ?_, fun z hz => Finset.mem_insert_of_mem hz⟩
      · rw [n]
        omega
      · rw [sectors]
        intro z hz
        obtain hz | hz := List.mem_append.mp hz
        · exact .inl hz
        · rw [List.mem_singleton.mp hz]
          exact .inr (Finset.mem_insert_self ..)
  · intro ip f
    constructor
    intro s a t run nonneg
    cases run
    exact ⟨rfl, nonneg, fun _ => .inl, fun _ hz => hz⟩

/-! ## Sound states -/

/-- Blocks before the log determine the files, if these have no blocks in the log. -/
theorem View.Good.low_eq {v w : View} (h : v.Good top) (hi : w.icache = v.icache)
    (low : ∀ z < top, w.data z = v.data z) :
    w.sb = v.sb ∧ (∀ i < v.sb.slots, w.dnode i = v.dnode i) ∧ w.free = v.free ∧
      w.vol.node = v.vol.node := by
  have pos := v.dataStart_pos
  have sb : w.sb = v.sb := by
    rw [View.sb, View.sb, low 1 (by have := h.start; omega)]
  have dnode : ∀ i < v.sb.slots, w.dnode i = v.dnode i := by
    intro i hi
    have := View.iblock_lt_dataStart hi
    rw [View.dnode, View.dnode, low _ (by have := h.start; omega)]
  refine ⟨sb, dnode, ?_, ?_⟩
  · rw [View.free, View.free, sb]
    refine List.filter_congr ?_
    intro b hb
    have := View.bblock_lt (List.mem_range.mp hb)
    rw [View.used, View.used, sb, low _ (by have := h.start; omega)]
  · rw [View.vol_congr hi sb dnode]
    refine Volume.node_congr ?_
    intro q k x _ hx
    cases x with
    | root | inode i => rfl
    | block b =>
      have same : w.data b = v.vol.data b := low b (h.owned.mapped q b hx).2.1
      simp only [Volume.kid, same]

theorem View.Good.of_low {v w : View} (h : v.Good top) (hi : w.icache = v.icache)
    (low : ∀ z < top, w.data z = v.data z) : w.Good top := by
  obtain ⟨sb, dnode, free, node⟩ := h.low_eq hi low
  have start := View.dataStart_congr sb
  refine ⟨start ▸ h.start, ⟨sb ▸ h.owned.top_le, ?_, ?_, ?_⟩, h.coherent.congr hi sb dnode⟩
  · intro q r x hq hr
    rw [node] at hq hr
    exact h.owned.separate q r x hq hr
  · intro q b hq
    rw [node] at hq
    obtain ⟨le, lt, used⟩ := h.owned.mapped q b hq
    have size := lt.trans_le h.owned.top_le
    have busy : b ∉ w.free := by
      rw [free, View.mem_free]
      rintro ⟨_, clear⟩
      rw [used] at clear
      cases clear
    rw [View.mem_free, sb] at busy
    rw [start]
    exact ⟨le, lt, by simpa [size] using busy⟩
  · rw [free, start]
    exact h.owned.low

/-- A state in which nothing in the log or in a file is in the way of the other. -/
structure Fs.Sound (s : Fs) : Prop where
  good : s.view.Good s.log.log.start
  nonneg : 0 ≤ s.log.log.lh.n
  sectors : ∀ z ∈ s.log.log.lh.sectors, z < s.log.log.start
  logged : ∀ z ∈ s.logged, z < s.log.log.start

/-- A call that is not the start or the end of a transaction. -/
theorem Fs.Sound.keeps (h : s.Sound) (logs : Logs s t)
    (keeps : View.Keeps s.log.log.start s.view t.view) : t.Sound := by
  have logged : ∀ z ∈ t.logged, z < s.log.log.start := by
    intro z hz
    obtain hz | hz := keeps.logged z hz
    · exact h.logged z hz
    · exact hz
  refine ⟨?_, logs.nonneg, ?_, ?_⟩
  · rw [logs.start]
    exact keeps.good
  · rw [logs.start]
    intro z hz
    obtain hz | hz := logs.sectors z hz
    · exact h.sectors z hz
    · exact logged z hz
  · rw [logs.start]
    exact logged

/-- The start and the end of a transaction change nothing before the log but the list
of sectors. -/
structure OpBoundary (s t : Fs) : Prop where
  icache : t.icache = s.icache
  start : t.log.log.start = s.log.log.start
  low : ∀ z < s.log.log.start, t.view.data z = s.view.data z
  nonneg : 0 ≤ t.log.log.lh.n
  sectors : ∀ z ∈ t.log.log.lh.sectors, z ∈ s.log.log.lh.sectors
  logged : t.logged = ∅

theorem beginOp_transaction (nonneg : 0 ≤ s.log.log.lh.n) (run : beginOp.run s = .ok ((), t)) :
    OpBoundary s t := by
  simp only [beginOp, FsM.get_bind] at run
  split at run
  · cases run
  · cases run
    exact ⟨rfl, rfl, fun _ _ => rfl, nonneg, fun _ hz => hz, rfl⟩

theorem endOp_transaction (nonneg : 0 ≤ s.log.log.lh.n)
    (sectors : ∀ z ∈ s.log.log.lh.sectors, z < s.log.log.start)
    (run : endOp.run s = .ok ((), t)) : OpBoundary s t := by
  simp only [endOp, FsM.get_bind] at run
  split at run
  · cases run
  · split at run
    · cases run
      let m : LogState := { s.log with
        log := { s.log.log with outstanding := s.log.log.outstanding - 1 } }
      have log := m.commit_log
      have n : m.commit.log.lh.n = 0 := by
        rw [log]
        show (if s.log.log.lh.n > 0 then 0 else s.log.log.lh.n) = 0
        split <;> omega
      have none : m.commit.log.lh.sectors = [] := by
        rw [LogHeader.sectors, n]
        rfl
      have start : m.commit.log.start = s.log.log.start := by rw [log]
      have low : ∀ z < s.log.log.start, m.commit.bio.data z = s.view.data z :=
        fun z hz => LogState.commit_data (m := m) sectors hz
      refine ⟨rfl, start, low, n.ge, ?_, rfl⟩
      intro z hz
      have hz : z ∈ m.commit.log.lh.sectors := hz
      rw [none] at hz
      cases hz
    · cases run
      exact ⟨rfl, rfl, fun _ _ => rfl, nonneg, fun _ hz => hz, rfl⟩

theorem OpBoundary.sound (h : s.Sound) (step : OpBoundary s t) : t.Sound := by
  refine ⟨?_, step.nonneg, ?_, ?_⟩
  · rw [step.start]
    exact h.good.of_low step.icache step.low
  · rw [step.start]
    exact fun z hz => h.sectors z (step.sectors z hz)
  · rw [step.logged]
    intro z hz
    cases hz

/-! ## Calls -/

/-- The calls into the inode layer, and the starts and the ends of transactions. -/
inductive FsCall where
  | beginOp
  | endOp
  | iget (inum : Nat)
  | idup (ip : InodePtr)
  | ilock (ip : InodePtr)
  | iunlock (ip : InodePtr)
  | ialloc (type : Int)
  | readi (input : Option (List UInt8)) (ip : InodePtr) (off n : Nat)
  | writei (ip : InodePtr) (src : Nat → UInt8) (off n : Nat)
  | itrunc (ip : InodePtr)
  | iput (ip : InodePtr)

namespace FsCall

/-- The state after a call. -/
def after (s : Fs) : FsCall → Option Fs
  | .beginOp => returned (Xv6Gui.beginOp.run s)
  | .endOp => returned (Xv6Gui.endOp.run s)
  | .iget inum => returned ((Xv6Gui.iget inum).run s)
  | .idup ip => returned ((Xv6Gui.idup ip).run s)
  | .ilock ip => returned ((Xv6Gui.ilock ip).run s)
  | .iunlock ip => returned ((Xv6Gui.iunlock ip).run s)
  | .ialloc type => returned ((Xv6Gui.ialloc type).run s)
  | .readi input ip off n => returned ((Xv6Gui.readi input ip off n).run s)
  | .writei ip src off n => returned ((Xv6Gui.writei ip src off n).run s)
  | .itrunc ip => returned ((Xv6Gui.itrunc ip).run s)
  | .iput ip => returned ((Xv6Gui.iput ip).run s)
where
  returned {α : Type} (r : Except Halt (α × Fs)) : Option Fs := r.toOption.map Prod.snd

/-- What callers keep to.  A pointer is a reference to an inode, `readi`, `writei` and
`itrunc` get an inode that was read from the disk, and numbers fit their types. -/
def Proper (s : Fs) : FsCall → Prop
  | .iget inum => inum < s.view.sb.slots
  | .idup ip | .iput ip => 0 < (s.icache ip).ref
  | .ialloc type => -2 ^ 15 ≤ type ∧ type < 2 ^ 15
  | .readi _ ip off n | .writei ip _ off n => s.view.Held ip ∧ off < 2 ^ 32 ∧ n < 2 ^ 32
  | .itrunc ip => s.view.Held ip
  | .beginOp | .endOp | .ilock _ | .iunlock _ => True

/-- The free blocks a call takes lie before the log. -/
def Below (s : Fs) : FsCall → Prop
  | .readi _ ip off n => ReadsBelow s.view s.log.log.start ip off n
  | .writei ip _ off n => WritesBelow s.view s.log.log.start ip off n
  | _ => True

instance (s : Fs) : (c : FsCall) → Decidable (c.Proper s)
  | .iget inum => inferInstanceAs (Decidable (inum < s.view.sb.slots))
  | .idup ip | .iput ip => inferInstanceAs (Decidable (0 < (s.icache ip).ref))
  | .ialloc type => inferInstanceAs (Decidable (-2 ^ 15 ≤ type ∧ type < 2 ^ 15))
  | .readi _ ip off n | .writei ip _ off n =>
    inferInstanceAs (Decidable (s.view.Held ip ∧ off < 2 ^ 32 ∧ n < 2 ^ 32))
  | .itrunc ip => inferInstanceAs (Decidable (s.view.Held ip))
  | .beginOp | .endOp | .ilock _ | .iunlock _ => .isTrue trivial

instance (s : Fs) : (c : FsCall) → Decidable (c.Below s)
  | .readi _ ip off n => inferInstanceAs (Decidable (ReadsBelow s.view s.log.log.start ip off n))
  | .writei ip _ off n => inferInstanceAs (Decidable (WritesBelow s.view s.log.log.start ip off n))
  | .beginOp | .endOp | .iget _ | .idup _ | .ilock _ | .iunlock _ | .ialloc _ | .itrunc _
  | .iput _ => .isTrue trivial

end FsCall

/-- A proper call that returns. -/
abbrev FsStep : Fs → FsCall → Fs → Prop :=
  Guarded (fun s c t => c.after s = some t) fun s c => c.Proper s

theorem FsCall.of_returned {α : Type} {r : Except Halt (α × Fs)}
    (h : after.returned r = some t) : ∃ a, r = .ok (a, t) := by
  cases r with
  | error e => cases h
  | ok x =>
    cases h
    exact ⟨x.1, rfl⟩

theorem FsStep.sound {c : FsCall} (h : s.Sound) (step : FsStep s c t) (below : c.Below s) :
    t.Sound := by
  obtain ⟨proper, after⟩ := step
  -- calls inside of a transaction are table functions
  have inside : ∀ {α : Type} {x : FsM α} {a : α}, Respects logsFrame x →
      x.run s = .ok (a, t) → View.Keeps s.log.log.start s.view t.view → t.Sound :=
    fun respects run keeps => h.keeps (respects.rel run h.nonneg) keeps
  cases c with
  | beginOp =>
    obtain ⟨_, run⟩ := FsCall.of_returned after
    exact (beginOp_transaction h.nonneg run).sound h
  | endOp =>
    obtain ⟨_, run⟩ := FsCall.of_returned after
    exact (endOp_transaction h.nonneg h.sectors run).sound h
  | iget inum =>
    obtain ⟨_, run⟩ := FsCall.of_returned after
    exact inside (logsFrame_table.iget inum) run (iget_keeps h.good proper run).1
  | idup ip =>
    obtain ⟨_, run⟩ := FsCall.of_returned after
    exact inside (logsFrame_table.idup ip) run (idup_keeps h.good proper run)
  | ilock ip =>
    obtain ⟨_, run⟩ := FsCall.of_returned after
    exact inside (logsFrame_table.ilock ip) run (ilock_keeps h.good run).1
  | iunlock ip =>
    obtain ⟨_, run⟩ := FsCall.of_returned after
    exact inside (logsFrame_table.iunlock ip) run (iunlock_keeps h.good run)
  | ialloc type =>
    obtain ⟨_, run⟩ := FsCall.of_returned after
    exact inside (logsFrame_table.ialloc type) run (ialloc_keeps h.good proper run).1
  | readi input ip off n =>
    obtain ⟨_, run⟩ := FsCall.of_returned after
    exact inside (logsFrame_table.readi ..) run
      (readi_keeps h.good proper.1 proper.2.1 proper.2.2 below run)
  | writei ip src off n =>
    obtain ⟨_, run⟩ := FsCall.of_returned after
    exact inside (logsFrame_table.writei ..) run
      (writei_keeps h.good proper.1 proper.2.1 proper.2.2 below run)
  | itrunc ip =>
    obtain ⟨_, run⟩ := FsCall.of_returned after
    exact inside (logsFrame_table.content.itrunc ip) run (itrunc_keeps h.good proper run)
  | iput ip =>
    obtain ⟨_, run⟩ := FsCall.of_returned after
    exact inside (logsFrame_table.iput ip) run (iput_keeps h.good proper run)

/-- The state after `boot`. -/
structure Booted (s : Fs) : Prop where
  start : s.log.log.start = s.sb.size - s.sb.nlog
  empty : s.log.log.lh.n = 0
  logged : s.logged = ∅
  refs : ∀ ip, (s.icache ip).ref = 0
  behind : s.view.dataStart ≤ s.log.log.start
  owned : s.view.Owned s.log.log.start

theorem Booted.sound (h : Booted s) : s.Sound := by
  have none : ∀ ip, ¬ 0 < (s.view.icache ip).ref := by
    intro ip
    rw [show (s.view.icache ip).ref = 0 from h.refs ip]
    exact lt_irrefl 0
  refine ⟨⟨h.behind, h.owned, ?_⟩, h.empty.ge, ?_, ?_⟩
  · exact ⟨fun ip => (h.refs ip).ge, fun ip href => absurd href (none ip),
      fun ip _ href => absurd href (none ip), fun ip href => absurd href (none ip),
      fun ip href => absurd href (none ip), fun ip href => absurd href (none ip)⟩
  · rw [LogHeader.sectors, h.empty]
    intro z hz
    cases hz
  · rw [h.logged]
    intro z hz
    cases hz

/-- In a state that is reached without blocks of the log, each block of a file is used,
behind the bitmap, and at one position of one inode; `balloc` returns none of them; and
a file can be freed. -/
theorem blocks_have_one_owner {s₀ : Fs} {calls : List FsCall} (boot : Booted s₀)
    (run : Steps (Guarded FsStep fun s c => c.Below s) s₀ calls s) :
    (∀ q b, s.view.vol.node q = some (.block b) →
        s.view.used b = true ∧ s.view.dataStart ≤ b ∧ b < s.log.log.start ∧
          ∀ r, s.view.vol.node r = some (.block b) → r = q) ∧
      (∀ b t, balloc.run s = .ok (b, t) → ∀ q, s.view.vol.node q ≠ some (.block b)) ∧
      (∀ ip, s.view.Held ip → (itrunc ip).run s ≠ .error (.panic "freeing free block")) ∧
      ∀ ip, 0 < (s.icache ip).ref → (iput ip).run s ≠ .error (.panic "freeing free block") := by
  have sound : s.Sound := run.invariant boot.sound fun h step => step.2.sound h step.1
  obtain ⟨good, _⟩ := sound
  refine ⟨?_, ?_, ?_, ?_⟩
  · intro q b hq
    obtain ⟨le, lt, used⟩ := good.owned.mapped q b hq
    exact ⟨used, le, lt, fun r hr => good.owned.separate r q _ hr hq⟩
  · intro b t alloc q hq
    obtain ⟨_, _, clear, _⟩ := balloc_ok alloc
    rw [(good.owned.mapped q b hq).2.2] at clear
    cases clear
  · intro ip held halt
    have log := (itrunc_spec (good.inUse held)).error rfl halt
    exact absurd log (by decide)
  · intro ip href halt
    have log := (iput_triple good href).error rfl halt
    exact absurd log (by decide)

/-- The sectors of a small disk with a file of `k` blocks.  Between the bitmap and the
log there are eleven blocks. -/
def smallDisk (k b : Nat) : Block :=
  if b = 1 then
    (((Block.zero.setWord 0 46).setWord 1 11).setWord 2 8).setWord 3 logSize
  else if b = 2 then
    Block.zero.setDinode 1 ⟨2, 0, 0, 1, k * bsize, fun i => if i.val < k then 5 + i else 0⟩
  else if b = 4 then
    (List.range (5 + k)).foldl Block.setBit .zero
  else
    .zero

/-- The small disk, with nothing in memory. -/
def smallImage (k : Nat) : Fs where
  log := ⟨⟨smallDisk k, fun _ => none, []⟩, ⟨16, logSize, 0, false, ⟨0, fun _ => 0⟩⟩⟩
  icache _ := { newDinode 0 with inum := 0, ref := 0, busy := false, valid := false }
  ftable _ := ⟨.none, false, ⟨0, ninode_pos⟩, 0⟩
  logged := ∅
  ops := []

theorem smallImage_direct {k : Nat} (hk : k = 10 ∨ k = 11) :
    (smallImage k).view.Direct 16 5 16 fun b => (1, b - 5) := by
  obtain rfl | rfl := hk <;> constructor <;> decide +kernel

theorem smallImage_booted {k : Nat} (hk : k = 10 ∨ k = 11) : Booted (smallImage k) := by
  have start : (smallImage k).sb.size - (smallImage k).sb.nlog = 16 := by
    obtain rfl | rfl := hk <;> decide +kernel
  have direct := smallImage_direct hk
  refine ⟨start.symm, rfl, rfl, fun _ => rfl, ?_, direct.owned⟩
  rw [direct.dataStart]
  show 5 ≤ 16
  decide

/-- A file of ten blocks gets the last block before the log. -/
theorem blocks_have_one_owner_last :
    ∃ s : Fs, s.view.vol.node [1, 10] = some (.block 15) ∧
      ∀ q b, s.view.vol.node q = some (.block b) →
        s.view.used b = true ∧ s.view.dataStart ≤ b ∧ b < s.log.log.start ∧
          ∀ r, s.view.vol.node r = some (.block b) → r = q := by
  have run : (Runs.exec (guardedBy (guardedBy (fun s c => FsCall.after s c) fun s c => c.Proper s)
      fun s c => c.Below s) (smallImage 10) [.beginOp, .iget 1, .ilock ⟨0, by decide⟩,
        .writei ⟨0, by decide⟩ (fun _ => 7) 5120 1, .endOp]).map
          (fun s => s.view.vol.node [1, 10]) = some (some (.block 15)) := by
    decide +kernel
  obtain ⟨s, hs, last⟩ := Option.map_eq_some_iff.mp run
  have steps : Steps (Guarded FsStep fun s c => c.Below s) (smallImage 10) _ s :=
    Steps.mono (fun h => ⟨h.1, guarded_of_guardedBy h.2⟩) (Steps.of_exec_guardedBy hs)
  exact ⟨s, last, (blocks_have_one_owner (smallImage_booted (.inl rfl)) steps).1⟩

/-- All blocks before the log are used, and the file grows into the log.  The next
commit writes the header of the log to its index block, and with it the number of the
first block of the file. -/
theorem block_has_two_owners :
    ∃ calls s, Booted (smallImage 11) ∧ Steps FsStep (smallImage 11) calls s ∧
      s.view.vol.node [1, 0] = some (.block 5) ∧ s.view.vol.node [1, 11, 1] = some (.block 5) := by
  have run : (Runs.exec (guardedBy (fun s c => FsCall.after s c) fun s c => c.Proper s)
      (smallImage 11)
      [.beginOp, .iget 1, .ilock ⟨0, by decide⟩,
        .writei ⟨0, by decide⟩ (fun _ => 7) 5632 1, .endOp, .beginOp,
          .writei ⟨0, by decide⟩ (fun _ => 7) 0 1, .endOp]).map
          (fun s => (s.view.vol.node [1, 0], s.view.vol.node [1, 11, 1])) =
            some (some (.block 5), some (.block 5)) := by
    decide +kernel
  obtain ⟨s, hs, nodes⟩ := Option.map_eq_some_iff.mp run
  rw [Prod.mk.injEq] at nodes
  exact ⟨_, s, smallImage_booted (.inr rfl), Steps.of_exec_guardedBy hs, nodes⟩

end Xv6Gui
