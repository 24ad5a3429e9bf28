import Xv6Gui.Log.Commit

/-!
# Crash safety of the log

A crash leaves the disk after some of the writes of `commit`, and then
`recover_from_log` runs, which may crash itself.  The blocks outside the log
area end up all old or all new.

The disk stands for its contents with the transaction in the log done.  Writing
log blocks does not change what it stands for, as long as the header says that
the log is empty.  The write of the header is the one step from old to new.
From there `commit` does what recovery does.
-/

namespace Xv6Gui

open Redo

/-! ## Writes of the functions -/

/-- The buffers `m'` come from `m` by some writes. -/
structure Bio.Wrote (ws : List (Nat × Block)) (m m' : Bio) : Prop where
  writes : m'.writes = m.writes ++ ws
  disk : m'.disk = apply m.disk ws
  data : m'.data = apply m.data ws

theorem Bio.Wrote.trans {m m' m'' : Bio} {vs ws : List (Nat × Block)} (h : Wrote vs m m')
    (k : Wrote ws m' m'') : Wrote (vs ++ ws) m m'' where
  writes := by rw [k.writes, h.writes, List.append_assoc]
  disk := by rw [k.disk, h.disk, apply_append]
  data := by rw [k.data, h.data, apply_append]

/-- Some reads and a write. -/
theorem Bio.Wrote.bwrite {m m' : Bio} {s : Nat} {b : Block} (hw : m'.writes = m.writes)
    (hd : m'.disk = m.disk) (hb : m'.data = m.data) : Wrote [(s, b)] m (m'.bwrite s b) where
  writes := by rw [Bio.bwrite, hw]
  disk := by rw [Bio.bwrite, hd, apply_cons, apply_nil]
  data := by rw [Bio.bwrite_data, hb, apply_cons, apply_nil]

namespace LogState

variable {m m' : LogState}

variable {e : Nat → Block}

/-- The state `m'` comes from `m` by some writes.  The log in memory stays. -/
structure Wrote (ws : List (Nat × Block)) (m m' : LogState) : Prop where
  log : m'.log = m.log
  bio : Bio.Wrote ws m.bio m'.bio

theorem Wrote.refl (m : LogState) : Wrote [] m m := ⟨rfl, (List.append_nil _).symm, rfl, rfl⟩

theorem Wrote.trans {m'' : LogState} {vs ws : List (Nat × Block)} (h : Wrote vs m m')
    (k : Wrote ws m' m'') : Wrote (vs ++ ws) m m'' :=
  ⟨k.log.trans h.log, h.bio.trans k.bio⟩

/-- A loop whose rounds make one write each. -/
theorem Wrote.loop {f : LogState → Nat → LogState} {g : Nat → Nat × Block} {n : Nat}
    (h : ∀ i < n, ∀ m', Wrote ((List.range i).map g) m m' → Wrote [g i] m' (f m' i)) :
    Wrote ((List.range n).map g) m ((List.range n).foldl f m) := by
  induction n with
  | zero => exact .refl m
  | succ n ih =>
    have before := ih fun i hi => h i (Nat.lt_succ_of_lt hi)
    rw [List.range_succ, List.map_append, List.foldl_append]
    exact before.trans (h n (Nat.lt_succ_self n) _ before)

theorem writeLogAt_wrote (m : LogState) (tail : Nat) :
    Wrote [(m.log.start + tail + 1, m.bio.data (m.log.lh.sector tail))] m (m.writeLogAt tail) := by
  refine ⟨rfl, ?_⟩
  simp only [writeLogAt, Bio.bread_fst, Bio.bread_data]
  refine .bwrite ?_ ?_ ?_
  · rw [Bio.bread_writes, Bio.bread_writes]
  · rw [Bio.bread_disk, Bio.bread_disk]
  · rw [Bio.bread_data, Bio.bread_data]

theorem installTransAt_wrote (m : LogState) (tail : Nat) :
    Wrote [(m.log.lh.sector tail, m.bio.data (m.log.start + tail + 1))] m
      (m.installTransAt tail) := by
  refine ⟨rfl, ?_⟩
  simp only [installTransAt, Bio.bread_fst]
  refine .bwrite ?_ ?_ ?_
  · rw [Bio.bread_writes, Bio.bread_writes]
  · rw [Bio.bread_disk, Bio.bread_disk]
  · rw [Bio.bread_data, Bio.bread_data]

theorem writeHead_wrote (m : LogState) :
    Wrote [(m.log.start, encodeHead m.log.lh (m.bio.data m.log.start))] m m.writeHead := by
  refine ⟨rfl, ?_⟩
  simp only [writeHead, Bio.bread_fst]
  exact .bwrite (Bio.bread_writes ..) (Bio.bread_disk ..) (Bio.bread_data ..)

/-- The sectors of the header are not the log blocks that belong to them. -/
def Apart (l : Log) : Prop :=
  ∀ i < l.lh.n.toNat, ∀ j < l.lh.n.toNat, l.lh.sector i ≠ l.start + j + 1

theorem writeLog_wrote (h : Apart m.log) :
    Wrote ((List.range m.log.lh.n.toNat).map fun i =>
      (m.log.start + i + 1, m.bio.data (m.log.lh.sector i))) m m.writeLog := by
  refine Wrote.loop ?_
  intro i hi m' hm
  have one := writeLogAt_wrote m' i
  have kept : m'.bio.data (m.log.lh.sector i) = m.bio.data (m.log.lh.sector i) := by
    rw [hm.bio.data]
    refine apply_other ?_
    intro w hw
    obtain ⟨j, hj, rfl⟩ := List.mem_map.mp hw
    exact h i hi j (by simp only [List.mem_range] at hj; omega)
  rw [hm.log, kept] at one
  exact one

theorem installTrans_wrote (h : Apart m.log) :
    Wrote ((List.range m.log.lh.n.toNat).map fun i =>
      (m.log.lh.sector i, m.bio.data (m.log.start + i + 1))) m m.installTrans := by
  refine Wrote.loop ?_
  intro i hi m' hm
  have one := installTransAt_wrote m' i
  have kept : m'.bio.data (m.log.start + i + 1) = m.bio.data (m.log.start + i + 1) := by
    rw [hm.bio.data]
    refine apply_other ?_
    intro w hw
    obtain ⟨j, hj, rfl⟩ := List.mem_map.mp hw
    exact (h j (by simp only [List.mem_range] at hj; omega) i hi).symm
  rw [hm.log, kept] at one
  exact one

/-! ## The header block -/

variable {lh : LogHeader} {buf : Block}

theorem encodeHead_word_zero (lh : LogHeader) (buf : Block) :
    (encodeHead lh buf).word 0 = ofInt lh.n := by
  have loop : ∀ (is : List Nat) (b : Block),
      (is.foldl (fun buf i => buf.setWord (i + 1) (lh.sector i)) b).word 0 = b.word 0 := by
    intro is
    induction is with
    | nil => exact fun b => rfl
    | cons i is ih =>
      intro b
      rw [List.foldl_cons, ih, Block.word_setWord_of_ne (Nat.succ_ne_zero i).symm]
  rw [encodeHead, loop, Block.word_setWord_self (by decide), Nat.mod_eq_of_lt (ofInt_lt _)]

theorem encodeHead_word_succ (hn : lh.n ≤ logSize) (hs : ∀ i < lh.n.toNat, lh.sector i < 2 ^ 32)
    {i : Nat} (hi : i < lh.n.toNat) : (encodeHead lh buf).word (i + 1) = lh.sector i := by
  have loop : ∀ n, n ≤ lh.n.toNat → i < n → ∀ b : Block,
      ((List.range n).foldl (fun buf i => buf.setWord (i + 1) (lh.sector i)) b).word (i + 1) =
        lh.sector i := by
    intro n
    induction n with
    | zero => exact fun _ h => absurd h (Nat.not_lt_zero i)
    | succ n ih =>
      intro hle hin b
      rw [List.range_succ, List.foldl_append, List.foldl_cons, List.foldl_nil]
      by_cases hi : i = n
      · subst hi
        rw [Block.word_setWord_self, Nat.mod_eq_of_lt (hs i hle)]
        simp only [logSize, maxOpBlocks, bsize] at *
        omega
      · rw [Block.word_setWord_of_ne (by omega)]
        exact ih (by omega) (by omega) b
  exact loop _ le_rfl hi _

/-! ## The layout -/

/-- `n` in the header on the disk. -/
def headN (start : Nat) (d : Nat → Block) : Int := toInt ((d start).word 0)

/-- What recovery writes. -/
def headWrites (start : Nat) (d : Nat → Block) : List (Nat × Block) :=
  (List.range (headN start d).toNat).map fun i => ((d start).word (i + 1), d (start + i + 1))

theorem headN_eq_zero {start : Nat} {d : Nat → Block} :
    headN start d = 0 ↔ (d start).word 0 = 0 := by
  have := (d start).word_lt 0
  rw [headN, toInt]
  split <;> omega

theorem headWrites_congr {start : Nat} {d d' : Nat → Block} (h₀ : d' start = d start)
    (h : ∀ i < (headN start d).toNat, d' (start + i + 1) = d (start + i + 1)) :
    headWrites start d' = headWrites start d := by
  have n : headN start d' = headN start d := by rw [headN, headN, h₀]
  rw [headWrites, headWrites, n]
  refine List.map_congr_left ?_
  intro i hi
  rw [h₀, h i (List.mem_range.mp hi)]

/-- The log on a disk: a header block and the log blocks behind it. -/
def layout (start size : Nat) (hsize : 0 < size) : Layout Nat Block where
  area := { a | start ≤ a ∧ a < start + size }
  pending d :=
    if headN start d ≤ logSize ∧ headN start d < size then some (headWrites start d) else none
  empty d := (d start).word 0 = 0
  clear d := (start, (d start).setWord 0 0)
  pending_congr := by
    intro d d' h
    have h₀ : d' start = d start := h start ⟨le_rfl, by omega⟩
    have n : headN start d' = headN start d := by rw [headN, headN, h₀]
    rw [n]
    split
    · rename_i hn
      rw [headWrites_congr h₀]
      intro i hi
      exact h _ ⟨by omega, by omega⟩
    · rfl
  clear_mem d := ⟨le_rfl, Nat.lt_add_of_pos_right hsize⟩
  empty_clear d := by
    rw [Function.update_self, Block.word_setWord_self (by decide), Nat.zero_mod]
  pending_of_empty := by
    intro d h
    have n : headN start d = 0 := headN_eq_zero.mpr h
    have room : headN start d ≤ logSize ∧ headN start d < size := by
      rw [n]
      exact ⟨by decide, by exact_mod_cast hsize⟩
    rw [if_pos room, headWrites, n]
    rfl

/-! ## Recovery -/

/-- The memory after a start: nothing is cached, and `initlog` has set `start`
and `size`. -/
def boot (start size : Nat) (d : Nat → Block) : LogState where
  bio := ⟨d, fun _ => none, []⟩
  log := ⟨start, size, 0, false, ⟨0, fun _ => 0⟩⟩

/-- The writes of `recover_from_log` after a start. -/
def recoverWrites (start size : Nat) (d : Nat → Block) : Option (List (Nat × Block)) :=
  (boot start size d).recoverFromLog.map fun m => m.bio.writes

/-- `install_trans`, `log.lh.n = 0` and `write_head`. -/
theorem install_clear_wrote (h : Apart m.log) (hstart : ∀ i < m.log.lh.n.toNat,
    m.log.lh.sector i ≠ m.log.start) :
    Bio.Wrote (((List.range m.log.lh.n.toNat).map fun i =>
        (m.log.lh.sector i, m.bio.data (m.log.start + i + 1))) ++
      [(m.log.start, (m.bio.data m.log.start).setWord 0 0)])
      m.bio m.installTrans.clearN.writeHead.bio := by
  have install := installTrans_wrote h
  have head := (writeHead_wrote m.installTrans.clearN).bio
  have start : m.installTrans.clearN.log.start = m.log.start := by
    show m.installTrans.log.start = m.log.start
    rw [install.log]
  have kept : m.installTrans.clearN.bio.data m.log.start = m.bio.data m.log.start := by
    show m.installTrans.bio.data m.log.start = m.bio.data m.log.start
    rw [install.bio.data]
    refine apply_other ?_
    intro w hw
    obtain ⟨i, hi, rfl⟩ := List.mem_map.mp hw
    exact (hstart i (List.mem_range.mp hi)).symm
  rw [start, kept] at head
  exact install.bio.trans head

variable {start size : Nat} {d : Nat → Block} {ws : List (Nat × Block)}

/-- `read_head` after a start. -/
theorem boot_readHead (size : Nat) (h : headN start d ≤ logSize) :
    ∃ m, (boot start size d).readHead = some m ∧ m.bio.writes = [] ∧ m.bio.data = d ∧
      m.log.start = start ∧ m.log.lh.n = headN start d ∧
        ∀ i < (headN start d).toNat, m.log.lh.sector i = (d start).word (i + 1) := by
  refine ⟨_, if_neg (not_lt.mpr h), rfl, ?_, rfl, rfl, ?_⟩
  · exact Bio.bread_data (boot start size d).bio start
  · intro i hi
    exact if_pos hi

theorem recoverWrites_eq (hsize : 0 < size) (hp : (layout start size hsize).pending d = some ws)
    (hout : ∀ w ∈ ws, w.1 ∉ (layout start size hsize).area) :
    recoverWrites start size d = some ((layout start size hsize).recover d ws) := by
  obtain ⟨⟨hn, room⟩, hws⟩ : (headN start d ≤ logSize ∧ headN start d < size) ∧
      headWrites start d = ws := Option.ite_none_right_eq_some.mp hp |>.imp_right Option.some.inj
  obtain ⟨m, hm, writes, data, hstart, n, sector⟩ := boot_readHead size hn
  have outside : ∀ i < (headN start d).toNat, ¬ (start ≤ (d start).word (i + 1) ∧
      (d start).word (i + 1) < start + size) := by
    intro i hi
    rw [← hws] at hout
    exact hout _ (List.mem_map.mpr ⟨i, List.mem_range.mpr hi, rfl⟩)
  have apart : Apart m.log := by
    intro i hi j hj
    rw [n] at hi hj
    have := outside i hi
    rw [sector i hi, hstart]
    omega
  have ne : ∀ i < m.log.lh.n.toNat, m.log.lh.sector i ≠ m.log.start := by
    intro i hi
    rw [n] at hi
    have := outside i hi
    rw [sector i hi, hstart]
    omega
  have list : ((List.range m.log.lh.n.toNat).map fun i =>
      (m.log.lh.sector i, m.bio.data (m.log.start + i + 1))) = ws := by
    rw [← hws, headWrites, n, hstart, data]
    refine List.map_congr_left ?_
    intro i hi
    rw [sector i (List.mem_range.mp hi)]
  have kept : apply d ws start = d start := by
    refine apply_other ?_
    rintro w hw e
    exact hout w hw ⟨by omega, by omega⟩
  rw [recoverWrites, recoverFromLog, hm]
  show some m.installTrans.clearN.writeHead.bio.writes = _
  rw [(install_clear_wrote apart ne).writes, writes, list, data, hstart, Layout.recover]
  show some ([] ++ (ws ++ [_])) = some (ws ++ [(start, (apply d ws start).setWord 0 0)])
  rw [kept, List.nil_append]

/-! ## Commit -/

/-- A block outside the log area. -/
def Home (l : Log) (s : Nat) : Prop := s < l.start ∨ l.start + l.size ≤ s

/-- A transaction as `log_write` records it: distinct sectors outside the log
area, as many as there is room for, with their new contents in the cache.  All
other sectors are in the cache as they are on the disk. -/
structure Recorded (m : LogState) : Prop where
  nonneg : 0 ≤ m.log.lh.n
  capacity : m.log.lh.n ≤ logSize
  room : m.log.lh.n < m.log.size
  distinct : m.log.lh.sectors.Nodup
  outside : ∀ s ∈ m.log.lh.sectors, Home m.log s
  sector_lt : ∀ s ∈ m.log.lh.sectors, s < 2 ^ 32
  coherent : ∀ s ∉ m.log.lh.sectors, m.bio.data s = m.bio.disk s

/-- With nothing logged and the cache as the disk, a transaction is recorded. -/
theorem Recorded.initial (hn : m.log.lh.n = 0) (hsize : 0 < m.log.size)
    (hdata : m.bio.data = m.bio.disk) : m.Recorded := by
  have none : m.log.lh.sectors = [] := by rw [LogHeader.sectors, hn]; rfl
  constructor
  · exact hn.ge
  · rw [hn]
    decide
  · rw [hn]
    exact_mod_cast hsize
  · rw [none]
    exact List.nodup_nil
  · rw [none]
    exact fun s hs => absurd hs List.not_mem_nil
  · rw [none]
    exact fun s hs => absurd hs List.not_mem_nil
  · exact fun s _ => congrFun hdata s

/-- `log_write` records a sector outside the log area. -/
theorem Recorded.logWrite {s : Nat} {b : Block} (h : m.Recorded) (hs : Home m.log s)
    (hlt : s < 2 ^ 32) (ok : m.logWrite s b = .ok m') : m'.Recorded := by
  rw [LogState.logWrite] at ok
  split at ok
  · cases ok
  · rename_i room
    split at ok
    · cases ok
    · cases ok
      have capacity := h.capacity
      obtain ⟨_, _⟩ := not_or.mp room
      have other : ∀ a, a ≠ s → (({ m.bio with
          cache := Function.update m.bio.cache s (some ⟨b, true⟩) } : Bio).data a =
            m.bio.data a) := by
        intro a ha
        simp only [Bio.data, Function.update_of_ne ha]
      by_cases mem : s ∈ m.log.lh.sectors
      · have same := LogHeader.record_of_mem h.nonneg mem
        exact {
          nonneg := by simpa only [same] using h.nonneg
          capacity := by simpa only [same] using h.capacity
          room := by simpa only [same] using h.room
          distinct := by simpa only [same] using h.distinct
          outside := by simpa only [same] using h.outside
          sector_lt := by simpa only [same] using h.sector_lt
          coherent := by
            intro a ha
            simp only [same] at ha
            rw [other a (fun e => ha (e ▸ mem))]
            exact h.coherent a ha }
      · obtain ⟨sectors, n⟩ := LogHeader.record_of_not_mem h.nonneg mem
        have nonneg := h.nonneg
        exact {
          nonneg := by simp only [n]; omega
          capacity := by simp only [n]; omega
          room := by simp only [n]; omega
          distinct := by
            simp only [sectors]
            exact List.nodup_append_comm.mp (List.nodup_cons.mpr ⟨mem, h.distinct⟩)
          outside := by
            simp only [sectors, List.mem_append, List.mem_singleton]
            rintro x (hx | rfl)
            · exact h.outside x hx
            · exact hs
          sector_lt := by
            simp only [sectors, List.mem_append, List.mem_singleton]
            rintro x (hx | rfl)
            · exact h.sector_lt x hx
            · exact hlt
          coherent := by
            intro a ha
            simp only [sectors, List.mem_append, List.mem_singleton, not_or] at ha
            rw [other a ha.2]
            exact h.coherent a ha.1 }

/-- The writes of a commit. -/
def commitWrites (m : LogState) : List (Nat × Block) :=
  m.commit.bio.writes.drop m.bio.writes.length

/-- The log blocks of the transaction and the header that commits it. -/
def logWrites (m : LogState) : List (Nat × Block) :=
  (List.range m.log.lh.n.toNat).map fun i =>
    (m.log.start + i + 1, m.bio.data (m.log.lh.sector i))

@[inherit_doc logWrites]
def headWrite (m : LogState) : Nat × Block :=
  (m.log.start, encodeHead m.log.lh (m.bio.data m.log.start))

/-- The blocks of the transaction in their home locations. -/
def homeWrites (m : LogState) : List (Nat × Block) :=
  (List.range m.log.lh.n.toNat).map fun i =>
    (m.log.lh.sector i, m.bio.data (m.log.lh.sector i))

theorem sector_mem {i : Nat} (hi : i < m.log.lh.n.toNat) :
    m.log.lh.sector i ∈ m.log.lh.sectors :=
  List.mem_map.mpr ⟨i, List.mem_range.mpr hi, rfl⟩

theorem logWrites_other {a : Nat}
    (h : a ≤ m.log.start ∨ m.log.start + m.log.lh.n.toNat < a) :
    apply e m.logWrites a = e a := by
  refine apply_other ?_
  intro w hw
  obtain ⟨i, hi, rfl⟩ := List.mem_map.mp hw
  have := List.mem_range.mp hi
  show a ≠ m.log.start + i + 1
  omega

theorem committed_start :
    apply e (m.logWrites ++ [m.headWrite]) m.log.start =
      encodeHead m.log.lh (m.bio.data m.log.start) := by
  rw [apply_append, apply_cons, apply_nil]
  exact Function.update_self ..

theorem committed_log {i : Nat} (hi : i < m.log.lh.n.toNat) :
    apply e (m.logWrites ++ [m.headWrite]) (m.log.start + i + 1) =
      m.bio.data (m.log.lh.sector i) := by
  have index : ∀ j, m.log.start + j + 1 - m.log.start - 1 = j := by omega
  rw [apply_append, apply_cons, apply_nil, Function.update_of_ne (by simp only [headWrite]; omega),
    apply_of_mem (f := fun a => m.bio.data (m.log.lh.sector (a - m.log.start - 1)))]
  · simp only [index]
  · intro w hw
    obtain ⟨j, _, rfl⟩ := List.mem_map.mp hw
    simp only [index]
  · exact ⟨_, List.mem_map.mpr ⟨i, List.mem_range.mpr hi, rfl⟩, rfl⟩

/-- The log blocks, the header, the home blocks and the header again. -/
theorem commit_wrote_of_apart (apart : Apart m.log)
    (start : ∀ i < m.log.lh.n.toNat, m.log.lh.sector i ≠ m.log.start) (hn : 0 < m.log.lh.n) :
    Bio.Wrote (m.logWrites ++ [m.headWrite] ++ (m.homeWrites ++
      [(m.log.start, (encodeHead m.log.lh (m.bio.data m.log.start)).setWord 0 0)]))
      m.bio m.commit.bio := by
  have log : Wrote m.logWrites m m.writeLog := writeLog_wrote apart
  have head : Wrote [m.headWrite] m.writeLog m.writeLog.writeHead := by
    have head := writeHead_wrote m.writeLog
    rw [log.log, log.bio.data, logWrites_other (.inl le_rfl)] at head
    exact head
  have both := log.trans head
  have install := install_clear_wrote (m := m.writeLog.writeHead) (both.log ▸ apart)
    (by rw [both.log]; exact start)
  have home : ((List.range m.log.lh.n.toNat).map fun i => (m.log.lh.sector i,
      m.writeLog.writeHead.bio.data (m.log.start + i + 1))) = m.homeWrites := by
    refine List.map_congr_left ?_
    intro i hi
    rw [both.bio.data, committed_log (List.mem_range.mp hi)]
  rw [both.log, home, both.bio.data, committed_start] at install
  rw [commit, if_pos hn]
  exact both.bio.trans install

namespace Recorded

variable (h : m.Recorded)

include h

theorem apart : Apart m.log := by
  intro i hi j hj
  have := h.outside _ (sector_mem hi)
  have := h.room
  simp only [Home] at *
  omega

theorem start_ne {i : Nat} (hi : i < m.log.lh.n.toNat) : m.log.lh.sector i ≠ m.log.start := by
  have := h.outside _ (sector_mem hi)
  have := h.room
  simp only [Home] at *
  omega

theorem size_pos : 0 < m.log.size := by
  have := h.nonneg
  have := h.room
  omega

theorem commit_wrote (hn : 0 < m.log.lh.n) :
    Bio.Wrote (m.logWrites ++ [m.headWrite] ++ (m.homeWrites ++
      [(m.log.start, (encodeHead m.log.lh (m.bio.data m.log.start)).setWord 0 0)]))
      m.bio m.commit.bio :=
  commit_wrote_of_apart h.apart (fun _ hi => h.start_ne hi) hn

theorem commitWrites_eq (hn : 0 < m.log.lh.n) :
    m.commitWrites = m.logWrites ++ [m.headWrite] ++ (m.homeWrites ++
      [(m.log.start, (encodeHead m.log.lh (m.bio.data m.log.start)).setWord 0 0)]) := by
  rw [commitWrites, (h.commit_wrote hn).writes, List.drop_left]

/-- The disk right after the write of the header. -/
theorem committed_headWrites :
    headN m.log.start (apply m.bio.disk (m.logWrites ++ [m.headWrite])) = m.log.lh.n ∧
      headWrites m.log.start (apply m.bio.disk (m.logWrites ++ [m.headWrite])) = m.homeWrites := by
  have n : headN m.log.start (apply m.bio.disk (m.logWrites ++ [m.headWrite])) = m.log.lh.n := by
    have := h.capacity
    rw [headN, committed_start, encodeHead_word_zero, toInt_ofInt h.nonneg]
    simp only [logSize, maxOpBlocks] at *
    omega
  refine ⟨n, ?_⟩
  rw [headWrites, n, homeWrites]
  refine List.map_congr_left ?_
  intro i hi
  have hi := List.mem_range.mp hi
  rw [committed_log hi, committed_start, encodeHead_word_succ h.capacity _ hi]
  exact fun j hj => h.sector_lt _ (sector_mem hj)

/-- Right after the write of the header the disk stands for the new contents. -/
theorem views_committed :
    (layout m.log.start m.log.size h.size_pos).Views
      (apply m.bio.disk (m.logWrites ++ [m.headWrite])) m.bio.data m.homeWrites where
  pending := by
    obtain ⟨n, writes⟩ := h.committed_headWrites
    refine (if_pos ?_).trans (congrArg some writes)
    rw [n]
    exact ⟨h.capacity, h.room⟩
  outside := by
    intro w hw
    obtain ⟨i, hi, rfl⟩ := List.mem_map.mp hw
    have := h.outside _ (sector_mem (List.mem_range.mp hi))
    rintro ⟨_, _⟩
    simp only [Home] at *
    omega
  view := by
    intro a ha
    by_cases mem : ∃ w ∈ m.homeWrites, a = w.1
    · refine apply_of_mem ?_ mem
      intro w hw
      obtain ⟨i, _, rfl⟩ := List.mem_map.mp hw
      rfl
    · have other : a ∉ m.log.lh.sectors := by
        intro hs
        obtain ⟨i, hi, rfl⟩ := List.mem_map.mp hs
        exact mem ⟨_, List.mem_map.mpr ⟨i, hi, rfl⟩, rfl⟩
      have outside : a < m.log.start ∨ m.log.start + m.log.size ≤ a := by
        have : ¬ (m.log.start ≤ a ∧ a < m.log.start + m.log.size) := ha
        omega
      have room := h.room
      have head : a ≠ m.headWrite.1 := by
        show a ≠ m.log.start
        have := h.size_pos
        omega
      rw [apply_other fun w hw e => mem ⟨w, hw, e⟩, apply_append, apply_cons, apply_nil,
        Function.update_of_ne head, logWrites_other (by omega), h.coherent a other]

/-- From the header on, `commit` does what recovery does. -/
theorem commitWrites_recover (hn : 0 < m.log.lh.n) :
    m.commitWrites = m.logWrites ++ [m.headWrite] ++
      (layout m.log.start m.log.size h.size_pos).recover
        (apply m.bio.disk (m.logWrites ++ [m.headWrite])) m.homeWrites := by
  have kept : apply (apply m.bio.disk (m.logWrites ++ [m.headWrite])) m.homeWrites m.log.start =
      encodeHead m.log.lh (m.bio.data m.log.start) := by
    refine (apply_other ?_).trans committed_start
    intro w hw
    obtain ⟨i, hi, rfl⟩ := List.mem_map.mp hw
    exact (h.start_ne (List.mem_range.mp hi)).symm
  rw [h.commitWrites_eq hn, ← kept]
  rfl

/-- While log blocks are written to an empty log, the disk stands for the old
contents. -/
theorem views_logging (empty : (m.bio.disk m.log.start).word 0 = 0) (k : Nat) :
    (layout m.log.start m.log.size h.size_pos).Views
      (apply m.bio.disk (m.logWrites.take k)) m.bio.disk [] := by
  have old : (layout m.log.start m.log.size h.size_pos).Views m.bio.disk m.bio.disk [] :=
    ⟨Layout.pending_of_empty _ empty, by simp, fun a _ => rfl⟩
  have inside : ∀ w ∈ m.logWrites.take k, m.log.start < w.1 ∧
      w.1 < m.log.start + m.log.size := by
    intro w hw
    obtain ⟨i, hi, rfl⟩ := List.mem_map.mp (List.mem_of_mem_take hw)
    have := List.mem_range.mp hi
    have := h.room
    constructor
    · show m.log.start < m.log.start + i + 1
      omega
    · show m.log.start + i + 1 < m.log.start + m.log.size
      omega
  refine old.fill (fun w hw => ⟨(inside w hw).1.le, (inside w hw).2⟩) ?_
  refine Layout.pending_of_empty _ ?_
  show (apply m.bio.disk (m.logWrites.take k) m.log.start).word 0 = 0
  rw [apply_other fun w hw => (inside w hw).1.ne]
  exact empty

/-- At every crash point of `commit` the disk stands for the old contents, or,
from the write of the header on, for the new ones. -/
theorem views_crash (empty : (m.bio.disk m.log.start).word 0 = 0) (hn : 0 < m.log.lh.n)
    (k : Nat) :
    ∃ ws, (layout m.log.start m.log.size h.size_pos).Views
      (apply m.bio.disk (m.commitWrites.take k))
      (if m.log.lh.n < k then m.bio.data else m.bio.disk) ws := by
  have length : m.logWrites.length = m.log.lh.n.toNat := by
    rw [logWrites, List.length_map, List.length_range]
  split
  · rename_i hk
    have lengths : (m.logWrites ++ [m.headWrite]).length ≤ k := by
      rw [List.length_append, length, List.length_singleton]
      omega
    rw [h.commitWrites_recover hn, List.take_append, List.take_of_length_le lengths, apply_append]
    exact h.views_committed.recover_take _
  · rename_i hk
    rw [h.commitWrites_eq hn, List.append_assoc, List.take_append_of_le_length (by omega)]
    exact ⟨[], h.views_logging empty k⟩

end Recorded

/-- After a crash of `commit` at any point, and any number of crashes of
`recover_from_log` after it, recovery ends with an empty log, and all blocks
outside the log area are old or all are new.  They are new if the header was
written. -/
theorem commit_atomic (h : m.Recorded) (empty : headN m.log.start m.bio.disk = 0) (k : Nat)
    (ks : List Nat) :
    ∃ t, restart (recoverWrites m.log.start m.log.size)
        (apply m.bio.disk (m.commitWrites.take k)) ks = some t ∧
      headN m.log.start t = 0 ∧
      ((∀ s, Home m.log s → t s = m.bio.disk s) ∨ ∀ s, Home m.log s → t s = m.bio.data s) ∧
      (0 < m.log.lh.n → m.log.lh.n < k → ∀ s, Home m.log s → t s = m.bio.data s) := by
  have clear := headN_eq_zero.mp empty
  have home : ∀ s, Home m.log s → s ∉ (layout m.log.start m.log.size h.size_pos).area := by
    rintro s hs ⟨_, _⟩
    simp only [Home] at hs
    omega
  obtain hn | hn := h.nonneg.eq_or_lt
  · have nothing : m.commitWrites = [] := by
      rw [commitWrites, commit, if_neg (by omega), List.drop_length]
    obtain ⟨t, ht, views, cleared⟩ := (h.views_logging clear 0).restart (recoverWrites_eq h.size_pos) ks
    rw [nothing, List.take_nil]
    refine ⟨t, ht, headN_eq_zero.mpr cleared, .inl fun s hs => views.view s (home s hs), ?_⟩
    intro pos
    omega
  · obtain ⟨ws, crash⟩ := h.views_crash clear hn k
    obtain ⟨t, ht, views, cleared⟩ := crash.restart (recoverWrites_eq h.size_pos) ks
    refine ⟨t, ht, headN_eq_zero.mpr cleared, ?_, ?_⟩
    · split at views
      · exact .inr fun s hs => views.view s (home s hs)
      · exact .inl fun s hs => views.view s (home s hs)
    · intro _ hk s hs
      rw [if_pos hk] at views
      exact views.view s (home s hs)

/-- An empty log at sector 20450, in a running operation. -/
def sampleLog : LogState where
  bio := ⟨fun _ _ => 0, fun _ => none, []⟩
  log := ⟨20450, 30, 1, false, ⟨0, fun _ => 0⟩⟩

/-- The sample with two blocks logged. -/
def sampleLogged : Except String LogState := do
  let m ← sampleLog.logWrite 40 fun _ => 1
  m.logWrite 41 fun _ => 2

theorem commit_atomic_sample :
    ∃ m t, sampleLogged = .ok m ∧
      restart (recoverWrites 20450 30) (apply m.bio.disk (m.commitWrites.take 4)) [1, 0] = some t ∧
        headN 20450 t = 0 ∧ t 40 = (fun _ => 1) ∧ t 41 = fun _ => 2 := by
  have empty : sampleLog.Recorded := .initial rfl (by decide) rfl
  have first := empty.logWrite (s := 40) (b := fun _ => 1) (.inl (by decide)) (by decide) rfl
  have recorded := first.logWrite (s := 41) (b := fun _ => 2) (.inl (by decide)) (by decide) rfl
  obtain ⟨t, ht, head, _, new⟩ := commit_atomic recorded (by decide +kernel) 4 [1, 0]
  refine ⟨_, t, rfl, ht, head, ?_, ?_⟩
  · exact new (by decide) (by decide) 40 (.inl (by decide))
  · exact new (by decide) (by decide) 41 (.inl (by decide))

end LogState

end Xv6Gui
