import Xv6Gui.Fs.BlockOwners

/-!
# Blocks given back

When a file is truncated its blocks are free again, unless it has a double-indirect
block: `bmap` allocates this one for files of more than `NDIRECT + NINDIRECT` blocks,
and `itrunc` does not know about it.  The same holds for a file that is written in any
number of steps and then deleted: the free blocks are those from before it was written
if and only if it did not grow that much.
-/

namespace Xv6Gui

open Effect Runs

variable {s t : Fs} {ip : InodePtr} {top : Nat} {v w : View}

/-! ## Room in the log -/

/-- All sectors in `S` can be written in this transaction. -/
structure Room (S : Finset Nat) (l : Log) : Prop where
  inside : 1 ≤ l.outstanding
  nonneg : 0 ≤ l.lh.n
  fits : l.lh.n + (S \ l.lh.sectors.toFinset).card < min (logSize : Int) (l.size - 1)

theorem room_contract (S : Finset Nat) : LogContract (Room S) (· ∈ S) fun _ => False := by
  intro m b d room hb
  have := room.inside
  have fits := room.fits
  rw [LogState.logWrite, if_neg (by omega), if_neg (by omega)]
  show Room S { m.log with lh := m.log.lh.record b }
  by_cases mem : b ∈ m.log.lh.sectors
  · rw [LogHeader.record_of_mem room.nonneg mem]
    exact room
  · obtain ⟨sectors, n⟩ := LogHeader.record_of_not_mem room.nonneg mem
    have new : b ∈ S \ m.log.lh.sectors.toFinset := by simp [hb, mem]
    have rest : S \ (m.log.lh.record b).sectors.toFinset =
        (S \ m.log.lh.sectors.toFinset).erase b := by
      ext x
      simp only [sectors, Finset.mem_sdiff, List.mem_toFinset, List.mem_append,
        List.mem_singleton, Finset.mem_erase]
      tauto
    have card := Finset.card_erase_add_one new
    refine ⟨room.inside, ?_, ?_⟩
    · show 0 ≤ (m.log.lh.record b).n
      rw [n]
      have := room.nonneg
      omega
    · show (m.log.lh.record b).n + ((S \ (m.log.lh.record b).sectors.toFinset).card : Int) < _
      rw [n, rest]
      show _ < min (logSize : Int) (m.log.size - 1)
      omega

/-- The sectors that `itrunc` may write: the bitmap and the block of the inode. -/
def truncSectors (v : View) (ip : InodePtr) : Finset Nat :=
  insert (iblock (v.icache ip).inum) (Finset.Ico (v.sb.ninodes / ipb + 3) v.dataStart)

theorem bblock_mem_truncSectors {b : Nat} (hb : b < v.sb.size) :
    bblock b v.sb.ninodes ∈ truncSectors v ip :=
  Finset.mem_insert_of_mem (Finset.mem_Ico.mpr ⟨le_bblock .., View.bblock_lt hb⟩)

/-- With room in the log `itrunc` returns. -/
theorem itrunc_returns (h : s.view.InUse top ip) (room : Room (truncSectors s.view ip) s.log.log) :
    ∃ t, (itrunc ip).run s = .ok ((), t) := by
  have triple := itrunc_triple (room_contract (truncSectors s.view ip))
    (fun _ => bblock_mem_truncSectors) h.addrsOwned h.entriesOwned (Finset.mem_insert_self ..)
  obtain ⟨_, t, run, _⟩ := triple.returns ⟨rfl, room⟩
  exact ⟨t, run⟩

/-! ## `itrunc` -/

/-- The blocks of a file are free again. -/
structure View.GivenBack (v : View) (ip : InodePtr) (w : View) : Prop where
  freed : ∀ p b, v.vol.node ((v.icache ip).inum :: p) = some (.block b) → w.used b = false
  addrs : ∀ k, (w.icache ip).addrs k = 0
  size : (w.icache ip).size = 0
  other : ∀ b, (∀ p, v.vol.node ((v.icache ip).inum :: p) ≠ some (.block b)) →
    w.used b = v.used b

/-- The first part of a position of a file. -/
theorem View.InUse.addr_of_node (h : v.InUse top ip) {p : List Nat} {b : Nat}
    (node : v.vol.node ((v.icache ip).inum :: p) = some (.block b)) :
    ∃ k : Fin (ndirect + 2), ∃ q, p = k.val :: q ∧ (v.icache ip).addrs k ≠ 0 := by
  cases p with
  | nil =>
    obtain ⟨_, e⟩ | ⟨_, _, e, _⟩ | ⟨_, _, _, e, ne, _⟩ := Volume.node_cases node
    · cases e
    · cases e
    · exact absurd (List.cons.inj e).2.symm ne
  | cons k q =>
    obtain ⟨y, hy⟩ := Volume.node_of_append (q := [(v.icache ip).inum, k]) (r := q) node
    have inside : k < ndirect + 2 := Volume.position_of_node hy
    obtain ⟨e, _⟩ | ⟨_, e, _⟩ | ⟨_, _, c, _, _, rfl⟩ := Volume.node_cases hy
    · cases e
    · cases e
    · obtain ⟨rfl, ne⟩ := (h.node_addr (k := ⟨k, inside⟩)).mp hy
      exact ⟨⟨k, inside⟩, q, rfl, ne⟩

/-- Without a double-indirect block all blocks of a file are freed. -/
theorem View.InUse.mem_truncated_of_zero (h : v.InUse top ip)
    (zero : (v.icache ip).addrs doubleIndirect = 0) {b : Nat} :
    b ∈ truncated v ip ↔ ∃ p, v.vol.node ((v.icache ip).inum :: p) = some (.block b) := by
  rw [h.mem_truncated]
  constructor
  · rintro ⟨k, p, _, node⟩
    exact ⟨k :: p, node⟩
  · rintro ⟨p, node⟩
    obtain ⟨k, q, rfl, ne⟩ := h.addr_of_node node
    refine ⟨k.val, q, ?_, node⟩
    intro e
    exact ne ((congrArg _ (Fin.ext e)).trans zero)

theorem View.Truncated.givenBack_iff (h : v.InUse top ip) (trunc : v.Truncated ip w) :
    v.GivenBack ip w ↔ (v.icache ip).addrs doubleIndirect = 0 := by
  have inode := View.Truncated.icache trunc
  have used := View.Truncated.used h trunc
  constructor
  · intro back
    have zero := back.addrs doubleIndirect
    rw [inode] at zero
    exact zero
  · intro zero
    refine ⟨?_, ?_, by rw [inode]; rfl, ?_⟩
    · intro p b node
      rw [used, decide_eq_true ((h.mem_truncated_of_zero zero).mpr ⟨p, node⟩), Bool.not_true,
        Bool.and_false]
    · intro k
      rw [inode]
      show (if k = doubleIndirect then (v.icache ip).addrs k else 0) = 0
      split
      · rename_i e
        rw [e, zero]
      · rfl
    · intro b none
      have kept : b ∉ truncated v ip := by
        intro freed
        obtain ⟨p, node⟩ := (h.mem_truncated_of_zero zero).mp freed
        exact none p node
      rw [used, decide_eq_false kept, Bool.not_false, Bool.and_true]

/-! ## Writing a file -/

/-- What files up to the double-indirect block hold. -/
def singleSize : Nat := (ndirect + nindirect) * bsize

theorem double_mem_path {bn : Nat} : [ndirect + 1] ∈ path bn ↔ ndirect + nindirect ≤ bn := by
  rw [path]
  split
  · simp
    omega
  · split
    · simp
      omega
    · simp
      omega

/-- The free blocks and those of a file. -/
def View.withFile (v : View) (i : Nat) : Set Nat :=
  {b | b ∈ v.free ∨ ∃ p, v.vol.node (i :: p) = some (.block b)}

theorem View.withFile_congr {i : Nat} (free : w.free = v.free) (node : w.vol.node = v.vol.node) :
    w.withFile i = v.withFile i := by
  rw [withFile, withFile, free, node]

theorem View.InUse.mem_withFile (h : v.InUse top ip) {b : Nat} :
    b ∈ v.withFile (v.icache ip).inum ↔ b ≠ 0 ∧ b ∈ Demand.pool (v.blocks ip) := by
  have node := node_of_blocks h.coherent h.held
  constructor
  · rintro (free | ⟨p, hp⟩)
    · have := h.owned.low b free
      have := v.dataStart_pos
      exact ⟨by omega, .inl free⟩
    · rw [node] at hp
      obtain ⟨x, hx, e⟩ := Option.map_eq_some_iff.mp hp
      rw [nodeOf] at e
      split at e
      · cases e
      · rename_i ne
        cases e
        exact ⟨ne, .inr ⟨p, hx⟩⟩
  · rintro ⟨ne, free | ⟨p, hp⟩⟩
    · exact .inl free
    · refine .inr ⟨p, ?_⟩
      rw [node, hp, Option.map_some, nodeOf, if_neg ne]

/-- A file that has been written to since the state `s₀`, in which it was empty. -/
structure Growing (s₀ : Fs) (ip : InodePtr) (s : Fs) : Prop where
  sound : s.Sound
  held : s.view.Held ip
  type : (s.icache ip).type ≠ tDev
  inum : (s.icache ip).inum = (s₀.icache ip).inum
  sb : s.view.sb = s₀.view.sb
  blocks : s.view.withFile (s₀.icache ip).inum = {b | b ∈ s₀.view.free}
  double : s.view.vol.node [(s₀.icache ip).inum, ndirect + 1] = none ↔
    (s.icache ip).size ≤ singleSize

/-- The calls of a write to `ip`. -/
def FsCall.WritesTo (ip : InodePtr) : FsCall → Prop
  | .beginOp | .endOp => True
  | .ilock ip' | .iunlock ip' | .writei ip' _ _ _ => ip' = ip
  | _ => False

namespace Growing

variable {s₀ : Fs}

theorem inUse (h : Growing s₀ ip s) : s.view.InUse s.log.log.start ip :=
  h.sound.good.inUse h.held

theorem start (sound : s.Sound) (held : s.view.Held ip) (type : (s.icache ip).type ≠ tDev)
    (size : (s.icache ip).size = 0) (addrs : ∀ k, (s.icache ip).addrs k = 0) :
    Growing s ip s := by
  have none : ∀ p b, s.view.vol.node ((s.view.icache ip).inum :: p) ≠ some (.block b) := by
    intro p b node
    obtain ⟨k, _, _, ne⟩ := (sound.good.inUse held).addr_of_node node
    exact ne (addrs k)
  refine ⟨sound, held, type, rfl, rfl, ?_, ?_⟩
  · ext b
    exact or_iff_left fun ⟨p, node⟩ => none p b node
  · rw [size]
    refine iff_of_true ?_ (Nat.zero_le _)
    cases node : s.view.vol.node [(s.icache ip).inum, ndirect + 1] with
    | none => rfl
    | some x =>
      obtain ⟨e, _⟩ | ⟨_, e, _⟩ | ⟨_, _, b, _, _, rfl⟩ := Volume.node_cases node
      · cases e
      · cases e
      · exact absurd node (none _ b)

/-- A step that does not touch the files. -/
theorem same (h : Growing s₀ ip s) (sound : t.Sound)
    (slot : ∃ busy, t.icache ip = { s.icache ip with busy := busy })
    (sb : t.view.sb = s.view.sb) (free : t.view.free = s.view.free)
    (node : t.view.vol.node = s.view.vol.node) : Growing s₀ ip t := by
  obtain ⟨busy, slot⟩ := slot
  have slot' : t.view.icache ip = { s.icache ip with busy := busy } := slot
  refine ⟨sound, ⟨by rw [slot']; exact h.held.ref, by rw [slot']; exact h.held.valid⟩, ?_, ?_,
    sb.trans h.sb, ?_, ?_⟩
  · rw [slot]
    exact h.type
  · rw [slot]
    exact h.inum
  · rw [View.withFile_congr free node, h.blocks]
  · rw [node, slot]
    exact h.double

/-- The count of references stays and the lock changes. -/
theorem setBusy (h : Growing s₀ ip s) (sound : t.Sound) {busy : Bool}
    (view : t.view = s.view.setInode ip fun inode =>
      { inode with ref := inode.ref, busy := busy }) : Growing s₀ ip t := by
  have vol := View.vol_setSlot (·.ref) (fun _ => busy) h.held.ref h.held.ref
  refine h.same sound ⟨busy, ?_⟩ (by rw [view]; rfl) (by rw [view]; rfl) (by rw [view, vol])
  exact (congrFun (congrArg View.icache view) ip).trans (View.setInode_icache _)

theorem transaction (h : Growing s₀ ip s) (step : OpBoundary s t) : Growing s₀ ip t := by
  obtain ⟨sb, _, free, node⟩ := h.sound.good.low_eq step.icache step.low
  exact h.same (step.sound h.sound) ⟨(s.icache ip).busy, by rw [step.icache]⟩ sb free node

/-- Which writes need the double-indirect block. -/
theorem double_mem_paths {off n : Nat} :
    [ndirect + 1] ∈ paths (blockRange off n) ↔ 0 < n ∧ singleSize < off + n := by
  have bound : ndirect + nindirect ≤ (off + n - 1) / bsize ↔ singleSize ≤ off + n - 1 :=
    Nat.le_div_iff_mul_le (by decide)
  rw [paths, List.mem_flatMap]
  constructor
  · rintro ⟨bn, hbn, hp⟩
    rw [double_mem_path] at hp
    rw [blockRange] at hbn
    split at hbn
    · cases hbn
    · rw [List.mem_range'_1] at hbn
      have : off / bsize ≤ (off + n - 1) / bsize := Nat.div_le_div_right (by omega)
      have := bound.mp (by omega)
      omega
  · rintro ⟨pos, big⟩
    refine ⟨(off + n - 1) / bsize, mem_blockRange (by omega) (by omega), ?_⟩
    rw [double_mem_path, bound]
    omega

theorem writei (h : Growing s₀ ip s) {src : Nat → UInt8} {off n : Nat} {r : Int}
    (hoff : off < 2 ^ 32) (hn : n < 2 ^ 32) (below : WritesBelow s.view s.log.log.start ip off n)
    (run : (writei ip src off n).run s = .ok (r, t)) (sound : t.Sound) : Growing s₀ ip t := by
  obtain ⟨_, _, rfl⟩ | ⟨accept, run⟩ := writei_cases h.type run
  · exact h
  · obtain ⟨ls, u, writes, _, view⟩ := writeiData_run h.inUse.whole run
    have touched := View.Run.of_written h.inUse writes.steps writes.written (below h.type accept)
    obtain ⟨addrs, inode⟩ := touched.touched.inode
    have inum : (u.icache ip).inum = (s₀.icache ip).inum := by
      rw [inode]
      exact h.inum
    have withFile : u.withFile (s₀.icache ip).inum = {b | b ∈ s₀.view.free} := by
      rw [← h.blocks]
      ext b
      rw [← inum, touched.inUse.mem_withFile, Demand.pool_eq writes.written.steps,
        ← h.inUse.mem_withFile, inum, ← h.inum]
      rfl
    have double : u.vol.node [(s₀.icache ip).inum, ndirect + 1] = none ↔
        (s.icache ip).size ≤ singleSize ∧ (0 < n → off + n ≤ singleSize) := by
      have old := View.node_of_blocks h.inUse.coherent h.held [ndirect + 1]
      have new := View.node_of_blocks touched.inUse.coherent touched.inUse.held [ndirect + 1]
      rw [show (s.view.icache ip).inum = (s₀.icache ip).inum from h.inum] at old
      rw [inum] at new
      rw [new, Option.map_eq_none_iff, Demand.val_none_iff writes.written.steps,
        double_mem_paths, ← h.double, old, Option.map_eq_none_iff]
      refine and_congr_right fun _ => ?_
      omega
    by_cases grows : 0 < n ∧ off + n > (s.icache ip).size
    · have small : off + n < 2 ^ 32 := by
        have := (accept.bound hoff hn).2
        have : maxFile * bsize = 8459776 := by decide
        omega
      rw [if_pos grows] at view
      obtain ⟨grown, free, _, node⟩ := touched.inUse.resize small
      have slot : t.icache ip = { u.icache ip with size := off + n } :=
        (congrFun (congrArg View.icache view) ip).trans (View.store_icache ..)
      refine ⟨sound, view ▸ grown.held, ?_, ?_, ?_, ?_, ?_⟩
      · rw [slot, inode]
        exact h.type
      · rw [slot, ← inum]
      · rw [view, View.store_sb ⟨rfl, rfl, rfl⟩, touched.touched.sb, h.sb]
      · rw [view, View.withFile_congr free node, withFile]
      · rw [view, node, double, slot]
        show _ ↔ off + n ≤ singleSize
        omega
    · rw [if_neg grows] at view
      have slot : t.icache ip = { s.icache ip with addrs := addrs } :=
        (congrFun (congrArg View.icache view) ip).trans inode
      refine ⟨sound, view ▸ touched.inUse.held, ?_, ?_, ?_, ?_, ?_⟩
      · rw [slot]
        exact h.type
      · rw [slot]
        exact h.inum
      · rw [view, touched.touched.sb, h.sb]
      · rw [view, withFile]
      · rw [view, double, slot]
        show _ ↔ (s.icache ip).size ≤ singleSize
        omega

theorem step (h : Growing s₀ ip s) {c : FsCall} (writes : c.WritesTo ip) (below : c.Below s)
    (step : FsStep s c t) : Growing s₀ ip t := by
  have sound := FsStep.sound h.sound step below
  obtain ⟨proper, after⟩ := step
  cases c with
  | beginOp =>
    obtain ⟨_, run⟩ := FsCall.of_returned after
    exact h.transaction (beginOp_transaction h.sound.nonneg run)
  | endOp =>
    obtain ⟨_, run⟩ := FsCall.of_returned after
    exact h.transaction (endOp_transaction h.sound.nonneg h.sound.sectors run)
  | ilock ip' =>
    obtain rfl : ip' = ip := writes
    obtain ⟨_, run⟩ := FsCall.of_returned after
    exact h.setBusy sound ((ilock_ok run).trans (View.lock_of_valid h.held.valid))
  | iunlock ip' =>
    obtain rfl : ip' = ip := writes
    obtain ⟨_, run⟩ := FsCall.of_returned after
    exact h.setBusy sound (iunlock_view run).2.2
  | writei ip' src off n =>
    obtain rfl : ip' = ip := writes
    obtain ⟨_, run⟩ := FsCall.of_returned after
    exact h.writei proper.2.1 proper.2.2 below run sound
  | iget _ | idup _ | ialloc _ | readi _ _ _ _ | itrunc _ | iput _ => exact absurd writes id

end Growing

/-! ## Deleting it -/

/-- The bits that `ifree` clears. -/
theorem View.Freed.used (h : v.InUse top ip) (start : v.dataStart ≤ top) (freed : v.Freed ip w)
    (b : Nat) : w.used b = (v.used b && !decide (b ∈ truncated v ip)) := by
  obtain ⟨u, trunc, rfl⟩ := freed
  have locked := h.lock start
  have inUse := View.Truncated.inUse locked trunc
  have same : View.SameSlot (u.icache ip) { u.icache ip with type := 0 } := ⟨rfl, rfl, rfl⟩
  have lt := iblock_lt (inUse.coherent.inum ip inUse.held.ref)
  have bits : (u.release ip).used b = u.used b := by
    refine View.used_congr (View.store_sb same) ?_ b
    intro z hz
    exact View.store_data same (by omega)
  have blocks : truncated (v.setInode ip fun inode => { inode with busy := true }) ip =
      truncated v ip := by
    rw [truncated, truncated, indirectBlocks, indirectBlocks, View.setInode_icache]
    rfl
  rw [bits, View.Truncated.used locked trunc, blocks]
  rfl

theorem Growing.free_iff {s₀ : Fs} (h : Growing s₀ ip s) (ref : (s.icache ip).ref = 1)
    (nlink : (s.icache ip).nlink = 0) (run : (iput ip).run s = .ok ((), t)) :
    t.view.free = s₀.view.free ↔ (s.icache ip).size ≤ singleSize := by
  have start := h.sound.good.start
  obtain ⟨u, freed, view, _⟩ := (iput_last (logContract_any fun _ => True) (fun _ _ => trivial)
    trivial h.inUse start ref nlink).ok ⟨rfl, trivial⟩ run
  have used : ∀ b, t.view.used b = (s.view.used b && !decide (b ∈ truncated s.view ip)) := by
    intro b
    rw [view]
    exact View.Freed.used h.inUse start freed b
  have sb : t.view.sb = s.view.sb := by
    rw [view]
    exact (View.Freed.keeps h.inUse start freed).1.sb
  have inum : (s.view.icache ip).inum = (s₀.icache ip).inum := h.inum
  constructor
  · intro same
    rw [← h.double, ← inum]
    cases node : s.view.vol.node [(s.view.icache ip).inum, ndirect + 1] with
    | none => rfl
    | some x =>
      obtain ⟨e, _⟩ | ⟨_, e, _⟩ | ⟨_, _, b, _, _, rfl⟩ := Volume.node_cases node
      · cases e
      · cases e
      · have mine : b ∈ s.view.withFile (s₀.icache ip).inum := .inr ⟨_, inum ▸ node⟩
        have mine : b ∈ s₀.view.free := (Set.ext_iff.mp h.blocks b).mp mine
        rw [← same, View.mem_free, used, (h.inUse.owned.mapped _ _ node).2.2] at mine
        have freed : b ∈ truncated s.view ip := by simpa using mine.2
        obtain ⟨k, p, ne, other⟩ := h.inUse.mem_truncated.mp freed
        have position := h.inUse.owned.separate _ _ _ other node
        simp only [List.cons.injEq, true_and] at position
        exact absurd position.1 ne
  · intro small
    have zero : (s.view.icache ip).addrs doubleIndirect = 0 := by
      by_contra ne
      have node := (h.inUse.node_addr (k := doubleIndirect)).mpr ⟨rfl, ne⟩
      have none := h.double.mpr small
      rw [← inum] at none
      have node : s.view.vol.node [(s.view.icache ip).inum, ndirect + 1] = _ := node
      rw [none] at node
      cases node
    rw [View.free, View.free, sb, h.sb]
    refine List.filter_congr ?_
    intro b hb
    have size : b < s.view.sb.size := by
      rw [h.sb]
      exact List.mem_range.mp hb
    have pool : b ∈ s.view.free ∨ b ∈ truncated s.view ip ↔ b ∈ s₀.view.free := by
      have mem := Set.ext_iff.mp h.blocks b
      rw [← inum] at mem
      rw [h.inUse.mem_truncated_of_zero zero]
      exact mem
    rw [View.mem_free, View.mem_free, and_iff_right size, and_iff_right (h.sb ▸ size)] at pool
    rw [used, Bool.eq_iff_iff, Bool.not_eq_true', Bool.not_eq_true', ← pool]
    cases s.view.used b <;> simp

/-- `itrunc` frees all blocks of a file if and only if it has no double-indirect block;
and a file that is written and deleted leaves the free blocks as they were if and only
if it has no block behind those of the indirect block. -/
theorem itrunc_gives_back (h : s.view.InUse top ip) :
    (Room (truncSectors s.view ip) s.log.log → ∃ t, (itrunc ip).run s = .ok ((), t)) ∧
      (∀ t, (itrunc ip).run s = .ok ((), t) →
        (s.view.GivenBack ip t.view ↔ (s.icache ip).addrs doubleIndirect = 0)) ∧
      (s.Sound → (s.icache ip).type ≠ tDev → (s.icache ip).size = 0 →
        (∀ k, (s.icache ip).addrs k = 0) →
          ∀ calls u, Steps (Guarded FsStep fun s c => c.WritesTo ip ∧ c.Below s) s calls u →
            (u.icache ip).ref = 1 → (u.icache ip).nlink = 0 → ∀ t, (iput ip).run u = .ok ((), t) →
              (t.view.free = s.view.free ↔ (u.icache ip).size ≤ singleSize)) := by
  refine ⟨itrunc_returns h, ?_, ?_⟩
  · intro t run
    exact View.Truncated.givenBack_iff h ((itrunc_spec h).ok rfl run)
  · intro sound type size addrs calls u run ref nlink t last
    have growing : Growing s ip u := run.invariant (.start sound h.held type size addrs)
      fun growing step => growing.step step.1.1 step.1.2 step.2
    exact growing.free_iff ref nlink last

end Xv6Gui
