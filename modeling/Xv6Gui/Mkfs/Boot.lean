import Xv6Gui.Fs.Boot
import Xv6Gui.Fs.GiveBack
import Xv6Gui.Fs.LogArea
import Xv6Gui.Fs.Lookup
import Xv6Gui.Mkfs.Contents

/-!
# The kernel with an image of `mkfs`

The kernel finds on an image what `mkfs` has written there: the functions that address
inodes and the bitmap agree, the tree of blocks is the same, and the names in the root
directory lead to the files.
-/

namespace Xv6Gui

namespace Mkfs

open Effect

variable {files : List HostFile} {s : State} {k l : Fs} {ip : InodePtr}

/-! ## The same disk -/

theorem superblock_eq : superblock.superblock = ⟨size, nblocks, ninodes, nlog⟩ := by
  have words : superblock.word 0 = size ∧ superblock.word 1 = nblocks ∧
      superblock.word 2 = ninodes ∧ superblock.word 3 = nlog := by decide +kernel
  rw [Block.superblock, words.1, words.2.1, words.2.2.1, words.2.2.2]

theorem bit_bits {n j : Nat} (hj : j < 4096) : (bits n).bit j = decide (j < n) := by
  induction n with
  | zero =>
    have zero : Block.zero.bit j = false := by
      simp [Block.bit, Block.byte, Block.zero]
    simpa [bits] using zero
  | succ n ih =>
    have next : bits (n + 1) = (bits n).setBit n := by
      rw [bits, List.range_succ, List.foldl_append]
      rfl
    rw [next]
    by_cases e : j = n
    · rw [e, Block.bit_setBit_self (by rw [show bsize = 512 from rfl]; omega)]
      simp
    · rw [Block.bit_setBit_of_ne e, ih]
      have : j < n + 1 ↔ j < n := by omega
      simp [this]

/-- The kernel sees the image, and inodes in memory are those on it. -/
structure Shows (s : State) (k : Fs) : Prop where
  data : k.view.data = s.image
  coherent : k.view.Coherent
  clean : ∀ ip, 0 < (k.icache ip).ref → (k.icache ip).valid = true →
    (k.icache ip).toDinode = k.view.dnode (k.icache ip).inum

theorem Shows.sb (h : Shows s k) (holds : ImageOf files s) :
    k.view.sb = ⟨size, nblocks, ninodes, nlog⟩ := by
  rw [View.sb, h.data, holds.super, superblock_eq]

theorem Shows.dataStart (h : Shows s k) (holds : ImageOf files s) :
    k.view.dataStart = firstBlock := by
  rw [View.dataStart, h.sb holds]
  rfl

theorem Shows.current (h : Shows s k) (i : Nat) :
    k.view.current i = (s.image (i2b i)).dinode (i % ipb) := by
  have disk : k.view.dnode i = (s.image (i2b i)).dinode (i % ipb) := by
    rw [View.dnode, h.data]
    rfl
  rw [← disk, View.current]
  split
  · rename_i ip hip
    obtain ⟨href, hvalid, rfl⟩ := View.cached_eq_some hip
    exact h.clean ip href hvalid
  · rfl

/-- The kernel sees the tree of the image. -/
theorem Shows.vol (h : Shows s k) (holds : ImageOf files s) : k.view.vol = s.vol := by
  rw [View.vol, State.vol, h.sb holds, h.data]
  congr 1
  funext i
  rw [h.current]
  rfl

/-- The bitmap marks the blocks below `freeblock`. -/
theorem Shows.used (h : Shows s k) (holds : ImageOf files s) {b : Nat} (hb : b < size) :
    k.view.used b = decide (b < s.freeblock) := by
  have block : bblock b ninodes = ninodes / ipb + 3 + b / 4096 := by
    rw [bblock, show bpb = 4096 from rfl]
    omega
  have first : firstBlock = ninodes / ipb + 3 + 6 := rfl
  rw [size] at hb
  have map := holds.bitmap (ninodes / ipb + 3 + b / 4096) (by omega) (by omega)
  rw [View.used, h.sb holds, h.data, block, map, bitmapBlock, show bpb = 4096 from rfl,
    bit_bits (Nat.mod_lt _ (by decide)), Nat.add_sub_cancel_left]
  refine decide_eq_decide.mpr ?_
  omega

/-- Blocks are owned. -/
theorem Shows.owned (h : Shows s k) (holds : ImageOf files s) {top : Nat}
    (low : s.freeblock ≤ top) (high : top ≤ size) : k.view.Owned top := by
  have sb := h.sb holds
  refine ⟨by rw [sb]; exact high, ?_, ?_, ?_⟩
  · rw [h.vol holds]
    exact holds.tree.separate
  · intro q b hq
    rw [h.vol holds] at hq
    obtain ⟨start, below⟩ := holds.tree.range q b hq
    rw [h.dataStart holds, h.used holds (by omega)]
    exact ⟨start, by omega, decide_eq_true below⟩
  · intro b hb
    obtain ⟨inside, clear⟩ := View.mem_free.mp hb
    rw [sb] at inside
    rw [h.used holds inside, decide_eq_false_iff_not] at clear
    rw [h.dataStart holds]
    exact holds.tree.start.trans (by omega)

/-! ## Starting with an image -/

theorem shows_of_fresh (h : k.Fresh s.image) : Shows s k := by
  have none : ∀ ip, ¬ 0 < (k.view.icache ip).ref := by
    intro ip
    have icache : k.view.icache = fun _ => unusedInode := h.icache
    rw [icache]
    exact lt_irrefl 0
  refine ⟨h.data, ⟨?_, ?_, ?_, ?_, ?_, ?_⟩, fun ip href => absurd href (none ip)⟩
  · intro ip
    have icache : k.view.icache = fun _ => unusedInode := h.icache
    rw [icache]
    exact le_rfl
  · exact fun ip href => absurd href (none ip)
  · exact fun ip _ href => absurd href (none ip)
  · exact fun ip href => absurd href (none ip)
  · exact fun ip href => absurd href (none ip)
  · exact fun ip href => absurd href (none ip)

/-- If the files lie before the log, the kernel starts with the image as it is. -/
theorem boot_image (holds : ImageOf files s) (fits : neededBlocks files ≤ nblocks) :
    ∃ k, boot s.image = some k ∧ k.Fresh s.image ∧ Booted k := by
  have sb : (s.image 1).superblock = ⟨size, nblocks, ninodes, nlog⟩ := by
    rw [holds.super, superblock_eq]
  have room : firstBlock + nblocks = size - nlog := by decide
  have blocks := holds.blocks
  rw [totalBlocks_fileBytes] at blocks
  have below : s.freeblock ≤ size - nlog := by omega
  obtain ⟨k, run, fresh⟩ := boot_fresh s.image (by rw [sb]; exact holds.tree.zero _ below)
  have shows_ := shows_of_fresh fresh
  have start : k.log.log.start = size - nlog := by
    have ksb : k.sb = ⟨size, nblocks, ninodes, nlog⟩ := shows_.sb holds
    rw [fresh.start, ksb]
  refine ⟨k, run, fresh, fresh.booted ?_ ?_⟩
  · rw [shows_.dataStart holds, start]
    decide
  · rw [start]
    exact shows_.owned holds below (by decide)

/-! ## Inodes in memory -/

theorem Shows.good (h : Shows s k) (holds : ImageOf files s) : k.view.Good size := by
  refine ⟨?_, h.owned holds holds.bound le_rfl, h.coherent⟩
  rw [h.dataStart holds]
  decide

theorem Shows.lock (h : Shows s k) (holds : ImageOf files s) (run : (ilock ip).run k = .ok ((), l)) :
    Shows s l ∧ l.view.Held ip := by
  obtain ⟨keeps, held⟩ := ilock_keeps (h.good holds) run
  have view := ilock_ok run
  have data : l.view.data = k.view.data := by
    rw [view]
    rfl
  refine ⟨⟨data.trans h.data, keeps.good.coherent, ?_⟩, held⟩
  intro ip' href hvalid
  have disk : ∀ i, l.view.dnode i = k.view.dnode i := fun i => by rw [View.dnode, data]; rfl
  rw [disk]
  by_cases e : ip' = ip
  · have slot : l.icache ip = k.view.load { k.icache ip with busy := true } := by
      refine (congrFun (congrArg View.icache view) ip).trans ?_
      exact View.setInode_icache _
    have ref : 0 < (k.icache ip).ref := (ilock_pre run).1
    rw [e, slot, View.load]
    show (if (k.icache ip).valid then (k.icache ip).toDinode else
      k.view.dnode (k.icache ip).inum) = k.view.dnode (k.icache ip).inum
    split
    · rename_i valid
      exact h.clean ip ref valid
    · rfl
  · have slot : l.icache ip' = k.icache ip' := by
      refine (congrFun (congrArg View.icache view) ip').trans ?_
      exact View.setInode_icache_of_ne e _
    rw [slot] at href hvalid ⊢
    exact h.clean ip' href hvalid

theorem Shows.unlock (h : Shows s k) (holds : ImageOf files s)
    (run : (iunlock ip).run k = .ok ((), l)) : Shows s l := by
  have keeps := iunlock_keeps (h.good holds) run
  obtain ⟨_, _, view⟩ := iunlock_view run
  have data : l.view.data = k.view.data := by
    rw [view]
    rfl
  refine ⟨data.trans h.data, keeps.good.coherent, ?_⟩
  have slot : ∀ ip', (l.icache ip').toDinode = (k.icache ip').toDinode ∧
      (l.icache ip').ref = (k.icache ip').ref ∧ (l.icache ip').valid = (k.icache ip').valid ∧
        (l.icache ip').inum = (k.icache ip').inum := by
    intro ip'
    have icache : l.icache ip' = (k.view.setInode ip fun inode =>
        { inode with busy := false }).icache ip' := congrFun (congrArg View.icache view) ip'
    rw [icache]
    by_cases e : ip' = ip
    · rw [e, View.setInode_icache]
      exact ⟨rfl, rfl, rfl, rfl⟩
    · rw [View.setInode_icache_of_ne e]
      exact ⟨rfl, rfl, rfl, rfl⟩
  intro ip' href hvalid
  obtain ⟨inode, ref, valid, inum⟩ := slot ip'
  rw [inode, inum, View.dnode, data]
  exact h.clean ip' (ref ▸ href) (valid ▸ hvalid)

theorem Shows.of_reads (h : Shows s k) (reads : k.Reads l) : Shows s l := by
  have icache : l.icache = k.icache := congrArg View.icache reads.view
  refine ⟨by rw [reads.view]; exact h.data, by rw [reads.view]; exact h.coherent, ?_⟩
  rw [icache, reads.view]
  exact h.clean

/-! ## The log -/

theorem beginOp_returns (h : k.Fresh s.image) :
    ∃ u, beginOp.run k = .ok ((), u) ∧ u.view = k.view ∧
      u.log.log = { k.log.log with outstanding := 1 } := by
  have room : ¬ (k.log.log.committing = true ∨
      k.log.log.lh.n + (k.log.log.outstanding + 1) * maxOpBlocks > logSize) := by
    rw [h.committing, h.empty, h.outstanding]
    decide
  have run : beginOp.run k = .ok ((), { k with
      log := { k.log with log := { k.log.log with outstanding := k.log.log.outstanding + 1 } },
      logged := ∅ }) := by
    rw [beginOp, FsM.get_bind, if_neg room]
    rfl
  refine ⟨_, run, ?_, ?_⟩
  · rw [← h.logged]
    rfl
  · rw [h.outstanding]
    rfl

/-- With an image of files that lie before the log, `balloc` takes a block of the log if and
only if all blocks before it are used.  If this does not happen, commits leave alone what
lies before the log. -/
theorem balloc_avoids_log (few : files.length ≤ ninodes - 2) (fits : neededBlocks files ≤ nblocks)
    (made : (main files).run start = .ok ((), s)) (started : boot s.image = some k) :
    (∀ calls u b t, Runs.Steps BlockStep k calls u → Xv6Gui.balloc.run u = .ok (b, t) →
      (b < size - nlog ↔ u.Roomy)) ∧
    ∀ calls u, Runs.Steps (Runs.Guarded BlockStep fun u c => c.Roomy u) k calls u →
      (∀ b t, u.Roomy → Xv6Gui.balloc.run u = .ok (b, t) → firstBlock ≤ b ∧ b < size - nlog) ∧
      ∀ t, endOp.run u = .ok ((), t) → ∀ z < size - nlog, t.view.data z = u.view.data z := by
  have inodes : ninodes = 200 := rfl
  have slots : inodeSlots = 208 := rfl
  have holds := main_image (by omega) made
  obtain ⟨k', run, fresh, booted⟩ := boot_image holds fits
  obtain rfl : k = k' := Option.some.inj (started.symm.trans run)
  have shows_ := shows_of_fresh fresh
  have log : k.log.log.start = size - nlog := by
    have sb : k.sb = ⟨size, nblocks, ninodes, nlog⟩ := shows_.sb holds
    rw [fresh.start, sb]
  refine ⟨?_, ?_⟩
  · intro calls u b t steps alloc
    have still : u.log.log.start = size - nlog := by
      refine steps.invariant (I := fun u => u.log.log.start = size - nlog) log ?_
      intro u c u' h step
      rw [BlockStep.start step, h]
    rw [← still]
    exact balloc_below_iff alloc
  · intro calls u steps
    have apart : LogApart u ∧ u.log.log.start = size - nlog ∧ u.view.sb = k.view.sb := by
      refine steps.invariant (I := fun u => LogApart u ∧ u.log.log.start = size - nlog ∧
        u.view.sb = k.view.sb) ⟨booted.apart, log, rfl⟩ ?_
      rintro u c u' ⟨h, still, sb⟩ ⟨roomy, step⟩
      obtain ⟨h', same⟩ := BlockStep.apart h step roomy
      exact ⟨h', by rw [BlockStep.start step, still], same.trans sb⟩
    obtain ⟨apart, still, sb⟩ := apart
    refine ⟨?_, ?_⟩
    · intro b t roomy alloc
      obtain ⟨_, low, below⟩ := apart.balloc roomy alloc
      rw [View.dataStart_congr sb, shows_.dataStart holds] at low
      rw [still] at below
      exact ⟨low, below⟩
    · intro t done z hz
      rw [← still] at hz
      exact (endOp_transaction apart.nonneg apart.sectors done).low z hz

/-- The first block the kernel allocates is the first one `mkfs` did not use. -/
theorem first_balloc (holds : ImageOf files s) (fresh : k.Fresh s.image)
    (more : s.freeblock < size) :
    ∃ u t, beginOp.run k = .ok ((), u) ∧ Xv6Gui.balloc.run u = .ok (s.freeblock, t) := by
  have shows_ := shows_of_fresh fresh
  have sb := shows_.sb holds
  obtain ⟨u, begun, view, log⟩ := beginOp_returns fresh
  have room : Room {bblock s.freeblock ninodes, s.freeblock} u.log.log := by
    rw [log]
    refine ⟨le_rfl, fresh.empty.ge, ?_⟩
    have none : k.log.log.lh.sectors = [] := by
      rw [LogHeader.sectors, fresh.empty]
      rfl
    have size : k.log.log.size = 30 := by
      have sb : k.sb = ⟨Mkfs.size, nblocks, ninodes, nlog⟩ := sb
      rw [fresh.size, sb]
      rfl
    have card : ({bblock s.freeblock ninodes, s.freeblock} : Finset Nat).card ≤ 2 :=
      Finset.card_le_two
    show k.log.log.lh.n + (({bblock s.freeblock ninodes, s.freeblock} \
      k.log.log.lh.sectors.toFinset : Finset Nat).card : Int) < min (logSize : Int)
        (k.log.log.size - 1)
    rw [fresh.empty, none, size]
    have size : (logSize : Int) = 30 := rfl
    simp only [List.toFinset_nil, Finset.sdiff_empty, size]
    omega
  have triple := balloc_log (v := k.view) (b := s.freeblock)
    (room_contract {bblock s.freeblock ninodes, s.freeblock})
    (by rw [sb]; simp) (by simp) (by rw [sb]; exact more)
    (by rw [shows_.used holds more]; simp)
    (fun x hx => by rw [shows_.used holds (by omega)]; exact decide_eq_true hx)
  obtain ⟨b, t, run, rfl, _⟩ := triple.returns ⟨view, room⟩
  exact ⟨u, t, begun, run⟩

theorem balloc_avoids_log_one_file :
    ∃ s k u b t, (main [⟨[97], some [1, 2, 3]⟩]).run start = .ok ((), s) ∧ boot s.image = some k ∧
      beginOp.run k = .ok ((), u) ∧ Xv6Gui.balloc.run u = .ok (b, t) ∧ firstBlock ≤ b ∧
        b < size - nlog := by
  obtain ⟨s, made, holds⟩ := main_ok [⟨[97], some [1, 2, 3]⟩] (by decide)
    ⟨by decide, by decide, by decide, by decide⟩
  have blocks := holds.blocks
  rw [totalBlocks_fileBytes] at blocks
  have below : firstBlock + neededBlocks [⟨[97], some [1, 2, 3]⟩] < size - nlog := by decide
  have fits : neededBlocks [⟨[97], some [1, 2, 3]⟩] ≤ nblocks := by decide
  obtain ⟨k, started, fresh, _⟩ := boot_image holds fits
  obtain ⟨u, t, begun, alloc⟩ := first_balloc holds fresh (by omega)
  have avoids := balloc_avoids_log (by decide) fits made started
  have step : BlockStep k .beginOp u :=
    ⟨trivial, congrArg FsCall.after.returned begun⟩
  have guarded : Runs.Guarded BlockStep (fun u c => c.Roomy u) k .beginOp u := ⟨trivial, step⟩
  have roomy := (avoids.1 _ u _ t (.single step) alloc).mp (by omega)
  obtain ⟨low, high⟩ := (avoids.2 _ u (.single guarded)).1 _ t roomy alloc
  exact ⟨s, k, u, _, t, made, started, begun, alloc, low, high⟩

/-- Two files fill the image up to the log, and the first block the kernel allocates is the
header of the log. -/
theorem balloc_returns_log_block :
    ∃ s k u b t,
      (main (twoFiles (.replicate (16523 * bsize) 0) (.replicate (3731 * bsize) 0))).run start =
        .ok ((), s) ∧ boot s.image = some k ∧ beginOp.run k = .ok ((), u) ∧
      Xv6Gui.balloc.run u = .ok (b, t) ∧ b = k.log.log.start := by
  obtain ⟨s, made, blocks, holds⟩ := twoFiles_ok (a := .replicate (16523 * bsize) 0)
    (b := .replicate (3731 * bsize) 0) List.length_replicate List.length_replicate (by decide)
    (by decide) (by decide)
  have last : firstBlock + (1 + mapBlocks 16523 + mapBlocks 3731) = size - nlog := by decide
  have room : firstBlock + nblocks = size - nlog := by decide
  have fits : neededBlocks (twoFiles (.replicate (16523 * bsize) 0)
      (.replicate (3731 * bsize) 0)) ≤ nblocks := by
    have := holds.blocks
    rw [totalBlocks_fileBytes] at this
    omega
  obtain ⟨k, started, fresh, _⟩ := boot_image holds fits
  have log : k.log.log.start = size - nlog := by
    have sb : k.sb = ⟨size, nblocks, ninodes, nlog⟩ := (shows_of_fresh fresh).sb holds
    rw [fresh.start, sb]
  have inside : size - nlog < size := by decide
  obtain ⟨u, t, begun, alloc⟩ := first_balloc holds fresh (by omega)
  exact ⟨s, k, u, _, t, made, started, begun, alloc, by omega⟩

end Mkfs

end Xv6Gui
