import Xv6Gui.Fs.BlockMap
import Xv6Gui.Fs.File

/-!
# How much an operation logs

`filewrite` cuts the data in parts of at most `max` bytes, `13` blocks, and writes
each in an operation of its own.  But `begin_op` reserves `MAXOPBLOCKS` blocks,
which are `10`.

What an operation logs depends on the map of the file.  It logs the blocks the data
goes to; the blocks that were missing and the index blocks that get an entry; the
blocks of the bitmap with the bits of the blocks it takes, which are the lowest free
ones; and the block of the inode if the file grows.  These are all different, so
their number is known before the operation.
-/

namespace Xv6Gui

open FsM (bind_ok get_bind)

variable {v w : View} {ip : InodePtr} {s t : Fs}

/-! ## The loop of `writei` -/

/-- The indices of the blocks of a file with the bytes from `off` on. -/
def blockRange (off n : Nat) : List Nat :=
  if n = 0 then [] else List.range' (off / bsize) ((off + n - 1) / bsize - off / bsize + 1)

/-- A round of the loop of `writei` does the first block. -/
theorem blockRange_cons {off n : Nat} (hn : 0 < n) :
    blockRange off n = off / bsize ::
      blockRange (off + min n (bsize - off % bsize)) (n - min n (bsize - off % bsize)) := by
  have size : bsize = 512 := rfl
  rw [blockRange, if_neg hn.ne', List.range'_succ, blockRange]
  congr 1
  split
  · have last : (off + n - 1) / bsize - off / bsize = 0 := by
      rw [size] at *
      omega
    rw [last]
    rfl
  · congr 1
    · rw [size] at *
      omega
    · rw [size] at *
      omega

/-- The places that some blocks need. -/
def paths (bns : List Nat) : List (List Nat) := bns.flatMap path

/-- The places of some blocks. -/
def leaves (bns : List Nat) : Finset (List Nat) := (bns.map leaf).toFinset

theorem writeiLoop_ok {src : Nat → UInt8} {n rounds tot off off' : Nat} {ps : List (List Nat)}
    {ls : Finset (List Nat)} (h : v.Written ip ps ls s.view) (enough : n - tot ≤ rounds)
    (run : (writeiLoop ip src n rounds tot off).run s = .ok (off', t)) :
    off' = off + (n - tot) ∧
      v.Written ip (ps ++ paths (blockRange off (n - tot)))
        (ls ∪ leaves (blockRange off (n - tot))) t.view := by
  induction rounds generalizing s tot off ps ls with
  | zero =>
    cases run
    have done : n - tot = 0 := by omega
    rw [done, blockRange, if_pos rfl]
    simpa [paths, leaves] using h
  | succ rounds ih =>
    simp only [writeiLoop] at run
    split at run
    · rename_i more
      obtain ⟨a, u, hmap, run⟩ := bind_ok.mp run
      obtain ⟨bp, u₁, hread, run⟩ := bind_ok.mp run
      obtain ⟨_, u₂, hwrite, run⟩ := bind_ok.mp run
      obtain ⟨mapped, val⟩ := bmap_ok h hmap
      have written := mapped.leaf val (leaf_ne_nil _) (leaf_bottom _)
        (bp.copy (off % bsize) (min (n - tot) (bsize - off % bsize)) fun i => src (tot + i))
      rw [← (bread_ok hread).2, ← logWrite_ok hwrite] at written
      have progress : 0 < min (n - tot) (bsize - off % bsize) := by
        have : off % bsize < bsize := Nat.mod_lt _ (by decide)
        omega
      obtain ⟨hoff, done⟩ := ih written (by omega) run
      have left : n - (tot + min (n - tot) (bsize - off % bsize)) =
          n - tot - min (n - tot) (bsize - off % bsize) := by omega
      rw [left] at hoff done
      refine ⟨by omega, ?_⟩
      rw [blockRange_cons (by omega)]
      simpa [paths, leaves, Finset.insert_union, Finset.union_insert] using done
    · cases run
      have done : n - tot = 0 := by omega
      rw [done, blockRange, if_pos rfl]
      simpa [paths, leaves] using h

/-! ## The number of blocks -/

/-- The blocks of the bitmap with the bits of the blocks that are taken. -/
def bitBlocks (v : View) (ip : InodePtr) (ps : List (List Nat)) : Finset Nat :=
  ((Demand.taken (v.blocks ip) ps).map fun b => bblock b v.sb.ninodes).toFinset

theorem val_dropLast {p : List Nat} {a : Nat} (h : (v.blocks ip).val p = some a) :
    ∃ c, (v.blocks ip).val p.dropLast = some c := by
  induction p using List.reverseRecOn with
  | nil => exact ⟨a, h⟩
  | append_singleton q j _ =>
    have place := View.place_of_val h
    rw [View.val_of_place place, Trie.walk_snoc] at h
    obtain ⟨c, hc, _⟩ := Runs.bind_some.mp h
    refine ⟨c, ?_⟩
    rw [List.dropLast_concat, View.val_of_place (place_closed q j place), hc]

theorem mem_bitBlocks {ps : List (List Nat)} {z : Nat} (hz : z ∈ bitBlocks v ip ps) :
    v.sb.ninodes / ipb + 3 ≤ z ∧ z < v.dataStart := by
  obtain ⟨b, hb, rfl⟩ := List.mem_map.mp (List.mem_toFinset.mp hz)
  have free : b ∈ v.free := List.mem_of_mem_take hb
  refine ⟨?_, View.bblock_lt (View.mem_free.mp free).1⟩
  rw [bblock, Nat.add_assoc]
  exact Nat.le_add_left ..

namespace View.Written

variable {ps : List (List Nat)} {ls : Finset (List Nat)} (h : v.Written ip ps ls w)

include h

/-- A place that was demanded has a block. -/
theorem filled {p : List Nat} (hp : p ∈ ps) : ∃ a, (w.blocks ip).val p = some a := by
  refine Option.ne_none_iff_exists'.mp ?_
  intro none
  exact ((Demand.val_none_iff h.steps p).mp none).2 hp

theorem touched_filled {p : List Nat} (hp : p ∈ touched (v.blocks ip) ps) :
    p ≠ [] ∧ ∃ a, (w.blocks ip).val p = some a := by
  obtain missing | ⟨ne, q, missing, rfl⟩ := mem_touched.mp hp
  · obtain ⟨mem, none⟩ := Demand.mem_missing.mp missing
    refine ⟨?_, h.filled mem⟩
    rintro rfl
    cases none
  · obtain ⟨a, hq⟩ := h.filled (Demand.mem_missing.mp missing).1
    exact ⟨ne, val_dropLast hq⟩

/-- The blocks that are logged, all different. -/
theorem card (empty : v.logged = ∅) (hls : ∀ p ∈ ls, p ≠ [] ∧ p ∈ ps) :
    w.logged.card = (touched (v.blocks ip) ps ∪ ls).card + (bitBlocks v ip ps).card ∧
      ∀ z ∈ w.logged, v.sb.ninodes / ipb + 3 ≤ z := by
  have filled : ∀ p ∈ touched (v.blocks ip) ps ∪ ls, p ≠ [] ∧ ∃ a, (w.blocks ip).val p = some a := by
    intro p hp
    obtain hp | hp := Finset.mem_union.mp hp
    · exact h.touched_filled hp
    · exact ⟨(hls p hp).1, h.filled (hls p hp).2⟩
  let block (p : List Nat) : Nat := ((w.blocks ip).val p).getD 0
  have block_eq : ∀ p ∈ touched (v.blocks ip) ps ∪ ls, (w.blocks ip).val p = some (block p) := by
    intro p hp
    obtain ⟨_, a, ha⟩ := filled p hp
    simp only [block, ha, Option.getD_some]
  have high : ∀ p ∈ touched (v.blocks ip) ps ∪ ls, v.dataStart ≤ block p := by
    intro p hp
    have := h.wf.high p _ (filled p hp).1 (block_eq p hp)
    rwa [dataStart, h.frame.sb] at this
  have logged : w.logged = (touched (v.blocks ip) ps ∪ ls).image block ∪ bitBlocks v ip ps := by
    ext z
    rw [h.logged, empty, Finset.mem_union, Finset.mem_image, bitBlocks, List.mem_toFinset,
      List.mem_map]
    constructor
    · rintro (hz | ⟨p, hp, hz⟩ | ⟨b, hb, hz⟩)
      · cases hz
      · exact .inl ⟨p, hp, Option.some.inj ((block_eq p hp).symm.trans hz)⟩
      · exact .inr ⟨b, hb, hz.symm⟩
    · rintro (⟨p, hp, rfl⟩ | ⟨b, hb, rfl⟩)
      · exact .inr (.inl ⟨p, hp, block_eq p hp⟩)
      · exact .inr (.inr ⟨b, hb, rfl⟩)
  have inj : Set.InjOn block (touched (v.blocks ip) ps ∪ ls : Finset (List Nat)) := by
    intro p hp q hq e
    exact h.wf.sound.inj p q (block p) (block_eq p hp) (e ▸ block_eq q hq)
  constructor
  · rw [logged, Finset.card_union_of_disjoint, Finset.card_image_of_injOn inj]
    refine Finset.disjoint_left.mpr ?_
    intro z hz hz'
    obtain ⟨p, hp, rfl⟩ := Finset.mem_image.mp hz
    exact absurd (mem_bitBlocks hz').2 (Nat.not_lt.mpr (high p hp))
  · intro z hz
    rw [logged, Finset.mem_union] at hz
    obtain hz | hz := hz
    · obtain ⟨p, hp, rfl⟩ := Finset.mem_image.mp hz
      exact (Nat.le_add_right ..).trans (high p hp)
    · exact (mem_bitBlocks hz).1

end View.Written

variable {r : Int} {addr : Nat → UInt8}

/-! ## `writei` -/

/-- The blocks that `writei` logs. -/
def writeiCost (v : View) (ip : InodePtr) (off n : Nat) : Nat :=
  let inode := v.icache ip
  if inode.type = tDev ∨ off > inode.size ∨ (off + n) % 2 ^ 32 < off ∨
      (off + n) % 2 ^ 32 > maxFile * bsize then
    0
  else
    let bns := blockRange off n
    (View.touched (v.blocks ip) (paths bns) ∪ leaves bns).card + (bitBlocks v ip (paths bns)).card +
      if 0 < n ∧ off + n > inode.size then 1 else 0

theorem iupdate_ok (run : (iupdate ip).run s = .ok ((), t)) :
    t.logged = insert (iblock (s.icache ip).inum) s.logged ∧ t.ops = s.ops := by
  rw [iupdate, get_bind] at run
  obtain ⟨bp, u, hread, run⟩ := bind_ok.mp run
  have view := (logWrite_ok run).trans (congrArg (View.write · _ _) (bread_ok hread).2)
  exact ⟨congrArg View.logged view, congrArg View.ops view⟩

theorem writeiData_ok {src : Nat → UInt8} {off n : Nat} (wf : s.view.WellFormed ip)
    (empty : s.logged = ∅) (run : (writeiData ip src off n).run s = .ok (r, t)) :
    t.logged.card = (View.touched (s.view.blocks ip) (paths (blockRange off n)) ∪
        leaves (blockRange off n)).card + (bitBlocks s.view ip (paths (blockRange off n))).card +
        (if 0 < n ∧ off + n > (s.icache ip).size then 1 else 0) ∧
      t.ops = s.ops := by
  obtain ⟨off', u, hloop, run⟩ := bind_ok.mp run
  obtain ⟨rfl, written⟩ := writeiLoop_ok (.start wf) (by omega) hloop
  rw [Nat.sub_zero, List.nil_append, Finset.empty_union] at written
  rw [Nat.sub_zero] at run
  have inside : ∀ p ∈ leaves (blockRange off n), p ≠ [] ∧ p ∈ paths (blockRange off n) := by
    intro p hp
    obtain ⟨bn, hbn, rfl⟩ := List.mem_map.mp (List.mem_toFinset.mp hp)
    exact ⟨leaf_ne_nil bn, List.mem_flatMap.mpr ⟨bn, hbn, leaf_mem_path bn⟩⟩
  obtain ⟨card, above⟩ := written.card empty inside
  have size : (u.icache ip).size = (s.icache ip).size := written.frame.size
  have ops : u.ops = s.ops := written.frame.ops
  simp only [get_bind, size] at run
  split at run
  · rename_i grows
    obtain ⟨_, u₁, hset, run⟩ := bind_ok.mp run
    obtain ⟨_, u₂, hupdate, run⟩ := bind_ok.mp run
    cases run
    obtain ⟨logged, ops'⟩ := iupdate_ok hupdate
    have view := setInode_ok hset
    have inum : (u₁.icache ip).inum = (s.icache ip).inum := by
      have inode := (congrFun (congrArg View.icache view) ip).trans (View.setInode_icache _)
      exact (congrArg Inode.inum inode).trans written.frame.inum
    have before : u₁.logged = u.logged := congrArg View.logged view
    have new : iblock (s.icache ip).inum ∉ u.logged := by
      intro mem
      exact (above _ mem).not_gt (iblock_lt wf.inum)
    rw [logged, inum, before, Finset.card_insert_of_notMem new, if_pos grows, ops']
    exact ⟨congrArg (· + 1) card, (congrArg View.ops view).trans ops⟩
  · rename_i same
    cases run
    rw [if_neg same]
    exact ⟨card, ops⟩

/-- The inode as `ilock` leaves it, read from the disk if it is not valid. -/
def View.load (v : View) (inode : Inode) : Inode :=
  let disk := (v.data (iblock inode.inum)).dinode (inode.inum % ipb)
  { inode with toDinode := if inode.valid then inode.toDinode else disk, valid := true }

/-- `ilock`. -/
def View.lock (v : View) (ip : InodePtr) : View :=
  v.setInode ip fun inode => v.load { inode with busy := true }

theorem View.setInode_setInode (v : View) (ip : InodePtr) (f g : Inode → Inode) :
    (v.setInode ip f).setInode ip g = v.setInode ip fun inode => g (f inode) := by
  simp only [setInode, Function.update_idem, Function.update_self]

theorem iload_ok (run : (iload ip).run s = .ok ((), t)) :
    t.view = s.view.setInode ip s.view.load := by
  simp only [iload, get_bind] at run
  split at run
  · rename_i valid
    cases run
    have same : s.view.load (s.view.icache ip) = s.view.icache ip := by
      have valid : (s.view.icache ip).valid = true := valid
      generalize s.view.icache ip = inode at valid
      obtain ⟨_, _, _, _, _⟩ := inode
      cases valid
      rfl
    rw [View.setInode, same, Function.update_eq_self]
  · rename_i invalid
    obtain ⟨bp, u, hread, run⟩ := bind_ok.mp run
    obtain ⟨rfl, hu⟩ := bread_ok hread
    obtain ⟨_, u₁, hset, run⟩ := bind_ok.mp run
    have view := setInode_ok hset
    rw [hu] at view
    split at run
    · cases run
    · cases run
      have invalid : ¬ (s.view.icache ip).valid = true := invalid
      rw [view, View.setInode, View.setInode, View.load]
      simp only [if_neg invalid]
      rfl

theorem ilock_ok (run : (ilock ip).run s = .ok ((), t)) : t.view = s.view.lock ip := by
  simp only [ilock, get_bind] at run
  split at run
  · cases run
  · split at run
    · cases run
    · obtain ⟨_, u, hset, run⟩ := bind_ok.mp run
      have view := setInode_ok hset
      rw [iload_ok run, view]
      exact View.setInode_setInode ..

theorem iunlock_ok (run : (iunlock ip).run s = .ok ((), t)) :
    t.logged = s.logged ∧ t.ops = s.ops := by
  simp only [iunlock, get_bind] at run
  split at run
  · cases run
  · cases run
    exact ⟨rfl, rfl⟩

/-- A device logs nothing. -/
theorem writeiDev_ok {major : Int} {n : Nat} (run : (writeiDev ip major n).run s = .ok (r, t)) :
    t.logged = s.logged ∧ t.ops = s.ops := by
  rw [writeiDev] at run
  split at run
  · cases run
    exact ⟨rfl, rfl⟩
  · split at run
    · cases run
      exact ⟨rfl, rfl⟩
    · rename_i write hwrite
      rw [devswWrite] at hwrite
      split at hwrite
      · cases hwrite
        obtain ⟨_, u, hunlock, run⟩ := bind_ok.mp run
        obtain ⟨_, u₁, hlock, run⟩ := bind_ok.mp run
        cases run
        obtain ⟨logged, ops⟩ := iunlock_ok hunlock
        have view := ilock_ok hlock
        exact ⟨(congrArg View.logged view).trans logged, (congrArg View.ops view).trans ops⟩
      · cases hwrite

theorem writei_ok {src : Nat → UInt8} {off n : Nat} (wf : s.view.WellFormed ip)
    (empty : s.logged = ∅) (run : (writei ip src off n).run s = .ok (r, t)) :
    t.logged.card = writeiCost s.view ip off n ∧ t.ops = s.ops := by
  have none : s.logged.card = 0 := by rw [empty]; rfl
  simp only [writei, get_bind] at run
  simp only [writeiCost]
  split at run
  · rename_i device
    obtain ⟨logged, ops⟩ := writeiDev_ok run
    rw [if_pos (.inl device), logged]
    exact ⟨none, ops⟩
  · rename_i device
    split at run
    · rename_i range
      cases run
      rw [if_pos (.inr (or_assoc.mp (.inl range)))]
      exact ⟨none, rfl⟩
    · rename_i range
      split at run
      · rename_i big
        cases run
        rw [if_pos (.inr (.inr (.inr big)))]
        exact ⟨none, rfl⟩
      · rename_i big
        rw [if_neg (by
          rintro (h | h | h | h)
          · exact device h
          · exact range (.inl h)
          · exact range (.inr h)
          · exact big h)]
        exact writeiData_ok wf empty run

/-! ## The operations of `filewrite` -/

/-- What an operation of `filewrite` finds when it calls `writei`. -/
def opView (s : Fs) (f : FilePtr) : View :=
  ({ s.view with logged := ∅ } : View).lock (s.ftable f).ip

/-- The number of blocks an operation of `filewrite` logs. -/
def opCost (s : Fs) (f : FilePtr) (n1 : Int) : Nat :=
  writeiCost (opView s f) (s.ftable f).ip (s.ftable f).off (ofInt n1)

theorem beginOp_ok (run : beginOp.run s = .ok ((), t)) : t.view = { s.view with logged := ∅ } := by
  simp only [beginOp, get_bind] at run
  split at run
  · cases run
  · cases run
    rfl

theorem endOp_ok (run : endOp.run s = .ok ((), t)) : t.ops = s.ops ++ [s.logged] := by
  simp only [endOp, get_bind] at run
  split at run
  · cases run
  · split at run
    · cases run
      rfl
    · cases run
      rfl

/-- An operation of `filewrite` logs as many blocks as its cost says. -/
theorem filewriteOp_ok {f : FilePtr} {n1 : Int}
    (wf : (opView s f).WellFormed (s.ftable f).ip)
    (run : (filewriteOp f addr n1).run s = .ok (r, t)) :
    ∃ op, t.ops = s.ops ++ [op] ∧ op.card = opCost s f n1 := by
  obtain ⟨_, s₁, hbegin, run⟩ := bind_ok.mp run
  rw [get_bind] at run
  obtain ⟨_, s₂, hlock, run⟩ := bind_ok.mp run
  rw [get_bind] at run
  obtain ⟨r', s₃, hwrite, run⟩ := bind_ok.mp run
  obtain ⟨_, s₄, hadvance, run⟩ := bind_ok.mp run
  obtain ⟨_, s₅, hunlock, run⟩ := bind_ok.mp run
  obtain ⟨_, s₆, hend, run⟩ := bind_ok.mp run
  cases run
  cases hadvance
  have begun := beginOp_ok hbegin
  have ftable₁ : s₁.ftable = s.ftable := congrArg View.ftable begun
  have view : s₂.view = opView s f := by
    rw [ilock_ok hlock, begun, ftable₁]
    rfl
  have ftable₂ : s₂.ftable = s.ftable := congrArg View.ftable view
  rw [ftable₂] at hwrite
  obtain ⟨card, ops⟩ := writei_ok (view ▸ wf) (congrArg View.logged view) hwrite
  obtain ⟨logged', ops'⟩ := iunlock_ok hunlock
  refine ⟨s₅.logged, ?_, ?_⟩
  · rw [endOp_ok hend, ops']
    exact congrArg (· ++ [s₅.logged]) (ops.trans (congrArg View.ops view))
  · rw [logged', opCost, ← view]
    exact card

/-- The state before each operation of the loop of `filewrite`, and the bytes it is
to write. -/
def loopOps (f : FilePtr) (addr : Nat → UInt8) (n : Int) : Nat → Int → Fs → List (Fs × Int)
  | 0, _, _ => []
  | rounds + 1, i, s =>
    if i < n then
      let n1 := min (n - i) maxWrite
      (s, n1) ::
        match (filewriteOp f (fun k => addr (i.toNat + k)) n1).run s with
        | .ok (r, t) => if r = n1 then loopOps f addr n rounds (i + r) t else []
        | .error _ => []
    else
      []

/-- The state before each operation of `filewrite`, and the bytes it is to write. -/
def filewriteOps (f : FilePtr) (addr : Nat → UInt8) (n : Int) (s : Fs) : List (Fs × Int) :=
  if (s.ftable f).writable ∧ (s.ftable f).type = .inode then
    loopOps f addr n n.toNat 0 s
  else
    []

/-- A write of at most `max` bytes is a single operation. -/
theorem filewriteOps_single {f : FilePtr} {n : Int}
    (file : (s.ftable f).writable ∧ (s.ftable f).type = .inode) (pos : 0 < n)
    (small : n ≤ maxWrite) : filewriteOps f addr n s = [(s, n)] := by
  obtain ⟨rounds, hrounds⟩ : ∃ rounds, n.toNat = rounds + 1 := ⟨n.toNat - 1, by omega⟩
  have bytes : min (n - 0) maxWrite = n := by omega
  have rest : ∀ r t, (if r = n then loopOps f addr n rounds (0 + r) t else []) = [] := by
    intro r t
    split
    · rename_i whole
      rw [whole, zero_add]
      cases rounds with
      | zero => rfl
      | succ rounds => rw [loopOps, if_neg (lt_irrefl n)]
    · rfl
  rw [filewriteOps, if_pos file, hrounds, loopOps, if_pos pos]
  simp only [bytes]
  congr 1
  split
  · exact rest ..
  · rfl

/-- The operations of the loop of `filewrite` are those listed. -/
theorem filewriteLoop_ok {f : FilePtr} {n i : Int} {rounds : Nat}
    (wf : ∀ c ∈ loopOps f addr n rounds i s, (opView c.1 f).WellFormed (c.1.ftable f).ip)
    (run : (filewriteLoop f addr n rounds i).run s = .ok (r, t)) :
    ∃ ops, t.ops = s.ops ++ ops ∧
      List.Forall₂ (fun c op => Finset.card op = opCost c.1 f c.2) (loopOps f addr n rounds i s)
        ops := by
  induction rounds generalizing s i with
  | zero =>
    cases run
    exact ⟨[], (List.append_nil _).symm, .nil⟩
  | succ rounds ih =>
    simp only [filewriteLoop] at run
    split at run
    · rename_i more
      obtain ⟨r', u, hop, run⟩ := bind_ok.mp run
      have list : loopOps f addr n (rounds + 1) i s = (s, min (n - i) maxWrite) ::
          if r' = min (n - i) maxWrite then loopOps f addr n rounds (i + r') u else [] := by
        simp only [loopOps, if_pos more, hop]
      rw [list] at wf ⊢
      obtain ⟨op, hops, card⟩ := filewriteOp_ok (wf _ List.mem_cons_self) hop
      split at run
      · rename_i failed
        cases run
        have short : r' ≠ min (n - r) maxWrite := by
          have : maxWrite = 6656 := rfl
          omega
        rw [if_neg short]
        exact ⟨[op], hops, .cons card .nil⟩
      · split at run
        · cases run
        · rename_i whole
          have whole : r' = min (n - i) maxWrite := by_contra whole
          rw [if_pos whole] at wf ⊢
          obtain ⟨ops, hops', cards⟩ := ih (fun c hc => wf c (List.mem_cons_of_mem _ hc)) run
          exact ⟨op :: ops, by rw [hops', hops]; simp, .cons card cards⟩
    · rename_i done
      have list : loopOps f addr n (rounds + 1) i s = [] := by
        simp only [loopOps, if_neg done]
      cases run
      rw [list]
      exact ⟨[], (List.append_nil _).symm, .nil⟩

theorem bound_iff_of_eq {α β : Type} {g : α → Nat} {h : β → Nat} {k : Nat} {as : List α}
    {bs : List β} (eq : List.Forall₂ (fun a b => h b = g a) as bs) :
    (∀ b ∈ bs, h b ≤ k) ↔ ∀ a ∈ as, g a ≤ k := by
  induction eq with
  | nil => simp
  | cons e _ ih => simp [e, ih]

/-- The operations of `filewrite` stay within their reservations exactly when the
blocks counted before each of them are at most `MAXOPBLOCKS`. -/
theorem filewrite_ops_fit {pipewrite : Except Halt Int} {f : FilePtr} {addr : Nat → UInt8}
    {n r : Int} (run : (filewrite pipewrite f addr n).run s = .ok (r, t))
    (wf : ∀ c ∈ filewriteOps f addr n s, (opView c.1 f).WellFormed (c.1.ftable f).ip) :
    ∃ ops, t.ops = s.ops ++ ops ∧
      List.Forall₂ (fun c op => Finset.card op = opCost c.1 f c.2) (filewriteOps f addr n s) ops ∧
      ((∀ op ∈ ops, op.card ≤ maxOpBlocks) ↔
        ∀ c ∈ filewriteOps f addr n s, opCost c.1 f c.2 ≤ maxOpBlocks) := by
  obtain ⟨ops, hops, cards⟩ : ∃ ops, t.ops = s.ops ++ ops ∧
      List.Forall₂ (fun c op => Finset.card op = opCost c.1 f c.2) (filewriteOps f addr n s)
        ops := by
    simp only [filewrite, get_bind] at run
    split at run
    · rename_i readOnly
      have none : filewriteOps f addr n s = [] := if_neg fun h => readOnly h.1
      cases run
      rw [none]
      exact ⟨[], (List.append_nil _).symm, .nil⟩
    · rename_i writable
      have writable : (s.ftable f).writable := by_contra writable
      split at run
      · rename_i pipe
        have none : filewriteOps f addr n s = [] := if_neg fun h => by simp [h.2] at pipe
        rw [none]
        cases pipewrite with
        | error e => cases run
        | ok a =>
          cases run
          exact ⟨[], (List.append_nil _).symm, .nil⟩
      · rename_i inode
        have some : filewriteOps f addr n s = loopOps f addr n n.toNat 0 s :=
          if_pos ⟨writable, inode⟩
        obtain ⟨i, u, hloop, run⟩ := bind_ok.mp run
        cases run
        rw [some] at wf ⊢
        exact filewriteLoop_ok wf hloop
      · cases run
  exact ⟨ops, hops, cards, bound_iff_of_eq cards⟩

/-- An inode without blocks is well formed. -/
theorem wellFormed_of_empty (addrs : ∀ i, (v.icache ip).addrs i = 0)
    (inum : (v.icache ip).inum < v.sb.slots) (used : ∀ b < v.dataStart, v.used b = true) :
    v.WellFormed ip := by
  have low : ∀ b ∈ v.free, v.dataStart ≤ b := by
    intro b hb
    by_contra lt
    have clear := (View.mem_free.mp hb).2
    rw [used b (by omega)] at clear
    cases clear
  have root : ∀ p b, (v.blocks ip).val p = some b → p = [] ∧ b = 0 := by
    intro p b hp
    have place := View.place_of_val hp
    cases p with
    | nil =>
      cases hp
      exact ⟨rfl, rfl⟩
    | cons i q =>
      have absent : v.child ip 0 i = none := by
        rw [View.child, if_pos rfl]
        split
        · rw [addrs, pointer_eq_none.mpr rfl]
        · rfl
      rw [View.val_of_place place, Trie.walk, List.foldlM_cons, absent] at hp
      cases hp
  refine ⟨inum, ⟨?_, ?_, v.free_nodup⟩, low, ?_⟩
  · intro p q b hp hq
    rw [(root p b hp).1, (root q b hq).1]
  · intro p b hp mem
    have := low b mem
    have := v.dataStart_pos
    have := (root p b hp).2
    omega
  · intro p b ne hp
    exact absurd (root p b hp).1 ne

/-- The disk as `mkfs` leaves it, without files: the super block and the bitmap. -/
def emptyDisk (b : Nat) : Block :=
  if b = 1 then
    (((Block.zero.setWord 0 20480).setWord 1 (20446 - logSize)).setWord 2 200).setWord 3 logSize
  else if b = 28 then
    (List.range 34).foldl Block.setBit .zero
  else
    .zero

/-- An empty file on a disk of `mkfs`. -/
def emptyFile : Fs where
  log := ⟨⟨emptyDisk, fun _ => none, []⟩, ⟨20450, logSize, 0, false, ⟨0, fun _ => 0⟩⟩⟩
  icache _ :=
    { type := 2, major := 0, minor := 0, nlink := 1, size := 0, addrs := fun _ => 0, inum := 5,
      ref := 1, busy := false, valid := true }
  ftable _ := ⟨.inode, true, ⟨0, ninode_pos⟩, 0⟩
  logged := ∅
  ops := []

theorem ok_of_toOption {ε α β : Type} {x : Except ε α} {g : α → β} {b : β}
    (h : x.toOption.map g = some b) : ∃ a, x = .ok a ∧ g a = b := by
  cases x with
  | error e => cases h
  | ok a => exact ⟨a, rfl, Option.some.inj h⟩

/-- The first `max` bytes of a file: thirteen blocks of data, the indirect block, a
block of the bitmap and the block of the inode. -/
theorem filewrite_ops_fit_max :
    ∃ t, (filewrite (.ok 0) ⟨0, by decide⟩ (fun _ => 1) 6656).run emptyFile = .ok (6656, t) ∧
      t.ops.map Finset.card = [16] := by
  have run : ((filewrite (.ok 0) ⟨0, by decide⟩ (fun _ => 1) 6656).run emptyFile).toOption.map
      (fun r => (r.1, r.2.ops.map Finset.card)) = some (6656, [16]) := by decide +kernel
  obtain ⟨⟨r, t⟩, hrun, e⟩ := ok_of_toOption run
  obtain ⟨rfl, card⟩ := Prod.mk.inj e
  exact ⟨t, hrun, card⟩

/-- Seven blocks of data, with a block of the bitmap and the block of the inode. -/
theorem filewrite_ops_fit_seven :
    ∃ t, (filewrite (.ok 0) ⟨0, by decide⟩ (fun _ => 1) 3584).run emptyFile = .ok (3584, t) ∧
      opCost emptyFile ⟨0, by decide⟩ 3584 = 9 ∧ ∀ op ∈ t.ops, op.card ≤ maxOpBlocks := by
  have run : ((filewrite (.ok 0) ⟨0, by decide⟩ (fun _ => 1) 3584).run emptyFile).toOption.map
      Prod.fst = some 3584 := by decide +kernel
  have cost : opCost emptyFile ⟨0, by decide⟩ 3584 = 9 := by decide +kernel
  obtain ⟨⟨r, t⟩, hrun, rfl⟩ := ok_of_toOption run
  have single : filewriteOps ⟨0, by decide⟩ (fun _ => 1) 3584 emptyFile = [(emptyFile, 3584)] :=
    filewriteOps_single ⟨rfl, rfl⟩ (by decide) (by decide)
  have wf : (opView emptyFile ⟨0, by decide⟩).WellFormed ⟨0, by decide⟩ :=
    wellFormed_of_empty (fun _ => rfl) (by decide +kernel) (by decide +kernel)
  obtain ⟨ops, hops, _, fits⟩ := filewrite_ops_fit hrun (by
    rw [single]
    intro c hc
    rw [List.mem_singleton.mp hc]
    exact wf)
  refine ⟨t, hrun, cost, ?_⟩
  rw [hops]
  refine fits.mpr ?_
  rw [single]
  intro c hc
  rw [List.mem_singleton.mp hc, cost]
  decide

end Xv6Gui
