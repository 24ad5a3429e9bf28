import Xv6Gui.Fs.BlockOwners

/-!
# The inodes users see

What users see of the disk is a map from inode numbers to inodes: their type, their device
numbers, their count of links, and their bytes.  Where the blocks of a file lie, what is in
memory and what is in the log does not show.

In a *sane* state every inode in memory is as it is on the disk, and no file has a hole.
There the functions of the inode layer act on the map: most do not change it at all, and `writei`
changes one inode.
-/

namespace Xv6Gui

open Effect Runs

variable {s t : Fs} {ip : InodePtr} {i : Nat}

/-- An inode as users see it. -/
structure UserInode where
  type : Int
  major : Int
  minor : Int
  nlink : Int
  bytes : List UInt8
  deriving DecidableEq

/-- The allocated inodes. -/
def Volume.tree (v : Volume) (i : Nat) : Option UserInode :=
  if (v.inode i).type = 0 then
    none
  else
    some ⟨(v.inode i).type, (v.inode i).major, (v.inode i).minor, (v.inode i).nlink, v.file i⟩

/-- The inodes as users see them. -/
def Fs.tree (s : Fs) : Nat → Option UserInode := s.view.vol.tree

/-- The inodes in memory are as on the disk. -/
def View.Settled (v : View) : Prop :=
  ∀ ip, v.Held ip → v.dnode (v.icache ip).inum = (v.icache ip).toDinode

/-- No file has a hole. -/
def Volume.Complete (v : Volume) : Prop := ∀ i, (v.inode i).type ≠ 0 → v.Whole i

/-- A sound state with whole files, in which nothing is left to be written to the disk. -/
structure Fs.Sane (s : Fs) : Prop where
  sound : s.Sound
  settled : s.view.Settled
  complete : s.view.vol.Complete

/-- A call keeps the state sane and changes the inodes to `tree`. -/
structure Fs.Moves (t : Fs) (tree : Nat → Option UserInode) : Prop where
  sane : t.Sane
  tree : t.tree = tree

namespace Volume

variable {v w : Volume}

theorem tree_of_type (h : (v.inode i).type ≠ 0) : v.tree i =
    some ⟨(v.inode i).type, (v.inode i).major, (v.inode i).minor, (v.inode i).nlink, v.file i⟩ :=
  if_neg h

/-- A file is determined by its inode and its blocks. -/
theorem tree_congr (inode : w.inode i = v.inode i)
    (data : ∀ p b, v.node (i :: p) = some (.block b) → w.data b = v.data b) :
    w.tree i = v.tree i ∧ (v.Whole i → w.Whole i) := by
  have type : (w.inode i).type = (v.inode i).type := by rw [inode]
  have addrs : (w.inode i).addrs = (v.inode i).addrs := by rw [inode]
  constructor
  · have file := file_congr (by rw [inode]) (content_file_congr type addrs data)
    rw [tree, tree, inode, file]
  · intro whole bn below
    rw [inode] at below
    rw [node_file_congr type addrs data]
    exact whole bn below

end Volume

theorem FsCall.returned_of {α : Type} {r : Except Halt (α × Fs)} {a : α} (h : r = .ok (a, t)) :
    after.returned r = some t := by
  rw [h]
  rfl

theorem Booted.sane (h : Booted s) (complete : s.view.vol.Complete) : s.Sane := by
  refine ⟨h.sound, ?_, complete⟩
  intro ip held
  have none : (s.view.icache ip).ref = 0 := h.refs ip
  have := held.ref
  omega

/-! ## Steps that change no inode -/

theorem View.vol_of_current {v w : View} (data : w.data = v.data)
    (current : ∀ i, w.current i = v.current i) : w.vol = v.vol := by
  have sb : w.sb = v.sb := by rw [View.sb, View.sb, data]
  simp only [vol, data, current, sb]

theorem Fs.Sane.of_current (h : s.Sane) (sound : t.Sound) (data : t.view.data = s.view.data)
    (current : ∀ i, t.view.current i = s.view.current i) (settled : t.view.Settled) :
    t.Moves s.tree := by
  have vol := View.vol_of_current data current
  exact ⟨⟨sound, settled, by rw [vol]; exact h.complete⟩, by rw [Fs.tree, vol]; rfl⟩

/-- The start and the end of a transaction. -/
theorem OpBoundary.moves (h : s.Sane) (step : OpBoundary s t) : t.Moves s.tree := by
  obtain ⟨sb, dnode, _, node⟩ := h.sound.good.low_eq step.icache step.low
  have vol : t.view.vol = { s.view.vol with data := t.view.data } :=
    View.vol_congr step.icache sb dnode
  have inode : t.view.vol.inode = s.view.vol.inode := by rw [vol]
  have data : ∀ q b, s.view.vol.node q = some (.block b) → t.view.vol.data b = s.view.vol.data b := by
    intro q b hq
    exact step.low b (h.sound.good.owned.mapped q b hq).2.1
  have same : ∀ i, t.view.vol.tree i = s.view.vol.tree i ∧
      (s.view.vol.Whole i → t.view.vol.Whole i) :=
    fun i => Volume.tree_congr (congrFun inode i) fun p b hb => data _ b hb
  refine ⟨⟨step.sound h.sound, ?_, ?_⟩, funext fun i => (same i).1⟩
  · have icache : t.view.icache = s.view.icache := step.icache
    intro ip held
    have held : s.view.Held ip := ⟨by rw [← icache]; exact held.ref, by rw [← icache]; exact held.valid⟩
    rw [icache, dnode _ (h.sound.good.coherent.inum ip held.ref)]
    exact h.settled ip held
  · intro i type
    rw [inode] at type
    exact (same i).2 (h.complete i type)

/-- Only slot `ip` changes, and only in a way that does not show on the disk. -/
theorem View.Settled.slot {v w : View} (h : v.Settled) (data : w.data = v.data)
    (other : ∀ ip' ≠ ip, w.icache ip' = v.icache ip')
    (here : w.Held ip → v.dnode (w.icache ip).inum = (w.icache ip).toDinode) : w.Settled := by
  intro ip' held
  have dnode : ∀ i, w.dnode i = v.dnode i := fun i => by rw [View.dnode, View.dnode, data]
  rw [dnode]
  by_cases e : ip' = ip
  · rw [e] at held ⊢
    exact here held
  · have same := other ip' e
    rw [same]
    exact h ip' ⟨by rw [← same]; exact held.ref, by rw [← same]; exact held.valid⟩

theorem iget_settled {inum : Nat} (h : s.view.Settled) (run : (iget inum).run s = .ok (ip, t)) :
    t.view.data = s.view.data ∧ t.view.Settled := by
  obtain ⟨href, _, view⟩ | ⟨_, _, view⟩ := iget_ok run
  · rw [view]
    refine ⟨rfl, h.slot rfl (fun _ ne => View.setInode_icache_of_ne ne _) ?_⟩
    intro held
    have valid := held.valid
    rw [View.setInode_icache] at valid ⊢
    exact h ip ⟨href, valid⟩
  · rw [view]
    refine ⟨rfl, h.slot rfl (fun _ ne => View.setInode_icache_of_ne ne _) ?_⟩
    intro held
    have valid := held.valid
    rw [View.setInode_icache] at valid
    cases valid

theorem iget_moves {inum : Nat} (h : s.Sane) (lt : inum < s.view.sb.slots)
    (run : (iget inum).run s = .ok (ip, t)) : t.Moves s.tree := by
  have sound := FsStep.sound (c := .iget inum) h.sound ⟨lt, FsCall.returned_of run⟩ trivial
  obtain ⟨data, settled⟩ := iget_settled h.settled run
  exact h.of_current sound data (iget_current run) settled

/-- Only the count of references and the lock of a slot in use change. -/
theorem Fs.Sane.setSlot (h : s.Sane) (sound : t.Sound) (ref : Inode → Int) (busy : Inode → Bool)
    (old : 0 < (s.icache ip).ref) (new : 0 < ref (s.icache ip))
    (view : t.view = s.view.setInode ip fun inode =>
      { inode with ref := ref inode, busy := busy inode }) : t.Moves s.tree := by
  refine h.of_current sound (by rw [view]; rfl) ?_ ?_
  · rw [view]
    exact View.current_setSlot ref busy old new
  · rw [view]
    refine h.settled.slot rfl (fun _ ne => View.setInode_icache_of_ne ne _) ?_
    intro held
    have valid := held.valid
    rw [View.setInode_icache] at valid ⊢
    exact h.settled ip ⟨old, valid⟩

theorem iunlock_moves (h : s.Sane) (run : (iunlock ip).run s = .ok ((), t)) : t.Moves s.tree := by
  have sound := FsStep.sound (c := .iunlock ip) h.sound ⟨trivial, FsCall.returned_of run⟩ trivial
  obtain ⟨href, _, view⟩ := iunlock_view run
  exact h.setSlot sound (·.ref) (fun _ => false) href href view

theorem ilock_moves (h : s.Sane) (run : (ilock ip).run s = .ok ((), t)) : t.Moves s.tree := by
  have sound := FsStep.sound (c := .ilock ip) h.sound ⟨trivial, FsCall.returned_of run⟩ trivial
  have current := ilock_current h.sound.good.coherent run
  have href := (ilock_pre run).1
  have view := ilock_ok run
  refine h.of_current sound (by rw [view]; rfl) current ?_
  rw [view]
  refine h.settled.slot rfl (fun _ ne => View.setInode_icache_of_ne ne _) ?_
  intro _
  cases valid : (s.view.icache ip).valid with
  | true =>
    rw [View.lock_of_valid valid, View.setInode_icache]
    exact h.settled ip ⟨href, valid⟩
  | false => rw [View.lock_of_invalid valid]

/-! ## Bytes change -/

/-- The index blocks above a block that is there are there. -/
theorem present_of_leaf {v : View} {bn : Nat} (h : (v.blocks ip).val (leaf bn) ≠ none)
    {p : List Nat} (hp : p ∈ path bn) : (v.blocks ip).val p ≠ none := by
  have above : ∀ (q : List Nat) (k : Nat), (v.blocks ip).val (q ++ [k]) ≠ none →
      (v.blocks ip).val q ≠ none := by
    intro q k there
    obtain ⟨a, ha⟩ := Option.ne_none_iff_exists'.mp there
    obtain ⟨x, hx, _⟩ := val_snoc ha
    rw [hx]
    exact Option.some_ne_none x
  rw [leaf, path] at h
  rw [path] at hp
  split at h
  · rename_i direct
    rw [if_pos direct, List.mem_singleton] at hp
    rw [hp]
    exact h
  · rename_i direct
    rw [if_neg direct] at hp
    split at h
    · rename_i single
      rw [if_pos single] at hp
      simp only [List.mem_cons, List.not_mem_nil, or_false] at hp
      obtain rfl | rfl := hp
      · exact above [ndirect] _ h
      · exact h
    · rename_i single
      rw [if_neg single] at hp
      simp only [List.mem_cons, List.not_mem_nil, or_false] at hp
      obtain rfl | rfl | rfl := hp
      · exact above [ndirect + 1] _ (above [ndirect + 1, _] _ h)
      · exact above [ndirect + 1, _] _ h
      · exact h

theorem pointer_inj {a b : Nat} (h : pointer a = pointer b) : a = b := by
  rw [pointer, pointer] at h
  split at h
  · split at h
    · omega
    · cases h
  · split at h
    · cases h
    · exact Option.some.inj h

/-- The block map of an inode determines its addresses. -/
theorem View.addrs_of_blocks {v w : View} (same : w.blocks ip = v.blocks ip) :
    (w.icache ip).addrs = (v.icache ip).addrs := by
  have addr : ∀ (u : View) (k : Fin (ndirect + 2)),
      (u.blocks ip).val [k.val] = pointer ((u.icache ip).addrs k) := by
    intro u k
    rw [View.val_of_place (p := [k.val]) k.isLt]
    exact (Trie.walk_snoc [] k.val).trans (View.child_inode k)
  funext k
  refine pointer_inj ?_
  rw [← addr, ← addr, same]

theorem View.Touched.vol_other {v w : View} (h : Touched ip v w) (ne : i ≠ (v.icache ip).inum) :
    w.vol.inode i = v.vol.inode i := by
  simp only [vol, h.sb]
  split
  · rename_i lt
    refine current_of_slot h.other (fun _ => Ne.symm ne) (fun _ => ?_) (h.dnode i lt)
    rw [h.same.1]
    exact Ne.symm ne
  · rfl

/-- The blocks with bytes inside of a whole file are there. -/
theorem Fs.Sane.present (h : s.Sane) (held : s.view.Held ip) {off n : Nat}
    (inside : n = 0 ∨ off + n ≤ (s.icache ip).size) :
    ∀ p ∈ paths (blockRange off n), (s.view.blocks ip).val p ≠ none := by
  have coherent := h.sound.good.coherent
  have type : (s.view.vol.inode (s.view.icache ip).inum).type ≠ 0 := by
    rw [coherent.vol_inode held]
    exact coherent.type ip held.ref held.valid
  intro p hp
  obtain ⟨bn, hbn, hp⟩ := List.mem_flatMap.mp hp
  refine present_of_leaf ?_ hp
  have below : bn * bsize < (s.view.vol.inode (s.view.icache ip).inum).size := by
    rw [coherent.vol_inode held]
    rw [blockRange] at hbn
    split at hbn
    · cases hbn
    · rename_i some
      have size : bsize = 512 := rfl
      have range := List.mem_range'_1.mp hbn
      rw [size] at range ⊢
      have inside := inside.resolve_left some
      show bn * 512 < (s.icache ip).size
      omega
  have there := h.complete _ type bn below
  rw [View.node_of_blocks coherent held] at there
  intro none
  rw [none] at there
  exact there rfl

/-- Bytes inside of a whole file are written without a new block. -/
theorem Fs.Sane.no_new_block (h : s.Sane) (held : s.view.Held ip) {off n : Nat} {u : View}
    {ls : Finset (List Nat)} (written : s.view.Written ip (paths (blockRange off n)) ls u)
    (inside : n = 0 ∨ off + n ≤ (s.icache ip).size) :
    (u.icache ip).addrs = (s.view.icache ip).addrs :=
  View.addrs_of_blocks (Demand.eq_of_present written.steps (h.present held inside))

/-- Bytes are written. -/
def UserInode.write (node : UserInode) (off : Nat) (data : List UInt8) : UserInode :=
  { node with bytes := overwrite node.bytes off data }

/-- What `writei` does to the inodes: that of the file gets a size and blocks, in memory and on the
disk, and the others stay. -/
structure Resizes (ip : InodePtr) (s t : Fs) : Prop where
  inode : ∃ size addrs, t.icache ip = { s.icache ip with size := size, addrs := addrs }
  disk : t.view.dnode (s.icache ip).inum = (t.icache ip).toDinode
  others : ∀ i ≠ (s.icache ip).inum, t.view.vol.inode i = s.view.vol.inode i
  dnodes : ∀ ip' ≠ ip, s.view.Held ip' →
    t.view.dnode (s.icache ip').inum = s.view.dnode (s.icache ip').inum

theorem writeiData_resizes {src : Nat → UInt8} {off n : Nat} {r : Int} (h : s.Sane)
    (held : s.view.Held ip) (small : off + n < 2 ^ 31)
    (run : (writeiData ip src off n).run s = .ok (r, t)) : r = n ∧ Resizes ip s t := by
  have good := h.sound.good
  have coherent := good.coherent
  have whole := (good.inUse held).whole
  obtain ⟨ls, u, writes, count, view⟩ := writeiData_run whole run
  obtain ⟨inUse, touched, _, _⟩ := View.Run.of_written whole writes.steps writes.written (by
    intro a ha
    exact (View.mem_free.mp (List.mem_of_mem_take ha)).1)
  obtain ⟨addrs, slot⟩ := touched.inode
  have resized : View.SameSlot (u.icache ip) { u.icache ip with size := off + n } := ⟨rfl, rfl, rfl⟩
  have inum : (u.icache ip).inum = (s.icache ip).inum := touched.same.1
  have inodes : (∃ size, t.icache ip = { s.icache ip with size := size, addrs := addrs }) ∧
      t.view.dnode (s.icache ip).inum = (t.icache ip).toDinode := by
    split at view
    · have here : t.icache ip = { u.icache ip with size := off + n } :=
        (congrFun (congrArg View.icache view) ip).trans View.store_icache
      have fits := inUse.coherent.fits ip inUse.held.ref inUse.held.valid
      refine ⟨⟨off + n, by rw [here, slot]; rfl⟩, ?_⟩
      rw [here, view, ← inum]
      refine View.store_dnode_self resized ?_
      exact ⟨fits.type, fits.major, fits.minor, fits.nlink, by show off + n < 2 ^ 32; omega, fits.addrs⟩
    · have same := h.no_new_block held writes.written (by
        have : (s.icache ip).size = (s.view.icache ip).size := rfl
        omega)
      have here : t.icache ip = u.icache ip := congrFun (congrArg View.icache view) ip
      have keep : u.icache ip = s.view.icache ip := by
        rw [slot] at same ⊢
        have same : addrs = (s.view.icache ip).addrs := same
        rw [same]
      refine ⟨⟨(s.icache ip).size, by rw [here, slot]; rfl⟩, ?_⟩
      rw [here, keep, view]
      exact (touched.dnode _ (coherent.inum ip held.ref)).trans (h.settled ip held)
  obtain ⟨⟨size, here⟩, disk⟩ := inodes
  refine ⟨by rw [count, toInt, if_pos (by omega)], ⟨size, addrs, here⟩, disk, ?_, ?_⟩
  · intro i ne
    rw [← touched.vol_other ne, view]
    split
    · rw [View.vol_store inUse.coherent inUse.held resized, if_neg (by rwa [inum])]
    · rfl
  · intro ip' ne held'
    have apart := (good.inUse held).apart ip' ne held'.ref
    rw [view]
    split
    · rw [View.store_dnode_other resized (by rwa [inum])]
      exact touched.dnode _ (coherent.inum ip' held'.ref)
    · exact touched.dnode _ (coherent.inum ip' held'.ref)

section

variable {src : Nat → UInt8} {off n : Nat} (h : s.Sane) (resizes : Resizes ip s t)
  (wrote : Wrote s ip src off n t)

include h resizes wrote

theorem Resizes.settled : t.view.Settled := by
  intro ip' held'
  by_cases e : ip' = ip
  · rw [e]
    show t.view.dnode (t.icache ip).inum = (t.icache ip).toDinode
    rw [wrote.inum]
    exact resizes.disk
  · have slot : t.view.icache ip' = s.view.icache ip' := wrote.other ip' e
    have held' : s.view.Held ip' :=
      ⟨by rw [← slot]; exact held'.ref, by rw [← slot]; exact held'.valid⟩
    rw [slot]
    exact (resizes.dnodes ip' e held').trans (h.settled ip' held')

theorem Resizes.complete (fileAt : FileAt t ip) : t.view.vol.Complete := by
  intro i type
  by_cases e : i = (s.icache ip).inum
  · rw [e, ← wrote.inum]
    exact fileAt.whole
  · intro bn lt
    rw [resizes.others i e] at type lt
    obtain ⟨x, hx⟩ := Option.ne_none_iff_exists'.mp (h.complete i type bn lt)
    rw [wrote.node _ x hx]
    exact Option.some_ne_none x

theorem Resizes.tree (held : s.view.Held ip) (fileAt : FileAt t ip)
    (bytes : t.file ip = overwrite (s.file ip) off ((List.range n).map src)) :
    t.tree = Function.update s.tree (s.icache ip).inum
      ((s.tree (s.icache ip).inum).map (·.write off ((List.range n).map src))) := by
  have coherent := h.sound.good.coherent
  have live : (s.icache ip).type ≠ 0 := coherent.type ip held.ref held.valid
  have old : s.view.vol.inode (s.icache ip).inum = (s.icache ip).toDinode :=
    coherent.vol_inode held
  have mine : t.view.vol.inode (s.icache ip).inum = (t.icache ip).toDinode := by
    rw [← wrote.inum]
    exact fileAt.inUse.coherent.vol_inode fileAt.inUse.held
  have file : t.view.vol.file (s.icache ip).inum =
      overwrite (s.view.vol.file (s.icache ip).inum) off ((List.range n).map src) := by
    have file : t.view.vol.file (t.icache ip).inum = _ := bytes
    rw [wrote.inum] at file
    exact file
  obtain ⟨size, addrs, here⟩ := resizes.inode
  funext i
  by_cases e : i = (s.icache ip).inum
  · have before : s.tree (s.icache ip).inum = _ := Volume.tree_of_type (by rw [old]; exact live)
    rw [e, Function.update_self, before, Fs.tree, Volume.tree_of_type, mine, old, file, here]
    · rfl
    · rw [mine, here]
      exact live
  · rw [Function.update_of_ne e, Fs.tree, Fs.tree, Volume.tree, Volume.tree, resizes.others i e,
      wrote.file_other e]

end

/-- `writei` on a file that is not a device returns `-1` and does nothing, or it writes. -/
theorem writei_moves {src : Nat → UInt8} {off n : Nat} {r : Int} (h : s.Sane)
    (held : s.view.Held ip) (type : (s.icache ip).type ≠ tDev) (hoff : off < 2 ^ 32)
    (hn : n < 2 ^ 32) (below : WritesBelow s.view s.log.log.start ip off n)
    (run : (writei ip src off n).run s = .ok (r, t)) :
    (¬ Accepts (s.icache ip) off n ∧ r = -1 ∧ t = s) ∨
      (Accepts (s.icache ip) off n ∧ r = n ∧
        t.Moves (Function.update s.tree (s.icache ip).inum
          ((s.tree (s.icache ip).inum).map (·.write off ((List.range n).map src)))) ∧
        (∀ ip' ≠ ip, t.icache ip' = s.icache ip') ∧
        ∃ size addrs, t.icache ip = { s.icache ip with size := size, addrs := addrs }) := by
  have sound := FsStep.sound (c := .writei ip src off n) h.sound
    ⟨⟨held, hoff, hn⟩, FsCall.returned_of run⟩ below
  have good := h.sound.good
  have live : (s.view.vol.inode (s.icache ip).inum).type ≠ 0 := by
    rw [show s.view.vol.inode (s.icache ip).inum = _ from good.coherent.vol_inode held]
    exact good.coherent.type ip held.ref held.valid
  have file : FileAt s ip := ⟨(good.inUse held).whole, type, h.complete _ live⟩
  obtain ⟨reject, rfl, rfl⟩ | ⟨accept, run⟩ := writei_cases type run
  · exact .inl ⟨reject, rfl, rfl⟩
  obtain ⟨wrap, max⟩ := accept.bound hoff hn
  have small : off + n ≤ 8459776 := max
  have wrote := writeiData_wrote file.inUse (by omega) accept.1 run
  obtain ⟨fileAt, bytes, -⟩ := wrote.fileAt_self file accept.1
  obtain ⟨count, resizes⟩ := writeiData_resizes h held (by omega) run
  exact .inr ⟨accept, count, ⟨⟨sound, resizes.settled h wrote, resizes.complete h wrote fileAt⟩,
    resizes.tree h wrote held fileAt bytes⟩, wrote.other, resizes.inode⟩

end Xv6Gui
