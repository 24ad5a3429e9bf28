import Xv6Gui.Mkfs.Boot

/-!
# Reading an image

The kernel reads from an image what `mkfs` has put there: the names in the root directory
lead to the inodes of the files, and `readi` returns their bytes.

The blocks of a file are those of its bytes.  The size of the root directory is rounded up
after its entries are written, and if these fill its last block then there is one block
less than the size tells.  A read in that block ends in a panic, since `fileread` is not a
transaction.
-/

namespace Xv6Gui

open Effect
open Function (update update_self)

/-! ## Outside of a transaction -/

section

variable {s t : Fs} {ip : InodePtr} {a b bn : Nat}

theorem logWrite_outside {d : Block} (out : s.log.log.outstanding < 1) :
    (logWrite b d).run s ≠ .ok ((), t) := by
  intro run
  have inside := (logWrite_eq run).1
  omega

theorem ballocLoop_outside {sb : Superblock} {rounds : Nat} (out : s.log.log.outstanding < 1) :
    (ballocLoop sb rounds b).run s ≠ .ok (a, t) := by
  intro run
  induction rounds generalizing s b with
  | zero => cases run
  | succ rounds ih =>
    obtain ⟨u, read, reads⟩ := bread_reads s (bblock b sb.ninodes)
    rw [ballocLoop, run_bind read] at run
    have out : u.log.log.outstanding < 1 := reads.log ▸ out
    split at run
    · obtain ⟨_, _, write, _⟩ := FsM.bind_ok.mp run
      exact logWrite_outside out write
    · exact ih out run

theorem balloc_outside (out : s.log.log.outstanding < 1) : balloc.run s ≠ .ok (a, t) := by
  intro run
  obtain ⟨u, read, reads⟩ := bread_reads s 1
  obtain ⟨sb, u', hsb, run⟩ := FsM.bind_ok.mp run
  rw [readsb, run_bind read] at hsb
  cases hsb
  exact ballocLoop_outside (reads.log ▸ out) run

theorem bmapAddr_outside {k : Fin (ndirect + 2)} (out : s.log.log.outstanding < 1)
    (run : (bmapAddr ip k).run s = .ok (a, t)) : t = s := by
  simp only [bmapAddr, FsM.get_bind] at run
  split at run
  · obtain ⟨_, _, alloc, _⟩ := FsM.bind_ok.mp run
    exact absurd alloc (balloc_outside out)
  · cases run
    rfl

theorem bmapEntry_outside {x j : Nat} (out : s.log.log.outstanding < 1)
    (run : (bmapEntry x j).run s = .ok (a, t)) : s.Reads t := by
  obtain ⟨u, read, reads⟩ := bread_reads s x
  rw [bmapEntry, run_bind read] at run
  dsimp only at run
  split at run
  · obtain ⟨_, _, alloc, _⟩ := FsM.bind_ok.mp run
    exact absurd alloc (balloc_outside (reads.log ▸ out))
  · cases run
    exact reads

/-- Outside of a transaction `bmap` only finds blocks. -/
theorem bmap_outside (out : s.log.log.outstanding < 1) (run : (bmap ip bn).run s = .ok (a, t)) :
    s.Reads t := by
  rw [bmap] at run
  split at run
  · rw [bmapAddr_outside out run]
    exact .refl s
  · split at run
    · obtain ⟨_, u, first, run⟩ := FsM.bind_ok.mp run
      rw [bmapAddr_outside out first] at run
      exact bmapEntry_outside out run
    · split at run
      · obtain ⟨_, u, first, run⟩ := FsM.bind_ok.mp run
        rw [bmapAddr_outside out first] at run
        obtain ⟨_, u, second, run⟩ := FsM.bind_ok.mp run
        have reads := bmapEntry_outside out second
        exact reads.trans (bmapEntry_outside (reads.log ▸ out) run)
      · cases run

/-- Outside of a transaction `readi` does not return where a block is missing. -/
theorem readi_outside {input bytes : Option (List UInt8)} {off n : Nat}
    (h : s.view.InUse s.view.sb.size ip) (type : (s.icache ip).type ≠ tDev)
    (out : s.log.log.outstanding < 1) (some : 0 < n) (inside : off < (s.icache ip).size)
    (small : off + n < 2 ^ 32)
    (hole : s.view.vol.node ((s.icache ip).inum :: leaf (off / bsize)) = none) :
    (readi input ip off n).run s ≠ .ok (bytes, t) := by
  intro run
  rw [readi_eq type inside.le small] at run
  obtain ⟨_, _, run, _⟩ := FsM.bind_ok.mp run
  obtain ⟨rounds, count⟩ : ∃ rounds, min n ((s.icache ip).size - off) = rounds + 1 :=
    Nat.exists_eq_add_one.mpr (by omega)
  rw [count, readiLoop, if_pos (by omega)] at run
  obtain ⟨b, u, map, _⟩ := FsM.bind_ok.mp run
  have wf := h.owned.wellFormed h.coherent h.held
  obtain ⟨_, val⟩ := bmap_ok (.start wf) map
  rw [(bmap_outside out map).view] at val
  have node := View.node_of_val h.coherent h.held (leaf_ne_nil _) val
  have node : s.view.vol.node ((s.icache ip).inum :: leaf (off / bsize)) = _ := node
  rw [hole] at node
  cases node

/-- Outside of a transaction nothing is logged, and there is room in the log. -/
structure Log.Outside (l : Log) : Prop where
  outstanding : l.outstanding < 1
  room : l.lh.n < min (logSize : Int) (l.size - 1)

theorem outside_contract : LogContract Log.Outside (fun _ => True)
    (· = .panic "log_write outside of trans") := by
  intro m b d outside _
  have := outside.room
  rw [LogState.logWrite, if_neg (by omega), if_pos outside.outstanding]

theorem balloc_outside_panics (out : s.log.log.Outside) (inside : b < s.view.sb.size)
    (clear : s.view.used b = false) :
    balloc.run s = .error (.panic "log_write outside of trans") := by
  have exists_ : ∃ b, b < s.view.sb.size ∧ s.view.used b = false := ⟨b, inside, clear⟩
  have least : ∀ x < Nat.find exists_, s.view.used x = true := by
    intro x hx
    have none := Nat.find_min exists_ hx
    have inside := (Nat.find_spec exists_).1
    simpa [hx.trans inside] using none
  have triple := balloc_log outside_contract (v := s.view) trivial trivial (Nat.find_spec exists_).1
    (Nat.find_spec exists_).2 least s ⟨rfl, out⟩
  cases run : balloc.run s with
  | ok result => exact absurd run (balloc_outside out.outstanding)
  | error e =>
    rw [run] at triple
    rw [triple]

/-- Outside of a transaction `readi` panics in a hole. -/
theorem readi_outside_panics {input : Option (List UInt8)} {off n : Nat}
    (out : s.log.log.Outside) (free : b < s.view.sb.size) (clear : s.view.used b = false)
    (type : (s.icache ip).type ≠ tDev) (some : 0 < n) (inside : off < (s.icache ip).size)
    (small : off + n < 2 ^ 32) (direct : off / bsize < ndirect)
    (hole : (s.icache ip).addrs ⟨off / bsize, Nat.lt_add_right 2 direct⟩ = 0) :
    (readi input ip off n).run s = .error (.panic "log_write outside of trans") := by
  obtain ⟨rounds, count⟩ : ∃ rounds, min n ((s.icache ip).size - off) = rounds + 1 :=
    Nat.exists_eq_add_one.mpr (by omega)
  have map : (bmap ip (off / bsize)).run s = .error (.panic "log_write outside of trans") := by
    rw [bmap, dif_pos direct]
    simp only [bmapAddr, FsM.get_bind, if_pos hole]
    exact run_bind_error (balloc_outside_panics out free clear)
  rw [readi_eq type inside.le small, count, readiLoop, if_pos (by omega)]
  exact run_bind_error (run_bind_error map)

end

namespace Mkfs

variable {files : List HostFile} {s : State} {k l : Fs} {ip : InodePtr} {i : Nat}

variable {m j : Nat}

/-! ## Inodes -/

theorem Shows.get (h : Shows s k) (holds : ImageOf files s) (hi : i < inodeSlots)
    (run : (iget i).run k = .ok (ip, l)) :
    Shows s l ∧ 0 < (l.icache ip).ref ∧ (l.icache ip).inum = i := by
  obtain ⟨keeps, ref, inum⟩ := iget_keeps (h.good holds) (by rw [h.sb holds]; exact hi) run
  have same : l.view.data = k.view.data ∧ (∀ ip', ip' ≠ ip → l.icache ip' = k.icache ip') ∧
      ((l.icache ip).valid = true → 0 < (k.icache ip).ref ∧ (k.icache ip).valid = true ∧
        (l.icache ip).toDinode = (k.icache ip).toDinode ∧
          (l.icache ip).inum = (k.icache ip).inum) := by
    obtain ⟨href, _, view⟩ | ⟨_, _, view⟩ := iget_ok run
    · have icache : l.icache = (k.view.setInode ip fun inode =>
          { inode with ref := inode.ref + 1 }).icache := congrArg View.icache view
      refine ⟨by rw [view]; rfl, fun ip' ne => ?_, ?_⟩
      · rw [icache]
        exact View.setInode_icache_of_ne ne _
      · rw [icache, View.setInode_icache]
        exact fun valid => ⟨href, valid, rfl, rfl⟩
    · have icache : l.icache = (k.view.setInode ip fun inode =>
          { inode with inum := i, ref := 1, busy := false, valid := false }).icache :=
        congrArg View.icache view
      refine ⟨by rw [view]; rfl, fun ip' ne => ?_, ?_⟩
      · rw [icache]
        exact View.setInode_icache_of_ne ne _
      · rw [icache, View.setInode_icache]
        exact fun valid => absurd valid Bool.false_ne_true
  obtain ⟨data, other, slot⟩ := same
  refine ⟨⟨data.trans h.data, keeps.good.coherent, ?_⟩, ref, inum⟩
  intro ip' href' hvalid
  have disk : ∀ j, l.view.dnode j = k.view.dnode j := fun j => by rw [View.dnode, data]; rfl
  rw [disk]
  by_cases e : ip' = ip
  · rw [e] at hvalid ⊢
    obtain ⟨href, valid, inode, inum⟩ := slot hvalid
    rw [inode, inum]
    exact h.clean ip href valid
  · rw [other ip' e] at href' hvalid ⊢
    exact h.clean ip' href' hvalid

/-- An inode on the disk. -/
theorem Shows.dnode (h : Shows s k) (hi : i < inodeSlots) : k.view.dnode i = s.vol.inode i := by
  have : k.view.dnode i = (s.image (i2b i)).dinode (i % ipb) := by
    rw [View.dnode, h.data]
    rfl
  rw [this]
  exact (if_pos hi).symm

/-- An inode in memory is that of the image. -/
theorem Shows.inode (h : Shows s k) (holds : ImageOf files s) (held : k.view.Held ip) :
    (k.icache ip).toDinode = s.vol.inode (k.icache ip).inum := by
  rw [← h.vol holds]
  exact (h.coherent.vol_inode held).symm

/-- `ilock` returns for the inodes of an image. -/
theorem Shows.lock_returns (h : Shows s k) (holds : ImageOf files s)
    (href : 0 < (k.icache ip).ref) (busy : (k.icache ip).busy = false)
    (low : 1 ≤ (k.icache ip).inum) (high : (k.icache ip).inum ≤ files.length + 1) :
    ∃ l, (ilock ip).run k = .ok ((), l) ∧ Shows s l ∧ l.view.Held ip ∧ k.Peeks l ∧
      (l.icache ip).inum = (k.icache ip).inum ∧ (l.icache ip).busy = true ∧
        l.ftable = k.ftable := by
  have few : files.length + 1 < inodeSlots := holds.few
  have type : (k.view.dnode (k.icache ip).inum).type ≠ 0 := by
    obtain ⟨addrs, inode⟩ := holds.inode _ low high
    rw [h.dnode (by omega), inode]
    show typeOf _ ≠ 0
    rw [typeOf]
    split <;> decide
  obtain ⟨l, run, view, peeks⟩ := ilock_returns href busy fun _ => type
  obtain ⟨shows_, held⟩ := h.lock holds run
  have slot : l.icache ip = k.view.load { k.icache ip with busy := true } := by
    refine (congrFun (congrArg View.icache view) ip).trans ?_
    exact View.setInode_icache _
  refine ⟨l, run, shows_, held, peeks, ?_, ?_, congrArg View.ftable view⟩
  · rw [slot, View.load]
  · rw [slot, View.load]

/-! ## Holes -/

theorem firstUse_leaf (bn : Nat) : firstUse (leaf bn) = bn := by
  have size : nindirect = 128 := rfl
  rw [leaf, path]
  split
  · rename_i direct
    simp [firstUse]
    omega
  · split
    · simp [firstUse]
      omega
    · have := Nat.div_add_mod (bn - ndirect - nindirect) nindirect
      simp [firstUse]
      omega

theorem leaf_mem_paths {bn n : Nat} : leaf bn ∈ paths (List.range n) ↔ bn < n := by
  rw [mem_paths_range]
  constructor
  · rintro ⟨bn', lt, mem⟩
    have le := (firstUse_path mem).1
    rw [firstUse_leaf] at le
    omega
  · intro lt
    exact ⟨bn, lt, leaf_mem_path bn⟩

/-- A file has the blocks of its bytes and no others. -/
theorem present_iff (holds : ImageOf files s) (low : 1 ≤ i) (high : i ≤ files.length + 1)
    {bn : Nat} :
    s.vol.node (i :: leaf bn) ≠ none ↔ bn < dataBlocks (fileBytes files i).length :=
  (holds.exact i low high _ (leaf_ne_nil bn)).trans leaf_mem_paths

theorem lt_dataBlocks {bn n : Nat} : bn < dataBlocks n ↔ bn * bsize < n := by
  rw [dataBlocks, show bsize = 512 from rfl]
  omega

theorem root_size (holds : ImageOf files s) :
    (s.vol.inode 1).size = ((files.length + 2) * direntSize / bsize + 1) * bsize := by
  obtain ⟨addrs, inode⟩ := holds.inode 1 le_rfl (by omega)
  have root : 1 = rootino := rfl
  rw [inode]
  dsimp only
  rw [if_pos root]

theorem file_size (holds : ImageOf files s) (low : 2 ≤ i) (high : i ≤ files.length + 1) :
    (s.vol.inode i).size = (fileBytes files i).length := by
  obtain ⟨addrs, inode⟩ := holds.inode i (by omega) high
  have ne : i ≠ 1 := by omega
  rw [inode]
  exact if_neg ne

/-- The files have no holes, up to the root directory if its entries fill a block. -/
theorem whole_iff (holds : ImageOf files s) :
    (∀ i, 1 ≤ i → i < s.freeinode → s.vol.Whole i) ↔ files.length % 16 ≠ 14 := by
  have freeinode := holds.freeinode
  have root := root_size holds
  have block : bsize = 512 := rfl
  have entry : direntSize = 32 := rfl
  constructor
  · intro whole full
    have there := whole 1 le_rfl (by omega) ((files.length + 2) * direntSize / bsize) (by
      rw [root]
      exact Nat.mul_lt_mul_of_pos_right (Nat.lt_succ_self _) (by decide))
    rw [present_iff holds le_rfl (by omega), length_root, lt_dataBlocks, block, entry] at there
    omega
  · intro partial_ i low high bn below
    rw [present_iff holds low (by omega), lt_dataBlocks]
    by_cases first : i = 1
    · rw [first, root] at below
      rw [first, length_root]
      rw [block, entry] at below ⊢
      omega
    · rwa [file_size holds (by omega) (by omega)] at below

/-! ## `fileread` -/

/-- A file can be read: somebody has opened the inode, and nobody has locked it. -/
structure Readable (s : State) (k : Fs) (f : FilePtr) : Prop where
  shows_ : Shows s k
  off : (k.ftable f).off < 2 ^ 32
  ref : 0 < (k.icache (k.ftable f).ip).ref
  busy : (k.icache (k.ftable f).ip).busy = false
  low : 1 ≤ (k.icache (k.ftable f).ip).inum
  high : (k.icache (k.ftable f).ip).inum < s.freeinode

/-- `fileread` returns for every file, and changes neither the disk nor the log. -/
def ReadsSafely (s : State) : Prop :=
  ∀ k f input n, Readable s k f → ∃ bytes l, (filereadInode input f n).run k = .ok (bytes, l) ∧
    k.Peeks l ∧ Shows s l

theorem not_device (shows_ : Shows s k) (holds : ImageOf files s) (held : k.view.Held ip)
    (low : 1 ≤ (k.icache ip).inum) (high : (k.icache ip).inum ≤ files.length + 1) :
    (k.icache ip).type ≠ tDev := by
  obtain ⟨addrs, inode⟩ := holds.inode _ low high
  have type := congrArg Dinode.type (shows_.inode holds held)
  rw [inode] at type
  have type : (k.icache ip).type = typeOf _ := type
  rw [type, typeOf]
  split <;> decide

theorem Shows.inUse (h : Shows s k) (holds : ImageOf files s) (held : k.view.Held ip) :
    k.view.InUse k.view.sb.size ip := by
  have size : k.view.sb.size = size := by rw [h.sb holds]
  exact ⟨h.owned holds (by rw [size]; exact holds.bound) size.le, h.coherent, held⟩

/-- The table of files is not part of what the kernel sees of the image. -/
theorem Shows.setFile (h : Shows s k) (f : FilePtr) (file : File) :
    Shows s { k with ftable := update k.ftable f file } :=
  ⟨h.data, ⟨h.coherent.nonneg, h.coherent.inum, h.coherent.uniq, h.coherent.fits, h.coherent.type,
    h.coherent.disk⟩, h.clean⟩

theorem Shows.advance (h : Shows s k) (f : FilePtr) (r : Int) :
    ∃ l, (advance f r).run k = .ok ((), l) ∧ k.Peeks l ∧ Shows s l ∧ l.icache = k.icache :=
  ⟨_, rfl, ⟨rfl, rfl, rfl, rfl⟩, h.setFile f _, rfl⟩

theorem readsSafely_of_whole (holds : ImageOf files s)
    (whole : ∀ i, 1 ≤ i → i < s.freeinode → s.vol.Whole i) : ReadsSafely s := by
  intro k f input n readable
  have freeinode := holds.freeinode
  have high := readable.high
  obtain ⟨u, lock, shows_, held, peeks, inum, busy, ftable⟩ := readable.shows_.lock_returns holds
    readable.ref readable.busy readable.low (by omega)
  obtain ⟨w, read, reads⟩ := readi_reads input (shows_.inUse holds held)
    (not_device shows_ holds held (inum ▸ readable.low) (by omega))
    (by rw [shows_.vol holds, inum]; exact whole _ readable.low high) readable.off (ofInt_lt n)
  have icache : w.icache = u.icache := congrArg View.icache reads.view
  have rest : ∀ (r : Int) (bytes : Option (List UInt8)), ∃ l,
      (do advance f r; iunlock (k.ftable f).ip; return bytes).run w = .ok (bytes, l) ∧
        k.Peeks l ∧ Shows s l := by
    intro r bytes
    obtain ⟨x, hx, moved, shows_, same⟩ := (shows_.of_reads reads).advance f r
    obtain ⟨l, unlock, _, last⟩ := iunlock_returns (s := x)
      (show 0 < (x.icache (k.ftable f).ip).ref by rw [same, icache]; exact held.ref)
      (by rw [same, icache]; exact busy)
    refine ⟨l, ?_, ((peeks.trans reads.peeks).trans moved).trans last, shows_.unlock holds unlock⟩
    rw [run_bind hx, run_bind unlock]
    rfl
  rw [filereadInode, FsM.get_bind, run_bind lock, FsM.get_bind, ftable, run_bind read]
  exact ⟨_, rest _ _⟩

/-- A read of the missing block does not return. -/
theorem filereadInode_hole {f : FilePtr} (holds : ImageOf files s) (full : files.length % 16 = 14)
    (readable : Readable s k f) (out : k.log.log.outstanding < 1)
    (root : (k.icache (k.ftable f).ip).inum = 1)
    (off : (k.ftable f).off = (files.length + 2) * direntSize) (r : Option (List UInt8) × Fs) :
    (filereadInode none f 1).run k ≠ .ok r := by
  intro run
  have freeinode := holds.freeinode
  have few := holds.few
  have inodes : inodeSlots = 208 := rfl
  have block : bsize = 512 := rfl
  have entry : direntSize = 32 := rfl
  obtain ⟨u, lock, shows_, held, peeks, inum, _, ftable⟩ := readable.shows_.lock_returns holds
    readable.ref readable.busy readable.low (by omega)
  rw [filereadInode, FsM.get_bind, run_bind lock, FsM.get_bind, ftable] at run
  obtain ⟨bytes, w, read, _⟩ := FsM.bind_ok.mp run
  have size : (u.icache (k.ftable f).ip).size =
      ((files.length + 2) * direntSize / bsize + 1) * bsize := by
    rw [congrArg Dinode.size (shows_.inode holds held), inum, root, root_size holds]
  refine readi_outside (shows_.inUse holds held) (not_device shows_ holds held (by omega) (by omega))
    (peeks.log ▸ out) (show 0 < ofInt 1 by decide) ?_ ?_ ?_ read
  · rw [size, off, block, entry]
    omega
  · rw [off, entry, show ofInt 1 = 1 from rfl]
    omega
  · rw [shows_.vol holds, inum, root, off]
    by_contra there
    rw [← ne_eq, present_iff holds le_rfl (by omega), length_root, lt_dataBlocks, block,
      entry] at there
    omega

/-- If one of the direct blocks is missing and there are free blocks, it panics. -/
theorem filereadInode_hole_panics {f : FilePtr} (holds : ImageOf files s)
    (full : files.length % 16 = 14) (readable : Readable s k f) (out : k.log.log.Outside)
    (more : s.freeblock < size) (direct : (files.length + 2) * direntSize / bsize < ndirect)
    (root : (k.icache (k.ftable f).ip).inum = 1)
    (off : (k.ftable f).off = (files.length + 2) * direntSize) :
    (filereadInode none f 32).run k = .error (.panic "log_write outside of trans") := by
  have freeinode := holds.freeinode
  have few := holds.few
  have inodes : inodeSlots = 208 := rfl
  have block : bsize = 512 := rfl
  have entry : direntSize = 32 := rfl
  obtain ⟨u, lock, shows_, held, peeks, inum, _, ftable⟩ := readable.shows_.lock_returns holds
    readable.ref readable.busy readable.low (by omega)
  rw [filereadInode, FsM.get_bind, run_bind lock, FsM.get_bind, ftable]
  rw [root] at inum
  have missing : s.vol.node (1 :: leaf ((k.ftable f).off / bsize)) = none := by
    by_contra there
    rw [← ne_eq, present_iff holds le_rfl (by omega), length_root, lt_dataBlocks, off, block,
      entry] at there
    omega
  rw [← off] at direct
  have inode := shows_.inode holds held
  refine run_bind_error (readi_outside_panics (b := s.freeblock) (peeks.log ▸ out) ?_ ?_
    (not_device shows_ holds held (by omega) (by omega)) (by decide) ?_ ?_ direct ?_)
  · rw [shows_.sb holds]
    exact more
  · rw [shows_.used holds more]
    simp
  · rw [congrArg Dinode.size inode, inum, root_size holds, off, block, entry]
    omega
  · rw [off, entry, show ofInt 32 = 32 from rfl]
    omega
  · by_contra mapped
    have node := ((shows_.inUse holds held).node_addr
      (k := ⟨(k.ftable f).off / bsize, Nat.lt_add_right 2 direct⟩)).mpr ⟨rfl, mapped⟩
    have node : u.view.vol.node [(u.icache (k.ftable f).ip).inum, (k.ftable f).off / bsize] = _ :=
      node
    rw [inum, shows_.vol holds] at node
    rw [leaf, path, if_pos direct] at missing
    have missing : s.vol.node [1, (k.ftable f).off / bsize] = none := missing
    rw [node] at missing
    cases missing

/-- The root directory is opened, and the offset is then moved. -/
theorem open_root (holds : ImageOf files s) (fresh : k.Fresh s.image) (f : FilePtr) (off : Nat)
    (small : off < 2 ^ 32) :
    ∃ ip l, (iget rootino).run k = .ok (ip, l) ∧
      Readable s { l with ftable := update l.ftable f ⟨.inode, false, ip, off⟩ } f ∧
      l.log.log = k.log.log ∧ (l.icache ip).inum = 1 := by
  have none : ∀ ip, (k.icache ip).ref = 0 := by
    intro ip
    rw [fresh.icache]
    rfl
  have freeinode := holds.freeinode
  obtain ⟨ip, l, run, peeks⟩ := iget_returns rootino (none ⟨0, by decide⟩)
  obtain ⟨shows_, ref, inum⟩ := (shows_of_fresh fresh).get holds (by decide) run
  have busy : (l.icache ip).busy = false := by
    obtain ⟨href, _⟩ | ⟨_, _, view⟩ := iget_ok run
    · rw [none] at href
      exact absurd href (lt_irrefl 0)
    · have icache : l.icache = (k.view.setInode ip _).icache := congrArg View.icache view
      rw [icache, View.setInode_icache]
  have file : update l.ftable f ⟨.inode, false, ip, off⟩ f = ⟨.inode, false, ip, off⟩ :=
    update_self ..
  refine ⟨ip, l, run, ⟨shows_.setFile f _, ?_, ?_, ?_, ?_, ?_⟩, peeks.log, inum⟩
  · show (update l.ftable f _ f).off < 2 ^ 32
    rwa [file]
  · show 0 < (l.icache (update l.ftable f _ f).ip).ref
    rwa [file]
  · show (l.icache (update l.ftable f _ f).ip).busy = false
    rwa [file]
  · show 1 ≤ (l.icache (update l.ftable f _ f).ip).inum
    rw [file, inum]
    exact le_rfl
  · show (l.icache (update l.ftable f _ f).ip).inum < s.freeinode
    rw [file, inum, freeinode, rootino]
    omega

theorem exists_fresh (disk : Nat → Block) : ∃ k : Fs, k.Fresh disk :=
  ⟨{ log := ⟨⟨disk, fun _ => none, []⟩, ⟨(disk 1).superblock.size - (disk 1).superblock.nlog,
      (disk 1).superblock.nlog, 0, false, ⟨0, fun _ => 0⟩⟩⟩,
     icache := fun _ => unusedInode, ftable := fun _ => ⟨.none, false, ⟨0, by decide⟩, 0⟩,
     logged := ∅, ops := [] }, rfl, rfl, rfl, rfl, rfl, rfl, rfl, rfl⟩

/-- As long as the inodes lie before the bitmap, an image has no holes if and only if the entries of
the root directory do not fill its last block, and the same holds for `fileread` to be safe. -/
theorem no_holes_iff (few : files.length ≤ inodeSlots - 2)
    (made : (main files).run start = .ok ((), s)) :
    ((∀ i, 1 ≤ i → i < s.freeinode → s.vol.Whole i) ↔ files.length % 16 ≠ 14) ∧
      (ReadsSafely s ↔ files.length % 16 ≠ 14) := by
  have inodes : inodeSlots = 208 := rfl
  have entry : direntSize = 32 := rfl
  have holds := main_image (by omega) made
  refine ⟨whole_iff holds, ?_, ?_⟩
  · intro safe full
    obtain ⟨k, fresh⟩ := exists_fresh s.image
    obtain ⟨ip, l, _, readable, log, inum⟩ := open_root holds fresh ⟨0, by decide⟩
      ((files.length + 2) * direntSize) (by rw [entry]; omega)
    obtain ⟨bytes, l', run, _⟩ := safe _ _ none 1 readable
    refine filereadInode_hole holds full readable ?_ ?_ ?_ _ run
    · show l.log.log.outstanding < 1
      rw [log, fresh.outstanding]
      decide
    · show (l.icache (update l.ftable _ _ _).ip).inum = 1
      rw [update_self, inum]
    · show (update l.ftable _ _ _).off = _
      rw [update_self]
  · intro partial_
    exact readsSafely_of_whole holds ((whole_iff holds).mpr partial_)

theorem no_holes_one_file :
    ∃ s, (main [⟨[97], some [1, 2, 3]⟩]).run start = .ok ((), s) ∧ s.vol.Whole rootino ∧
      ReadsSafely s := by
  obtain ⟨s, made, holds⟩ := main_ok [⟨[97], some [1, 2, 3]⟩] (by decide)
    ⟨by decide, by decide, by decide, by decide⟩
  obtain ⟨whole, reads⟩ := no_holes_iff (by decide) made
  have freeinode := holds.freeinode
  refine ⟨s, made, whole.mpr (by decide) rootino le_rfl ?_, reads.mpr (by decide)⟩
  rw [freeinode]
  decide

/-- The files `a` to `n`, without bytes. -/
def fourteenFiles : List HostFile :=
  (List.range 14).map fun j => ⟨[UInt8.ofNat (97 + j)], some []⟩

/-- With the entries of fourteen files the first block of the root directory is full, and a
read of the second one panics. -/
theorem fileread_panics :
    ∃ s k ip l, (main fourteenFiles).run start = .ok ((), s) ∧ boot s.image = some k ∧
      (iget rootino).run k = .ok (ip, l) ∧ ¬ s.vol.Whole rootino ∧
      (filereadInode none ⟨0, by decide⟩ 32).run
        { l with ftable := update l.ftable ⟨0, by decide⟩ ⟨.inode, false, ip, 512⟩ } =
          .error (.panic "log_write outside of trans") := by
  obtain ⟨s, made, holds⟩ := main_ok fourteenFiles (by decide)
    ⟨by decide, by decide, by decide, by decide⟩
  obtain ⟨k, started, fresh, _⟩ := boot_image holds (by decide)
  obtain ⟨ip, l, get, readable, log, inum⟩ := open_root holds fresh ⟨0, by decide⟩ 512
    (by decide)
  have missing : s.vol.node (1 :: leaf 1) = none := by
    by_contra there
    rw [← ne_eq, present_iff holds le_rfl (by omega), length_root, lt_dataBlocks] at there
    exact absurd there (by decide)
  have size : (s.vol.inode 1).size = 1024 := root_size holds
  refine ⟨s, k, ip, l, made, started, get, fun whole => whole 1 ?_ missing, ?_⟩
  · show 1 * bsize < (s.vol.inode 1).size
    rw [size]
    decide
  · have ksb : k.sb = ⟨Mkfs.size, nblocks, ninodes, nlog⟩ := (shows_of_fresh fresh).sb holds
    refine filereadInode_hole_panics holds (by decide) readable ⟨?_, ?_⟩ ?_ (by decide) ?_ ?_
    · show l.log.log.outstanding < 1
      rw [log, fresh.outstanding]
      decide
    · show l.log.log.lh.n < min (logSize : Int) (l.log.log.size - 1)
      rw [log, fresh.empty, fresh.size, ksb]
      decide
    · have blocks := holds.blocks
      rw [totalBlocks_fileBytes] at blocks
      have : firstBlock + neededBlocks fourteenFiles < Mkfs.size := by decide
      omega
    · show (l.icache (update l.ftable _ _ _).ip).inum = 1
      rw [update_self, inum]
    · show (update l.ftable _ _ _).off = _
      rw [update_self]
      rfl

/-! ## Names -/

theorem getD_flatMap_bytes {l : List Dirent} (hm : m < l.length) (hj : j < direntSize) :
    (l.flatMap Dirent.bytes).getD (direntSize * m + j) 0 = (l.get ⟨m, hm⟩).bytes.getD j 0 := by
  induction l generalizing m with
  | nil => exact absurd hm (Nat.not_lt_zero m)
  | cons de l ih =>
    rw [List.flatMap_cons]
    have length := Dirent.length_bytes de
    cases m with
    | zero =>
      rw [Nat.mul_zero, Nat.zero_add, List.getD_append _ _ _ _ (by omega)]
      rfl
    | succ m =>
      have index : direntSize * (m + 1) + j - de.bytes.length = direntSize * m + j := by
        rw [length, Nat.mul_succ]
        omega
      rw [List.getD_append_right _ _ _ _ (by rw [length, Nat.mul_succ]; omega), index]
      exact ih (Nat.lt_of_succ_lt_succ hm)

theorem length_rootEntries (files : List HostFile) :
    (rootEntries files).length = files.length + 2 := by
  rw [rootEntries, List.length_cons, List.length_cons, List.length_mapIdx]

theorem rootEntries_file (hj : j < files.length) :
    (rootEntries files).get ⟨j + 2, by rw [length_rootEntries]; omega⟩ =
      entry j (files.get ⟨j, hj⟩) := by
  simp [rootEntries]

/-- The entries fit in the directory. -/
theorem mem_rootEntries {de : Dirent} (mem : de ∈ rootEntries files) :
    de.inum ≤ files.length + 1 ∧ ∃ name, de.name = strncpy name := by
  rw [rootEntries, List.mem_cons, List.mem_cons, List.mem_mapIdx] at mem
  obtain rfl | rfl | ⟨j, hj, rfl⟩ := mem
  · exact ⟨Nat.le_add_left 1 _, _, rfl⟩
  · exact ⟨Nat.le_add_left 1 _, _, rfl⟩
  · exact ⟨Nat.add_le_add_right hj 1, _, rfl⟩

/-- The entries of the root directory are found where they were written. -/
theorem root_entry (holds : ImageOf files s) (hm : m < (rootEntries files).length) :
    s.vol.entry 1 m = (rootEntries files).get ⟨m, hm⟩ := by
  have few := holds.few
  have inodes : inodeSlots = 208 := rfl
  have bytes : ((List.range direntSize).map fun j => s.vol.content 1 (direntSize * m + j)) =
      ((rootEntries files).get ⟨m, hm⟩).bytes := by
    refine List.ext_getElem (by rw [List.length_map, List.length_range, Dirent.length_bytes]) ?_
    intro j hj hj'
    have inside : j < direntSize := by rwa [Dirent.length_bytes] at hj'
    have root : fileBytes files 1 = (rootEntries files).flatMap Dirent.bytes := if_pos rfl
    simp only [List.getElem_map, List.getElem_range]
    rw [holds.content 1 le_rfl (by omega), root, getD_flatMap_bytes hm inside]
    exact List.getD_eq_getElem _ _ hj'
  obtain ⟨small, name, e⟩ := mem_rootEntries (List.get_mem (rootEntries files) ⟨m, hm⟩)
  rw [Volume.entry, bytes]
  exact Dirent.ofBytes_bytes (by omega) (by rw [e, length_strncpy])

/-- What is asked of the names of the files: they are C strings, they differ in the first
`DIRSIZ` characters, and none is that of an entry every directory has. -/
structure Named (files : List HostFile) : Prop where
  strings : ∀ file ∈ files, (0 : UInt8) ∉ file.name
  dot : ∀ file ∈ files, strncpy (skipUnderscore file.name) ≠ strncpy [46]
  dots : ∀ file ∈ files, strncpy (skipUnderscore file.name) ≠ strncpy [46, 46]
  distinct : (files.map fun file => strncpy (skipUnderscore file.name)).Nodup

theorem Named.padded {file : HostFile} (h : Named files) (mem : file ∈ files) :
    Padded (skipUnderscore file.name) := by
  refine padded_of_nonzero fun zero => h.strings file mem ?_
  rw [skipUnderscore] at zero
  split at zero
  · exact List.mem_of_mem_tail zero
  · exact zero

/-- The entry of a file is the first one with its name. -/
theorem rootEntries_matches (h : Named files) (hj : j < files.length)
    (hm : m ≤ j + 2) :
    ((rootEntries files).get ⟨m, by rw [length_rootEntries]; omega⟩).Matches
      (skipUnderscore (files.get ⟨j, hj⟩).name) ↔ m = j + 2 := by
  have mem : files.get ⟨j, hj⟩ ∈ files := List.get_mem files ⟨j, hj⟩
  have padded := h.padded mem
  have dot : Padded [46] := padded_of_nonzero (by decide)
  have dots : Padded [46, 46] := padded_of_nonzero (by decide)
  rw [Dirent.Matches]
  match m, hm with
  | 0, _ =>
    have name := namecmp_eq_zero padded dot
    refine ⟨fun match_ => absurd (name.mp match_.2) (h.dot _ mem), fun e => by omega⟩
  | 1, _ =>
    have name := namecmp_eq_zero padded dots
    refine ⟨fun match_ => absurd (name.mp match_.2) (h.dots _ mem), fun e => by omega⟩
  | i + 2, hm =>
    have hi : i < files.length := by omega
    rw [rootEntries_file hi]
    have name := namecmp_eq_zero padded (h.padded (List.get_mem files ⟨i, hi⟩))
    constructor
    · rintro ⟨_, same⟩
      have same := name.mp same
      have index := (List.nodup_iff_injective_get.mp h.distinct).eq_iff
        (a := ⟨i, by rwa [List.length_map]⟩) (b := ⟨j, by rwa [List.length_map]⟩) |>.mp (by
          simp only [List.get_eq_getElem, List.getElem_map]
          exact same.symm)
      have index : i = j := congrArg Fin.val index
      omega
    · intro e
      obtain rfl : i = j := by omega
      exact ⟨Nat.succ_ne_zero _, name.mpr rfl⟩

/-- The kernel sees the image, no inode is locked, and two more can be loaded. -/
structure Idle (s : State) (k : Fs) : Prop where
  shows_ : Shows s k
  idle : ∀ ip, 0 < (k.icache ip).ref → (k.icache ip).busy = false
  room : ∃ ip₁ ip₂, ip₁ ≠ ip₂ ∧ (k.icache ip₁).ref = 0 ∧ (k.icache ip₂).ref = 0

theorem idle_of_fresh (h : k.Fresh s.image) : Idle s k := by
  have none : ∀ ip, (k.icache ip).ref = 0 := by
    intro ip
    rw [h.icache]
    rfl
  refine ⟨shows_of_fresh h, fun ip href => ?_, ⟨0, by decide⟩, ⟨1, by decide⟩, by decide, none _, none _⟩
  rw [none] at href
  exact absurd href (lt_irrefl 0)

/-- `dirlookup` finds the first entry of the root directory with a name. -/
theorem dirlookup_root (holds : ImageOf files s) (shows_ : Shows s k) (held : k.view.Held ip)
    (root : (k.icache ip).inum = 1) (name : List UInt8) (hm : m < (rootEntries files).length)
    (before : ∀ i (hi : i < m), ¬ ((rootEntries files).get ⟨i, hi.trans hm⟩).Matches name)
    (hit : ((rootEntries files).get ⟨m, hm⟩).Matches name) {ip₀ : InodePtr}
    (free : (k.icache ip₀).ref = 0) :
    ∃ ip' u l, (dirlookup ip name).run k = .ok (some (ip', direntSize * m), l) ∧ k.Reads u ∧
      (iget ((rootEntries files).get ⟨m, hm⟩).inum).run u = .ok (ip', l) := by
  have entry : direntSize = 32 := rfl
  have block : bsize = 512 := rfl
  have length := length_rootEntries files
  have size : (k.icache ip).size = ((files.length + 2) * direntSize / bsize + 1) * bsize := by
    rw [congrArg Dinode.size (shows_.inode holds held), root, root_size holds]
  have type : (k.icache ip).type = tDir := by
    obtain ⟨addrs, inode⟩ := holds.inode 1 le_rfl (by omega)
    rw [congrArg Dinode.type (shows_.inode holds held), root, inode]
    rfl
  have entries : ∀ i (hi : i < (rootEntries files).length),
      k.view.vol.entry (k.icache ip).inum i = (rootEntries files).get ⟨i, hi⟩ := by
    intro i hi
    rw [shows_.vol holds, root]
    exact root_entry holds hi
  have enough : m < 0 + ((k.icache ip).size / direntSize + 1) := by
    rw [size, block, entry]
    omega
  obtain ⟨u, reads, run⟩ := dirlookupLoop_found name ⟨shows_.inUse holds held, type⟩ (Nat.zero_le _)
    enough (by rw [size, block, entry]; omega)
    (fun o ho => by
      rw [shows_.vol holds, root, present_iff holds le_rfl (by omega), length_root, lt_dataBlocks,
        block, entry]
      rw [entry] at ho
      omega)
    (fun i _ hi => by rw [entries i (hi.trans hm)]; exact before i hi)
    (by rw [entries m hm]; exact hit)
  rw [entries m hm] at run
  have free : (u.icache ip₀).ref = 0 := by
    have icache : u.icache = k.icache := congrArg View.icache reads.view
    rw [icache, free]
  obtain ⟨ip', l, get, _⟩ := iget_returns ((rootEntries files).get ⟨m, hm⟩).inum free
  refine ⟨ip', u, l, ?_, reads, get⟩
  rw [dirlookup, FsM.get_bind, if_neg (not_not.mpr type)]
  rw [Nat.mul_zero] at run
  rw [run, run_bind get]
  rfl

/-- `dirlookup` finds a file in the root directory. -/
theorem dirlookup_file (holds : ImageOf files s) (named : Named files)
    (hj : j < files.length) (shows_ : Shows s k) (held : k.view.Held ip)
    (root : (k.icache ip).inum = 1) {ip₀ : InodePtr} (free : (k.icache ip₀).ref = 0) :
    ∃ ip' u l, (dirlookup ip (skipUnderscore (files.get ⟨j, hj⟩).name)).run k =
        .ok (some (ip', direntSize * (j + 2)), l) ∧ k.Reads u ∧ (iget (j + 2)).run u = .ok (ip', l) := by
  have inside : j + 2 < (rootEntries files).length := by
    rw [length_rootEntries]
    omega
  obtain ⟨ip', u, l, lookup, reads, get⟩ := dirlookup_root holds shows_ held root _ inside
    (fun i hi => by rw [rootEntries_matches named hj (by omega)]; omega)
    ((rootEntries_matches named hj le_rfl).mpr rfl) free
  rw [rootEntries_file hj] at get
  exact ⟨ip', u, l, lookup, reads, get⟩

/-- A file of the image. -/
theorem Shows.fileAt (h : Shows s k) (holds : ImageOf files s) (held : k.view.Held ip)
    (hj : j < files.length) (inum : (k.icache ip).inum = j + 2) :
    (k.icache ip).size = (files.get ⟨j, hj⟩).bytes.length ∧
      ReadsAs k ip (files.get ⟨j, hj⟩).bytes := by
  have bytes : fileBytes files (j + 2) = (files.get ⟨j, hj⟩).bytes := by
    have ne : j + 2 ≠ rootino := by
      rw [rootino]
      omega
    rw [fileBytes, if_neg ne, Nat.add_sub_cancel, List.getElem?_eq_getElem hj]
    rfl
  have size : (s.vol.inode (j + 2)).size = (files.get ⟨j, hj⟩).bytes.length := by
    rw [file_size holds (by omega) (by omega), bytes]
  have whole : s.vol.Whole (j + 2) := by
    intro bn below
    rw [present_iff holds (by omega) (by omega), lt_dataBlocks, bytes]
    rwa [size] at below
  have at_ : FileAt k ip := by
    refine ⟨h.inUse holds held, not_device h holds held (by omega) (by omega), ?_⟩
    rwa [h.vol holds, inum]
  have file : k.file ip = (files.get ⟨j, hj⟩).bytes := by
    rw [Fs.file, h.vol holds, inum, Volume.file, size]
    refine List.ext_getElem (by rw [List.length_map, List.length_range]) ?_
    intro o _ ho
    simp only [List.getElem_map, List.getElem_range]
    rw [holds.content _ (by omega) (by omega), bytes]
    exact List.getD_eq_getElem _ _ ho
  refine ⟨by rw [congrArg Dinode.size (h.inode holds held), inum, size], ?_⟩
  rw [← file]
  exact at_.readsAs

/-- The kernel reads back what `mkfs` wrote. -/
theorem kernel_reads_files (named : Named files) (slashes : ∀ file ∈ files, slash ∉ file.name)
    (opens : ∀ file ∈ files, file.data ≠ none) (few : files.length ≤ ninodes - 2)
    (lengths : ∀ file ∈ files, file.bytes.length ≤ maxFile * bsize)
    (fits : neededBlocks files ≤ nblocks) :
    ∃ s, (main files).run start = .ok ((), s) ∧ (∃ k, boot s.image = some k ∧ Idle s k) ∧
      (∀ i < ninodes, iblock i = i2b i) ∧
      (∀ b < size, bblock b ninodes = ninodes / ipb + 3 + b / 4096) ∧
      ∀ k, Idle s k → (∀ b < size, k.view.used b = decide (b < s.freeblock)) ∧
        ∀ j (hj : j < files.length), ∃ dp k₁ k₂ ip off k₃ k₄,
          (iget rootino).run k = .ok (dp, k₁) ∧ (ilock dp).run k₁ = .ok ((), k₂) ∧
          (dirlookup dp (skipUnderscore (files.get ⟨j, hj⟩).name)).run k₂ = .ok (some (ip, off), k₃) ∧
          (ilock ip).run k₃ = .ok ((), k₄) ∧
          (k₄.icache ip).size = (files.get ⟨j, hj⟩).bytes.length ∧
          ReadsAs k₄ ip (files.get ⟨j, hj⟩).bytes := by
  have inodes : ninodes = 200 := rfl
  have slots : inodeSlots = 208 := rfl
  have room : firstBlock + nblocks ≤ size := by decide
  obtain ⟨s, made, holds⟩ := main_ok files (by omega) ⟨slashes, opens, lengths, by omega⟩
  obtain ⟨k, started, fresh, _⟩ := boot_image holds fits
  refine ⟨s, made, ⟨k, started, idle_of_fresh fresh⟩, fun i _ => rfl, ?_, ?_⟩
  · intro b _
    rw [bblock, show bpb = 4096 from rfl]
    omega
  · intro k idle
    refine ⟨fun b hb => idle.shows_.used holds hb, ?_⟩
    intro j hj
    obtain ⟨ip₁, ip₂, ne, free₁, free₂⟩ := idle.room
    obtain ⟨dp, k₁, get, _⟩ := iget_returns rootino free₁
    obtain ⟨shows₁, ref, inum⟩ := idle.shows_.get holds (by decide) get
    obtain ⟨k₂, lock, shows₂, held, _, inum₂, _⟩ := shows₁.lock_returns holds ref
      (iget_idle get (idle.idle dp)) (by rw [inum]; decide) (by rw [inum, rootino]; omega)
    have other : ∀ ip, ip ≠ dp → k₂.icache ip = k.icache ip := fun ip hip =>
      (ilock_other lock hip).trans (iget_other get hip)
    obtain ⟨ip₃, free₃⟩ : ∃ ip, (k₂.icache ip).ref = 0 := by
      by_cases e : ip₁ = dp
      · exact ⟨ip₂, by rw [other ip₂ (e ▸ ne.symm), free₂]⟩
      · exact ⟨ip₁, by rw [other ip₁ e, free₁]⟩
    obtain ⟨ip, u, k₃, lookup, reads, get'⟩ := dirlookup_file holds named hj shows₂ held
      (inum₂.trans inum) free₃
    have icache : u.icache = k₂.icache := congrArg View.icache reads.view
    obtain ⟨shows₃, ref₃, inum₃⟩ := (shows₂.of_reads reads).get holds (by omega) get'
    have apart : ip ≠ dp := by
      rintro rfl
      have root : (u.icache ip).inum = 1 := by
        rw [icache, inum₂, inum]
        rfl
      have used : 0 < (u.icache ip).ref := by
        rw [icache]
        exact held.ref
      obtain ⟨_, same, _⟩ | ⟨_, unused, _⟩ := iget_ok get'
      · omega
      · omega
    have idle₃ : (k₃.icache ip).busy = false := by
      refine iget_idle get' fun href => ?_
      rw [icache, other ip apart] at href ⊢
      exact idle.idle ip href
    obtain ⟨k₄, lock', shows₄, held₄, _, inum₄, _⟩ := shows₃.lock_returns holds ref₃ idle₃
      (by omega) (by omega)
    obtain ⟨size, bytes⟩ := shows₄.fileAt holds held₄ hj (inum₄.trans inum₃)
    exact ⟨dp, k₁, k₂, ip, _, k₃, k₄, get, lock, lookup, lock', size, bytes⟩

theorem kernel_reads_two_files :
    ∃ s k dp k₁ k₂ ip off k₃ k₄,
      (main [⟨[95, 97], some [7, 8]⟩, ⟨[98], some []⟩]).run start = .ok ((), s) ∧
      boot s.image = some k ∧ (iget rootino).run k = .ok (dp, k₁) ∧
      (ilock dp).run k₁ = .ok ((), k₂) ∧
      (dirlookup dp [97]).run k₂ = .ok (some (ip, off), k₃) ∧ (ilock ip).run k₃ = .ok ((), k₄) ∧
      ReadsAs k₄ ip [7, 8] := by
  obtain ⟨s, made, ⟨k, started, idle⟩, _, _, reads⟩ :=
    kernel_reads_files (show Named [⟨[95, 97], some [7, 8]⟩, ⟨[98], some []⟩] from
      ⟨by decide, by decide, by decide, by decide⟩) (by decide) (by decide) (by decide) (by decide)
      (by decide)
  obtain ⟨_, reads⟩ := reads k idle
  obtain ⟨dp, k₁, k₂, ip, off, k₃, k₄, get, lock, lookup, lock', _, bytes⟩ := reads 0 (by decide)
  exact ⟨s, k, dp, k₁, k₂, ip, off, k₃, k₄, made, started, get, lock, lookup, lock', bytes⟩

/-- A file of the host with the name `_.` is hidden by the entry `.` of the root directory. -/
theorem dot_hides_file :
    ∃ s k dp k₁ k₂ ip off k₃, (main [⟨[95, 46], some [7]⟩]).run start = .ok ((), s) ∧
      boot s.image = some k ∧ (iget rootino).run k = .ok (dp, k₁) ∧
      (ilock dp).run k₁ = .ok ((), k₂) ∧
      (dirlookup dp (skipUnderscore [95, 46])).run k₂ = .ok (some (ip, off), k₃) ∧
      (k₃.icache ip).inum = rootino := by
  obtain ⟨s, made, holds⟩ := main_ok [⟨[95, 46], some [7]⟩] (by decide)
    ⟨by decide, by decide, by decide, by decide⟩
  obtain ⟨k, started, fresh, _⟩ := boot_image holds (by decide)
  have none : ∀ ip, (k.icache ip).ref = 0 := by
    intro ip
    rw [fresh.icache]
    rfl
  obtain ⟨dp, k₁, get, _⟩ := iget_returns rootino (none ⟨0, by decide⟩)
  obtain ⟨shows₁, ref, inum⟩ := (shows_of_fresh fresh).get holds (by decide) get
  obtain ⟨k₂, lock, shows₂, held, _, inum₂, _⟩ := shows₁.lock_returns holds ref
    (iget_idle get fun href => absurd href (by rw [none]; exact lt_irrefl 0))
    (by rw [inum]; decide) (by rw [inum]; decide)
  obtain ⟨ip₀, apart⟩ : ∃ ip₀ : InodePtr, ip₀ ≠ dp := by
    by_cases first : dp = ⟨0, by decide⟩
    · exact ⟨⟨1, by decide⟩, by rw [first]; decide⟩
    · exact ⟨_, Ne.symm first⟩
  obtain ⟨ip, u, k₃, lookup, reads, get'⟩ := dirlookup_root holds shows₂ held (inum₂.trans inum)
    [46] (m := 0) (by decide) (fun i hi => absurd hi (Nat.not_lt_zero i)) (by decide)
    (show (k₂.icache ip₀).ref = 0 by rw [ilock_other lock apart, iget_other get apart, none])
  obtain ⟨_, _, inum₃⟩ := (shows₂.of_reads reads).get holds (i := rootino) (by decide) get'
  exact ⟨s, k, dp, k₁, k₂, ip, _, k₃, made, started, get, lock, lookup, inum₃⟩

/-! ## Truncating a file -/

/-- A file of the image is locked in a transaction that has room to truncate it. -/
theorem lock_in_transaction (holds : ImageOf files s) (fresh : k.Fresh s.image) (low : 1 ≤ i)
    (high : i ≤ files.length + 1) :
    ∃ u ip v w, beginOp.run k = .ok ((), u) ∧ (iget i).run u = .ok (ip, v) ∧
      (ilock ip).run v = .ok ((), w) ∧ Shows s w ∧ w.view.InUse w.view.sb.size ip ∧
        (w.icache ip).inum = i ∧ Room (truncSectors w.view ip) w.log.log := by
  have few := holds.few
  obtain ⟨u, begun, view, log⟩ := beginOp_returns fresh
  have shows_ : Shows s u := by
    have first := shows_of_fresh fresh
    have icache : u.icache = k.icache := congrArg View.icache view
    refine ⟨by rw [view]; exact first.data, by rw [view]; exact first.coherent, ?_⟩
    rw [icache, view]
    exact first.clean
  have none : ∀ ip, (u.icache ip).ref = 0 := by
    intro ip
    have icache : u.icache = k.icache := congrArg View.icache view
    rw [icache, fresh.icache]
    rfl
  obtain ⟨ip, v, get, peeks⟩ := iget_returns i (none ⟨0, by decide⟩)
  obtain ⟨shows₁, ref, inum⟩ := shows_.get holds (by omega) get
  obtain ⟨w, lock, shows₂, held, peeks', inum₂, _⟩ := shows₁.lock_returns holds ref
    (iget_idle get fun href => absurd href (by rw [none]; exact lt_irrefl 0)) (by omega) (by omega)
  refine ⟨u, ip, v, w, begun, get, lock, shows₂, shows₂.inUse holds held, inum₂.trans inum, ?_⟩
  have sectors : (truncSectors w.view ip).card ≤ 7 := by
    refine (Finset.card_insert_le _ _).trans ?_
    rw [Nat.card_Ico, shows₂.dataStart holds, shows₂.sb holds]
    decide
  have size : k.log.log.size = 30 := by
    have sb : k.sb = ⟨Mkfs.size, nblocks, ninodes, nlog⟩ := (shows_of_fresh fresh).sb holds
    rw [fresh.size, sb]
    rfl
  have bound : (logSize : Int) = 30 := rfl
  rw [peeks'.log, peeks.log, log]
  refine ⟨le_rfl, fresh.empty.ge, ?_⟩
  have card := Finset.card_le_card (Finset.sdiff_subset (s := truncSectors w.view ip)
    (t := k.log.log.lh.sectors.toFinset))
  show k.log.log.lh.n + ((truncSectors w.view ip \ k.log.log.lh.sectors.toFinset).card : Int) <
    min (logSize : Int) (k.log.log.size - 1)
  rw [fresh.empty, size, bound]
  omega

/-- A file has a double-indirect block if its bytes need one. -/
theorem double_iff (holds : ImageOf files s) (shows_ : Shows s k) (held : k.view.Held ip)
    (low : 1 ≤ (k.icache ip).inum) (high : (k.icache ip).inum ≤ files.length + 1) :
    (k.icache ip).addrs doubleIndirect = 0 ↔
      dataBlocks (fileBytes files (k.icache ip).inum).length ≤ ndirect + nindirect := by
  have node : (k.icache ip).addrs doubleIndirect ≠ 0 ↔
      s.vol.node [(k.icache ip).inum, ndirect + 1] ≠ none := by
    rw [← shows_.vol holds]
    constructor
    · intro mapped
      have node := ((shows_.inUse holds held).node_addr (k := doubleIndirect)).mpr ⟨rfl, mapped⟩
      exact fun none => Option.some_ne_none _ (node.symm.trans none)
    · intro there
      obtain ⟨x, hx⟩ := Option.ne_none_iff_exists'.mp there
      obtain ⟨e, _⟩ | ⟨_, e, _⟩ | ⟨_, _, b, _, _, rfl⟩ := Volume.node_cases hx
      · cases e
      · cases e
      · obtain ⟨addr, ne⟩ := ((shows_.inUse holds held).node_addr (k := doubleIndirect)).mp hx
        exact fun zero => ne (addr.symm.trans zero)
  rw [← not_iff_not, ← ne_eq, node, holds.exact _ low high _ (List.cons_ne_nil _ _), mem_paths_range,
    not_le]
  constructor
  · rintro ⟨bn, lt, mem⟩
    exact (double_mem_path.mp mem).trans_lt lt
  · intro lt
    exact ⟨ndirect + nindirect, lt, double_mem_path.mpr le_rfl⟩

theorem itrunc_gives_back_one_file :
    ∃ s k u ip v w t, (main [⟨[97], some [1, 2, 3]⟩]).run start = .ok ((), s) ∧
      boot s.image = some k ∧ beginOp.run k = .ok ((), u) ∧ (iget 2).run u = .ok (ip, v) ∧
      (ilock ip).run v = .ok ((), w) ∧ (itrunc ip).run w = .ok ((), t) ∧
      (w.icache ip).size = 3 ∧ w.view.GivenBack ip t.view := by
  obtain ⟨s, made, holds⟩ := main_ok [⟨[97], some [1, 2, 3]⟩] (by decide)
    ⟨by decide, by decide, by decide, by decide⟩
  obtain ⟨k, started, fresh, _⟩ := boot_image holds (by decide)
  obtain ⟨u, ip, v, w, begun, get, lock, shows_, inUse, inum, room⟩ :=
    lock_in_transaction holds fresh (i := 2) (by decide) (by decide)
  obtain ⟨returns, back, _⟩ := itrunc_gives_back inUse
  obtain ⟨t, trunc⟩ := returns room
  refine ⟨s, k, u, ip, v, w, t, made, started, begun, get, lock, trunc, ?_, (back t trunc).mpr ?_⟩
  · rw [congrArg Dinode.size (shows_.inode holds inUse.held), inum,
      file_size holds le_rfl (by decide)]
    rfl
  · rw [double_iff holds shows_ inUse.held (by omega) (by rw [inum]; decide), inum]
    decide

/-- A file of 140 blocks is truncated, and its double-indirect block is neither free nor
forgotten. -/
theorem itrunc_keeps_double_indirect :
    ∃ s k u ip v w t b, (main (twoFiles (.replicate (140 * bsize) 0) [])).run start = .ok ((), s) ∧
      boot s.image = some k ∧ beginOp.run k = .ok ((), u) ∧ (iget 2).run u = .ok (ip, v) ∧
      (ilock ip).run v = .ok ((), w) ∧ (itrunc ip).run w = .ok ((), t) ∧
      w.view.vol.node [2, ndirect + 1] = some (.block b) ∧ t.view.used b = true ∧
      ¬ w.view.GivenBack ip t.view := by
  obtain ⟨s, made, blocks, holds⟩ := twoFiles_ok (a := .replicate (140 * bsize) 0) (b := [])
    (n := 0) List.length_replicate rfl (by decide) (by decide) (by decide)
  have last : firstBlock + (1 + mapBlocks 140 + mapBlocks 0) ≤ firstBlock + nblocks := by decide
  have fits : neededBlocks (twoFiles (.replicate (140 * bsize) 0) []) ≤ nblocks := by
    have := holds.blocks
    rw [totalBlocks_fileBytes] at this
    omega
  obtain ⟨k, started, fresh, _⟩ := boot_image holds fits
  obtain ⟨u, ip, v, w, begun, get, lock, shows_, inUse, inum, room⟩ :=
    lock_in_transaction holds fresh (i := 2) (by decide) (show 2 ≤ 2 + 1 by decide)
  obtain ⟨t, trunc⟩ := itrunc_returns inUse room
  have bytes : (fileBytes (twoFiles (.replicate (140 * bsize) 0) []) 2).length = 140 * bsize :=
    List.length_replicate
  have double : (w.icache ip).addrs doubleIndirect ≠ 0 := by
    rw [ne_eq, double_iff holds shows_ inUse.held (by omega)
      (by rw [inum]; exact (show 2 ≤ 2 + 1 by decide)), inum, bytes]
    decide
  have cut := (itrunc_spec inUse).ok rfl trunc
  have node : w.view.vol.node [2, ndirect + 1] =
      some (.block ((w.view.icache ip).addrs doubleIndirect)) := by
    have node := (inUse.node_addr (k := doubleIndirect)).mpr ⟨rfl, double⟩
    have inum : (w.view.icache ip).inum = 2 := inum
    rwa [inum] at node
  refine ⟨s, k, u, ip, v, w, t, _, made, started, begun, get, lock, trunc, node, ?_, ?_⟩
  · have kept : (w.view.icache ip).addrs doubleIndirect ∉ truncated w.view ip := by
      intro freed
      obtain ⟨k, p, ne, other⟩ := inUse.mem_truncated.mp freed
      have inum : (w.view.icache ip).inum = 2 := inum
      rw [inum] at other
      have position := inUse.owned.separate _ _ _ other node
      simp only [List.cons.injEq, true_and] at position
      exact ne position.1
    rw [View.Truncated.used inUse cut, (inUse.owned.mapped _ _ node).2.2,
      decide_eq_false kept]
    rfl
  · rw [View.Truncated.givenBack_iff inUse cut]
    exact double

end Mkfs

end Xv6Gui
