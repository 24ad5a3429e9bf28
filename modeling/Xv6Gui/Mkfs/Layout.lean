import Mathlib.Algebra.BigOperators.Intervals
import Mathlib.Algebra.Order.BigOperators.Group.Finset
import Xv6Gui.Mkfs.Append

/-!
# The image

What `mkfs` has written at each point is given by the bytes of its files (`Holds`): their
inodes have these bytes, the blocks up to `freeblock` are those of the files and their
index blocks, and the rest of the image is still empty.  `ialloc` adds a file without
bytes and `iappend` adds bytes to one.

At the end the size of the root directory is rounded up and the bitmap is written.
-/

namespace Xv6Gui

open Function (update update_eq_self update_of_ne update_self)

namespace Mkfs

open Effect

/-- The type of inode `i`. -/
def typeOf (i : Nat) : Int := if i = rootino then tDir else tFile

/-- The blocks of the files with the inodes `1` to `count`. -/
def totalBlocks (count : Nat) (bytes : Nat → List UInt8) : Nat :=
  ∑ i ∈ Finset.Icc 1 count, mapBlocks (dataBlocks (bytes i).length)

/-- The super block. -/
def superblock : Block :=
  (((Block.zero.setWord 0 size).setWord 1 nblocks).setWord 2 ninodes).setWord 3 nlog

/-- A block of the bitmap that marks the blocks below `n`. -/
def bitmapBlock (n z : Nat) : Block := bits (min (n - 4096 * (z - (ninodes / ipb + 3))) 4096)

/-- The image has files with the inodes `1` to `count` and the given bytes.  `root` is the
size of the root directory in its inode, and the bitmap marks the blocks below
`marked`. -/
structure Holds (count : Nat) (bytes : Nat → List UInt8) (root marked : Nat) (s : State) :
    Prop where
  sectors : s.sectors = size
  freeinode : s.freeinode = count + 1
  few : count < inodeSlots
  used : s.usedblocks = s.freeblock
  blocks : s.freeblock = firstBlock + totalBlocks count bytes
  bound : s.freeblock ≤ size
  tree : Tree s.vol s.freeblock
  inode : ∀ i, 1 ≤ i → i ≤ count → ∃ addrs,
    s.vol.inode i = ⟨typeOf i, 0, 0, 1, if i = rootino then root else (bytes i).length, addrs⟩
  free : ∀ i, i = 0 ∨ count < i → s.vol.inode i = newDinode 0
  exact : ∀ i, 1 ≤ i → i ≤ count → Exact s.vol i (dataBlocks (bytes i).length)
  content : ∀ i, 1 ≤ i → i ≤ count → ∀ o, s.vol.content i o = (bytes i).getD o 0
  super : s.image 1 = superblock
  bitmap : ∀ z, ninodes / ipb + 3 ≤ z → z < firstBlock → s.image z = bitmapBlock marked z

variable {count root marked i : Nat} {bytes bytes' : Nat → List UInt8} {s t : State} {E : Stop → Prop}
  {din : Dinode} {V W : Volume} {free : Nat}

theorem Holds.congr (h : Holds count bytes root marked s)
    (same : ∀ i, 1 ≤ i → i ≤ count → bytes' i = bytes i) : Holds count bytes' root marked s := by
  have total : totalBlocks count bytes' = totalBlocks count bytes := by
    refine Finset.sum_congr rfl ?_
    intro i hi
    obtain ⟨low, high⟩ := Finset.mem_Icc.mp hi
    rw [same i low high]
  refine ⟨h.sectors, h.freeinode, h.few, h.used, by rw [total, h.blocks], h.bound, h.tree, ?_,
    h.free, ?_, ?_, h.super, h.bitmap⟩
  · intro i low high
    rw [same i low high]
    exact h.inode i low high
  · intro i low high
    rw [same i low high]
    exact h.exact i low high
  · intro i low high
    rw [same i low high]
    exact h.content i low high

/-! ## Writing an inode -/

/-- Where inodes keep their blocks and only blocks before the data change, the tree
stays. -/
theorem Tree.congr (h : Tree V free)
    (inode : ∀ i, (W.inode i).type = (V.inode i).type ∧ (W.inode i).addrs = (V.inode i).addrs)
    (data : ∀ b, firstBlock ≤ b → W.data b = V.data b) :
    Tree W free ∧ W.node = V.node ∧ W.content = V.content := by
  have node : W.node = V.node := by
    refine Volume.node_congr ?_
    intro q k x _ hx
    cases x with
    | root => rw [Volume.kid, Volume.kid, (inode k).1]
    | inode i => rw [Volume.kid, Volume.kid, (inode i).2]
    | block b => rw [Volume.kid, Volume.kid, data b (h.range q b hx).1]
  refine ⟨⟨h.separate.mono fun q x hq => node ▸ hq, fun q b hq => h.range q b (node ▸ hq), ?_,
    h.start, h.small⟩, node, ?_⟩
  · intro b hb
    rw [data b (h.start.trans hb), h.zero b hb]
  · funext i o
    exact Volume.content_congr (congrFun node _) fun b hb => data b (h.range _ b hb).1

theorem i2b_bounds (hi : i < inodeSlots) : 2 ≤ i2b i ∧ i2b i < ninodes / ipb + 3 := by
  have : i / ipb < ninodes / ipb + 1 := Nat.div_lt_of_lt_mul (Nat.mul_comm .. ▸ hi)
  exact ⟨Nat.le_add_left 2 _, Nat.add_lt_add_right this 2⟩

/-- `winode`. -/
def State.setInode (s : State) (i : Nat) (d : Dinode) : State :=
  { s with image := update s.image (i2b i) ((s.image (i2b i)).setDinode (i % ipb) d) }

theorem setInode_vol (hi : i < inodeSlots) (fits : din.Fits) :
    (s.setInode i din).vol.inode = update s.vol.inode i din := by
  funext j
  by_cases e : j = i
  · rw [e, update_self]
    simp only [State.vol, State.setInode, if_pos hi, update_self]
    exact Block.dinode_setDinode_self (Nat.mod_lt _ (by decide)) fits
  · rw [update_of_ne e]
    simp only [State.vol, State.setInode]
    split
    · by_cases same : i2b j = i2b i
      · have index : j % ipb ≠ i % ipb := by
          intro mod
          rw [i2b, i2b] at same
          have div : j / ipb = i / ipb := by omega
          exact e (by rw [← Nat.div_add_mod j ipb, ← Nat.div_add_mod i ipb, div, mod])
        rw [same, update_self, Block.dinode_setDinode_of_ne index]
      · rw [update_of_ne same]
    · rfl

theorem winode_triple (din : Dinode) (hi : i < inodeSlots) (hs : s.sectors = size) :
    Triple (· = s) (winode i din) (fun _ t => t = s.setInode i din) E := by
  have inside : i2b i < s.sectors := by
    rw [hs]
    exact (i2b_lt hi).trans (by decide)
  refine Triple.bind (rsect_triple fun ge => by omega) fun buf => Triple.known ?_
  rintro ⟨rfl, _⟩ s rfl
  show State.mk _ (max s.sectors (i2b i + 1)) _ _ _ = _
  rw [max_eq_left inside]
  rfl

theorem rinode_triple (hi : i < inodeSlots) (hs : s.sectors = size) :
    Triple (· = s) (rinode i) (fun d t => d = s.vol.inode i ∧ t = s) E := by
  have inside : i2b i < s.sectors := by
    rw [hs]
    exact (i2b_lt hi).trans (by decide)
  refine Triple.bind (rsect_triple fun ge => by omega) fun buf => Triple.known ?_
  rintro ⟨rfl, _⟩
  refine Triple.pure ?_
  rintro s rfl
  exact ⟨(if_pos hi).symm, rfl⟩

/-! ## Files -/

theorem totalBlocks_update (bytes : Nat → List UInt8) (hi : 1 ≤ i) (hi' : i ≤ count)
    (new : List UInt8) :
    totalBlocks count (update bytes i new) + mapBlocks (dataBlocks (bytes i).length) =
      totalBlocks count bytes + mapBlocks (dataBlocks new.length) := by
  have mem : i ∈ Finset.Icc 1 count := Finset.mem_Icc.mpr ⟨hi, hi'⟩
  have rest : ∑ j ∈ (Finset.Icc 1 count).erase i,
      mapBlocks (dataBlocks (update bytes i new j).length) =
        ∑ j ∈ (Finset.Icc 1 count).erase i, mapBlocks (dataBlocks (bytes j).length) := by
    refine Finset.sum_congr rfl ?_
    intro j hj
    rw [update_of_ne (Finset.ne_of_mem_erase hj)]
  rw [totalBlocks, totalBlocks, ← Finset.add_sum_erase _ _ mem, ← Finset.add_sum_erase _ _ mem, rest,
    update_self]
  omega

theorem addrs_lt (h : Tree V free) (type : (V.inode i).type ≠ 0) (k : Fin (ndirect + 2)) :
    (V.inode i).addrs k < 2 ^ 32 := by
  by_cases zero : (V.inode i).addrs k = 0
  · rw [zero]
    exact Nat.two_pow_pos 32
  · have node := Volume.node_addr.mpr ⟨type, rfl, zero⟩
    exact (h.range _ _ node).2.trans_le h.small

theorem typeOf_short (i : Nat) : -2 ^ 15 ≤ typeOf i ∧ typeOf i < 2 ^ 15 ∧ typeOf i ≠ 0 := by
  rw [typeOf]
  split <;> decide

theorem le_mapBlocks (n : Nat) : n ≤ mapBlocks n := by
  rw [mapBlocks, Nat.add_assoc]
  exact Nat.le_add_right ..

/-- A file is not longer than the image. -/
theorem length_lt (bytes : Nat → List UInt8) (hi : 1 ≤ i) (hi' : i ≤ count)
    (bound : firstBlock + totalBlocks count bytes ≤ size) :
    (bytes i).length < 2 ^ 32 := by
  have one : mapBlocks (dataBlocks (bytes i).length) ≤ totalBlocks count bytes :=
    Finset.single_le_sum (f := fun i => mapBlocks (dataBlocks (bytes i).length))
      (fun _ _ => Nat.zero_le _) (Finset.mem_Icc.mpr ⟨hi, hi'⟩)
  have le := le_mapBlocks (dataBlocks (bytes i).length)
  have blocks : dataBlocks (bytes i).length ≤ 20480 := by
    have : size = 20480 := rfl
    omega
  have size : bsize = 512 := rfl
  rw [dataBlocks, size] at blocks
  omega

/-- As long as the size of the root directory is not rounded up, it is the number of its bytes. -/
theorem ite_rootino (bytes : Nat → List UInt8) (j : Nat) :
    (if j = rootino then (bytes 1).length else (bytes j).length) = (bytes j).length :=
  ite_eq_right_iff.mpr fun e => by rw [e]; rfl

/-- The file `i` has new bytes, and all other files are as they were. -/
structure Rewrites (i : Nat) (data : List UInt8) (s t : State) : Prop where
  inode : ∃ addrs, t.vol.inode = update s.vol.inode i ⟨typeOf i, 0, 0, 1, data.length, addrs⟩
  exact : Exact t.vol i (dataBlocks data.length)
  content : ∀ o, t.vol.content i o = data.getD o 0
  otherNode : ∀ j ≠ i, ∀ q, t.vol.node (j :: q) = s.vol.node (j :: q)
  otherContent : ∀ j ≠ i, t.vol.content j = s.vol.content j
  low : ∀ z < firstBlock, z ≠ i2b i → t.image z = s.image z

section

variable {count' : Nat} {data : List UInt8} (new : Rewrites i data s t)
  (h : Holds count bytes (bytes 1).length marked s) (old : ∀ {j}, j ≠ i → j ≤ count' → j ≤ count)

include new h old

theorem Rewrites.inode_eq {j : Nat} (hj : 1 ≤ j) (hj' : j ≤ count') : ∃ addrs,
    t.vol.inode j = ⟨typeOf j, 0, 0, 1, if j = rootino then (update bytes i data 1).length
      else (update bytes i data j).length, addrs⟩ := by
  obtain ⟨addrs, inode⟩ := new.inode
  rw [ite_rootino, inode]
  by_cases e : j = i
  · exact ⟨addrs, by rw [e, update_self, update_self]⟩
  · obtain ⟨before, hold⟩ := h.inode j hj (old e hj')
    exact ⟨before, by rw [update_of_ne e, update_of_ne e, hold, ite_rootino]⟩

/-- The image with the new file. -/
theorem Rewrites.holds (le : count ≤ count') (few : count' < inodeSlots) (hi : 1 ≤ i) (hi' : i ≤ count')
    (sectors : t.sectors = s.sectors) (freeinode : t.freeinode = count' + 1)
    (used : t.usedblocks = t.freeblock)
    (blocks : t.freeblock = firstBlock + totalBlocks count' (update bytes i data))
    (bound : t.freeblock ≤ size) (tree : Tree t.vol t.freeblock) :
    Holds count' (update bytes i data) (update bytes i data 1).length marked t := by
  obtain ⟨low, high⟩ := i2b_bounds (hi'.trans_lt few)
  refine ⟨sectors.trans h.sectors, freeinode, few, used, blocks, bound, tree,
    fun j => new.inode_eq h old, ?_, ?_, ?_, ?_, ?_⟩
  · intro j hj
    obtain ⟨addrs, inode⟩ := new.inode
    rw [inode, update_of_ne (by omega), h.free j (by omega)]
  · intro j hj hj'
    by_cases e : j = i
    · rw [e, update_self]
      exact new.exact
    · rw [update_of_ne e]
      intro q hq
      rw [new.otherNode j e]
      exact h.exact j hj (old e hj') q hq
  · intro j hj hj' o
    by_cases e : j = i
    · rw [e, update_self, new.content]
    · rw [update_of_ne e, new.otherContent j e, h.content j hj (old e hj')]
  · rw [new.low 1 (by decide) (by omega), h.super]
  · intro z hz hz'
    rw [new.low z hz' (by omega), h.bitmap z hz hz']

end

/-- Only blocks before the data change when an inode is written. -/
theorem setInode_data (hi : i < inodeSlots) {b : Nat} (hb : firstBlock ≤ b) :
    (s.setInode i din).vol.data b = s.vol.data b :=
  update_of_ne (by have := i2b_lt hi; omega) ..

/-- The inode that `iappend` writes. -/
theorem Appending.fits {p : List UInt8} {addrs : Fin (ndirect + 2) → Nat}
    (inode : s.vol.inode i = ⟨typeOf i, 0, 0, 1, (bytes i).length, addrs⟩)
    (done : Appending i s (s.vol.inode i) (bytes i) (bytes i ++ p) t din)
    (long : (bytes i ++ p).length < 2 ^ 32) : Dinode.Fits { din with size := (bytes i ++ p).length } := by
  obtain ⟨addrs', hdin⟩ := done.inode
  rw [inode] at hdin
  have type := typeOf_short i
  have here : (overlay t i din).inode i = din := update_self ..
  refine ⟨?_, ?_, ?_, ?_, long, ?_⟩
  · rw [hdin]
    exact ⟨type.1, type.2.1⟩
  · rw [hdin]
    exact short_zero
  · rw [hdin]
    exact short_zero
  · rw [hdin]
    show -2 ^ 15 ≤ (1 : Int) ∧ (1 : Int) < 2 ^ 15
    decide
  · intro k
    have lt := addrs_lt done.tree (i := i) (by rw [here, hdin]; exact type.2.2) k
    rwa [here] at lt

/-- The inode of a file that was appended to is written. -/
theorem Appending.rewrites {p : List UInt8} {addrs : Fin (ndirect + 2) → Nat} (lt : i < inodeSlots)
    (inode : s.vol.inode i = ⟨typeOf i, 0, 0, 1, (bytes i).length, addrs⟩)
    (done : Appending i s (s.vol.inode i) (bytes i) (bytes i ++ p) t din)
    (long : (bytes i ++ p).length < 2 ^ 32) :
    Rewrites i (bytes i ++ p) s (t.setInode i { din with size := (bytes i ++ p).length }) ∧
      Tree (t.setInode i { din with size := (bytes i ++ p).length }).vol t.freeblock := by
  have vol : overlay s i (s.vol.inode i) = s.vol := by
    rw [overlay, update_eq_self]
    rfl
  have new : (t.setInode i { din with size := (bytes i ++ p).length }).vol.inode =
      update s.vol.inode i { din with size := (bytes i ++ p).length } := by
    rw [setInode_vol lt (done.fits inode long), vol_inode_congr done.low]
  obtain ⟨tree, node, content⟩ := Tree.congr (W := (t.setInode i _).vol) done.tree (by
    intro j
    rw [new]
    by_cases e : j = i
    · rw [e, update_self, show (overlay t i din).inode i = din from update_self ..]
      exact ⟨rfl, rfl⟩
    · have same : (overlay t i din).inode j = t.vol.inode j := update_of_ne e ..
      rw [update_of_ne e, same, vol_inode_congr done.low]
      exact ⟨rfl, rfl⟩) fun b hb => setInode_data lt hb
  refine ⟨⟨?_, ?_, ?_, ?_, ?_, ?_⟩, tree⟩
  · obtain ⟨addrs', hdin⟩ := done.inode
    refine ⟨addrs', ?_⟩
    rw [new, hdin, inode]
  · intro q hq
    rw [node]
    exact done.exact q hq
  · intro o
    rw [content, done.content]
  · intro j hj q
    rw [node, done.otherNode _ fun _ e => hj (List.cons.inj e).1, vol]
  · intro j hj
    rw [content, done.otherContent j hj, vol]
  · intro z hz ne
    rw [← done.low z hz]
    exact update_of_ne ne ..

theorem Appending.holds {p : List UInt8} {addrs : Fin (ndirect + 2) → Nat}
    (h : Holds count bytes (bytes 1).length marked s) (hi : 1 ≤ i) (hi' : i ≤ count)
    (inode : s.vol.inode i = ⟨typeOf i, 0, 0, 1, (bytes i).length, addrs⟩)
    (done : Appending i s (s.vol.inode i) (bytes i) (bytes i ++ p) t din) :
    Holds count (update bytes i (bytes i ++ p))
      (update bytes i (bytes i ++ p) 1).length marked
      (t.setInode i { din with size := (bytes i ++ p).length }) := by
  have total := totalBlocks_update bytes hi hi' (bytes i ++ p)
  have blocks : t.freeblock = firstBlock + totalBlocks count (update bytes i (bytes i ++ p)) := by
    have := done.count
    have := h.blocks
    omega
  have bound : t.freeblock ≤ size := by
    rw [← h.sectors, ← done.sectors]
    exact done.bound
  have long := length_lt (update bytes i (bytes i ++ p)) hi hi' (blocks ▸ bound)
  rw [update_self] at long
  obtain ⟨new, tree⟩ := done.rewrites (hi'.trans_lt h.few) inode long
  exact new.holds h (fun _ => id) le_rfl h.few hi hi' done.sectors (done.freeinode.trans h.freeinode)
    (done.used h.used) blocks bound tree

/-- `iappend` adds bytes to a file.  It fails if the file gets too long, or if the image
has no more blocks. -/
theorem iappend_triple (bytes : Nat → List UInt8) (marked : Nat) (p : List UInt8) (hi : 1 ≤ i)
    (hi' : i ≤ count)
    (long : maxFile * bsize < (bytes i).length + p.length → E (.assert "fbn < MAXFILE"))
    (full : size < firstBlock + totalBlocks count (update bytes i (bytes i ++ p)) →
      E (.exit "read")) :
    Triple (Holds count bytes (bytes 1).length marked) (iappend i p)
      (fun _ => Holds count (update bytes i (bytes i ++ p))
        (update bytes i (bytes i ++ p) 1).length marked) E := by
  intro s h
  have lt : i < inodeSlots := lt_of_le_of_lt hi' h.few
  obtain ⟨addrs, inode⟩ := h.inode i hi hi'
  rw [ite_rootino] at inode
  have length : (s.vol.inode i).size = (bytes i).length := by rw [inode]
  have type : (s.vol.inode i).type ≠ 0 := by
    rw [inode]
    exact (typeOf_short i).2.2
  have vol : overlay s i (s.vol.inode i) = s.vol := by
    rw [overlay, update_eq_self]
    rfl
  have total := totalBlocks_update bytes hi hi' (bytes i ++ p)
  have start : Appending i s (s.vol.inode i) (bytes i) (bytes i) s (s.vol.inode i) := by
    refine ⟨?_, ?_, ?_, fun _ _ => rfl, fun _ _ => rfl, rfl, id, rfl, rfl, fun _ _ => rfl,
      ⟨_, rfl⟩, ?_⟩
    · rw [vol]
      exact h.tree
    · rw [vol]
      exact h.exact i hi hi'
    · rw [vol]
      exact h.content i hi hi'
    · rw [h.sectors]
      exact h.bound
  have loop := iappendLoop_triple (E := E) (p := p) type (by rw [h.sectors]; decide) start le_rfl long
    (by
      intro beyond
      have := h.blocks
      have := h.sectors
      rw [List.length_append] at total
      exact full (by omega))
  rw [← length] at loop
  refine (Triple.bind (rinode_triple lt h.sectors) fun din => Triple.known ?_) s rfl
  rintro rfl
  refine Triple.bind loop fun r => ?_
  obtain ⟨d, off⟩ := r
  rintro u ⟨rfl, done⟩
  refine (winode_triple _ lt (done.sectors.trans h.sectors)).post ?_ u rfl
  rintro _ t rfl
  exact done.holds h hi hi' inode

/-- An inode without blocks is put into a volume. -/
structure Puts (i : Nat) (d : Dinode) (V W : Volume) : Prop where
  inode : W.inode = update V.inode i d
  bare : d.addrs = fun _ => 0
  data : ∀ b, firstBlock ≤ b → W.data b = V.data b

namespace Puts

variable {d : Dinode} (h : Puts i d V W) (tree : Tree V free)

include h tree

theorem block {q : List Nat} {b : Nat} (hq : W.node q = some (.block b)) :
    V.node q = some (.block b) := by
  refine Volume.block_of_block (v := V) (fun q b hq => h.data b (tree.range q b hq).1) ?_ q b hq
  intro j k
  rw [h.inode]
  by_cases e : j = i
  · rw [e, update_self, h.bare]
    exact fun _ ne => absurd rfl ne
  · rw [update_of_ne e]
    exact fun type _ => ⟨type, rfl⟩

theorem tree_put : Tree W free := by
  refine ⟨Volume.separate_of_blocks ?_, fun q b hq => tree.range q b (h.block tree hq), ?_,
    tree.start, tree.small⟩
  · intro q r b hq hr
    exact tree.separate q r _ (h.block tree hq) (h.block tree hr)
  · intro b hb
    rw [h.data b (tree.start.trans hb), tree.zero b hb]

/-- The new inode has no blocks. -/
theorem node_eq_none (unused : (V.inode i).type = 0) {q : List Nat} (hq : q ≠ []) :
    W.node (i :: q) = none := by
  cases hx : W.node (i :: q) with
  | none => rfl
  | some x =>
    obtain ⟨e, _⟩ | ⟨_, e, _⟩ | ⟨_, _, b, _, _, rfl⟩ := Volume.node_cases hx
    · cases e
    · exact absurd (List.cons.inj e).2 hq
    · exact absurd unused (Volume.type_of_node (h.block tree hx))

theorem node_other {j : Nat} (ne : j ≠ i) (q : List Nat) : W.node (j :: q) = V.node (j :: q) := by
  have same : W.inode j = V.inode j := by rw [h.inode, update_of_ne ne]
  exact Volume.node_file_congr (by rw [same]) (by rw [same])
    (fun q b hq => h.data b (tree.range _ b hq).1) q

theorem content_other {j : Nat} (ne : j ≠ i) : W.content j = V.content j := by
  have same : W.inode j = V.inode j := by rw [h.inode, update_of_ne ne]
  exact Volume.content_file_congr (by rw [same]) (by rw [same])
    fun q b hq => h.data b (tree.range _ b hq).1

end Puts

theorem totalBlocks_succ (count : Nat) (bytes : Nat → List UInt8) :
    totalBlocks (count + 1) (update bytes (count + 1) []) = totalBlocks count bytes := by
  have zero : mapBlocks (dataBlocks ([] : List UInt8).length) = 0 := rfl
  rw [totalBlocks, totalBlocks, Finset.sum_Icc_succ_top (by omega), update_self, zero, Nat.add_zero]
  refine Finset.sum_congr rfl ?_
  intro j hj
  have := (Finset.mem_Icc.mp hj).2
  rw [update_of_ne (by omega)]

/-- An inode gets a type. -/
theorem Holds.alloc (h : Holds count bytes (bytes 1).length marked s)
    (few : count + 1 < inodeSlots) :
    Holds (count + 1) (update bytes (count + 1) [])
      (update bytes (count + 1) [] 1).length marked
      ({ s with freeinode := s.freeinode + 1 }.setInode (count + 1)
        { newDinode (typeOf (count + 1)) with nlink := 1 }) := by
  have type := typeOf_short (count + 1)
  have fits : Dinode.Fits { newDinode (typeOf (count + 1)) with nlink := 1 } :=
    ⟨⟨type.1, type.2.1⟩, short_zero, short_zero, (by decide : -2 ^ 15 ≤ (1 : Int) ∧ (1 : Int) < 2 ^ 15),
      Nat.two_pow_pos 32, fun _ => Nat.two_pow_pos 32⟩
  have free := h.free (count + 1) (.inr (Nat.lt_succ_self _))
  have puts : Puts (count + 1) { newDinode (typeOf (count + 1)) with nlink := 1 } s.vol
      ({ s with freeinode := s.freeinode + 1 }.setInode (count + 1)
        { newDinode (typeOf (count + 1)) with nlink := 1 }).vol :=
    ⟨setInode_vol (s := { s with freeinode := s.freeinode + 1 }) few fits, rfl,
      fun b hb => setInode_data few hb⟩
  have empty := fun {q : List Nat} (hq : q ≠ []) => puts.node_eq_none h.tree (by rw [free]; rfl) hq
  have new : Rewrites (count + 1) [] s ({ s with freeinode := s.freeinode + 1 }.setInode (count + 1)
      { newDinode (typeOf (count + 1)) with nlink := 1 }) := by
    refine ⟨⟨_, puts.inode⟩, ?_, ?_, fun j ne q => puts.node_other h.tree ne q,
      fun j ne => puts.content_other h.tree ne, fun z _ ne => update_of_ne ne ..⟩
    · intro q hq
      rw [empty hq]
      exact iff_of_false (fun no => no rfl) (by simp [paths, dataBlocks, bsize])
    · intro o
      rw [Volume.content_of_none (empty (leaf_ne_nil _))]
      rfl
  refine new.holds h (by omega) (Nat.le_succ count) few (Nat.le_add_left ..) le_rfl rfl
    (congrArg (· + 1) h.freeinode) h.used ?_ h.bound (puts.tree_put h.tree)
  rw [totalBlocks_succ]
  exact h.blocks

theorem ialloc_triple (bytes : Nat → List UInt8) (marked : Nat) (few : count + 1 < inodeSlots) :
    Triple (Holds count bytes (bytes 1).length marked) (ialloc (typeOf (count + 1)))
      (fun inum s => inum = count + 1 ∧ Holds (count + 1) (update bytes (count + 1) [])
        (update bytes (count + 1) [] 1).length marked s) E := by
  intro s h
  have step := winode_triple (E := E) (s := { s with freeinode := s.freeinode + 1 })
    { newDinode (typeOf (count + 1)) with nlink := 1 } few h.sectors
  refine (Triple.get_bind ?_ : Triple (· = s) _ _ E) s rfl
  rintro s rfl
  refine Triple.bind (Triple.modify (Q := fun _ t => t = { s with freeinode := s.freeinode + 1 }) ?_)
    fun _ => ?_
  · rintro _ rfl
    rfl
  · have alloc := h.alloc few
    rw [h.freeinode] at step alloc ⊢
    refine Triple.bind step fun _ => Triple.pure ?_
    rintro t rfl
    exact ⟨rfl, alloc⟩

end Mkfs

end Xv6Gui
