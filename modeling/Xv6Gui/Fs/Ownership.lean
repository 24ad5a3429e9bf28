import Mathlib.Data.List.ReduceOption
import Xv6Gui.Fs.InodeTable

/-!
# Who owns a block

Every block in the tree of the files is marked as used in the bitmap, lies behind
the bitmap, and is at one position only.

`bmap`, `readi` and `writei` change the files in small steps (`Touch`): a block is
allocated for a missing position of an inode, or the data in a block of its file is
changed.  What each step does to the blocks is said here once.  All that holds
through the loops of these functions is shown for one step.
-/

namespace Xv6Gui

namespace View

variable {v w : View} {ip : InodePtr} {p : List Nat} {a b i j k x top : Nat}

variable {l : Option Nat} {f : Inode → Inode} {ls : List (Option Nat)}

/-! ## The tree and the map of an inode in memory -/

/-- The node for a node of the map of an inode, which is `0` itself. -/
def nodeOf (i x : Nat) : FsNode := if x = 0 then .inode i else .block x

theorem Coherent.vol_inode (h : v.Coherent) (held : v.Held ip) :
    v.vol.inode (v.icache ip).inum = (v.icache ip).toDinode := by
  rw [vol]
  simp only [if_pos (h.inum ip held.ref)]
  exact h.current held.ref held.valid

theorem kid_nodeOf (h : v.Coherent) (held : v.Held ip) (x k : Nat) :
    v.vol.kid (nodeOf (v.icache ip).inum x) k = (v.child ip x k).map .block := by
  rw [nodeOf]
  split
  · rename_i zero
    rw [zero, Volume.kid, child, if_pos rfl, h.vol_inode held]
    split
    · rfl
    · rfl
  · rename_i ne
    rw [child_block ne]
    rfl

theorem child_ne_zero (h : v.child ip x k = some b) : b ≠ 0 := by
  rw [child] at h
  have pointer_ne : ∀ addr, pointer addr = some b → b ≠ 0 := by
    intro addr h
    rw [pointer] at h
    split at h
    · cases h
    · cases h
      assumption
  split at h
  · split at h
    · exact pointer_ne _ h
    · cases h
  · exact pointer_ne _ h

/-- The map of an inode in memory is its part of the tree. -/
theorem node_of_blocks (h : v.Coherent) (held : v.Held ip) (p : List Nat) :
    v.vol.node ((v.icache ip).inum :: p) =
      ((v.blocks ip).val p).map (nodeOf (v.icache ip).inum) := by
  by_cases place : Place p
  · have position : Position ((v.icache ip).inum :: p) := place
    rw [val_of_place place]
    clear place
    induction p using List.reverseRecOn with
    | nil =>
      have type : (v.vol.inode (v.icache ip).inum).type ≠ 0 := by
        rw [h.vol_inode held]
        exact h.type ip held.ref held.valid
      exact Volume.node_inode.mpr type
    | append_singleton p k ih =>
      have above : Position ((v.icache ip).inum :: p) := place_closed p k position
      have snoc : Position ((v.icache ip).inum :: p ++ [k]) := position
      rw [← List.cons_append, Volume.node_snoc snoc, ih above, Trie.walk_snoc]
      cases Trie.walk (v.child ip) 0 p with
      | none => rfl
      | some x =>
        show v.vol.kid (nodeOf _ x) k = _
        rw [kid_nodeOf h held, Option.bind_some]
        cases hc : v.child ip x k with
        | none => rfl
        | some b =>
          simp only [Option.map_some]
          rw [nodeOf, if_neg (child_ne_zero hc)]
  · have no : ¬ Position ((v.icache ip).inum :: p) := place
    rw [Volume.node, if_neg no, blocks]
    simp only [if_neg place]
    rfl

theorem val_ne_zero (hp : p ≠ []) (h : (v.blocks ip).val p = some b) : b ≠ 0 := by
  have place := place_of_val h
  rw [val_of_place place] at h
  obtain ⟨q, k, rfl⟩ := List.eq_nil_or_concat p |>.resolve_left hp
  rw [List.concat_eq_append, Trie.walk_snoc] at h
  obtain ⟨x, _, hk⟩ := Runs.bind_some.mp h
  exact child_ne_zero hk

/-- A block of the map of an inode in memory is in the tree. -/
theorem node_of_val (h : v.Coherent) (held : v.Held ip) (hp : p ≠ [])
    (hb : (v.blocks ip).val p = some b) :
    v.vol.node ((v.icache ip).inum :: p) = some (.block b) := by
  rw [node_of_blocks h held, hb, Option.map_some, nodeOf, if_neg (val_ne_zero hp hb)]

/-! ## Ownership -/

/-- The blocks of files are used, behind the bitmap and below `top`, each at one
position.  All blocks up to the bitmap are used. -/
structure Owned (v : View) (top : Nat) : Prop where
  top_le : top ≤ v.sb.size
  separate : v.vol.Separate
  mapped : ∀ q b, v.vol.node q = some (.block b) →
    v.dataStart ≤ b ∧ b < top ∧ v.used b = true
  low : ∀ b ∈ v.free, v.dataStart ≤ b

theorem Owned.mono {top' : Nat} (h : v.Owned top) (le : top ≤ top') (hsize : top' ≤ v.sb.size) :
    v.Owned top' :=
  ⟨hsize, h.separate, fun q b hb => ⟨(h.mapped q b hb).1, (h.mapped q b hb).2.1.trans_le le,
    (h.mapped q b hb).2.2⟩, h.low⟩

/-- A disk with places for `n` inodes and none of them with an index block: the addresses of the inodes are
used, and each belongs to one place in one inode. -/
structure Direct (v : View) (n d top : Nat) (place : Nat → Nat × Nat) : Prop where
  slots : v.sb.slots = n
  dataStart : v.dataStart = d
  top_le : top ≤ v.sb.size
  mapped : ∀ i < n, (v.current i).type ≠ 0 → ∀ k, (v.current i).addrs k ≠ 0 →
    place ((v.current i).addrs k) = (i, k.val) ∧ k.val < ndirect ∧
      d ≤ (v.current i).addrs k ∧ (v.current i).addrs k < top ∧
        v.used ((v.current i).addrs k) = true
  low : ∀ b < d, v.used b = true

section

variable {n d i : Nat} {place : Nat → Nat × Nat} {q : List Nat} (h : v.Direct n d top place)

include h

theorem Direct.inode (type : (v.vol.inode i).type ≠ 0) :
    i < n ∧ v.vol.inode i = v.current i := by
  simp only [vol, h.slots] at type ⊢
  split at type
  · rename_i lt
    exact ⟨lt, if_pos lt⟩
  · exact absurd rfl type

theorem Direct.node (hq : v.vol.node q = some (.block b)) : ∃ i < n, ∃ k : Fin (ndirect + 2), q = [i, k.val] ∧
      (v.current i).type ≠ 0 ∧ (v.current i).addrs k = b ∧ b ≠ 0 := by
  obtain ⟨_, e⟩ | ⟨_, _, e, _⟩ | ⟨i, p, _, rfl, ne, _⟩ := Volume.node_cases hq
  · cases e
  · cases e
  · have place : Place p := Volume.position_of_node hq
    match p, ne, place with
    | [k], _, lt =>
      have found := Volume.node_addr (k := ⟨k, lt⟩).mp hq
      obtain ⟨small, same⟩ := h.inode found.1
      exact ⟨i, small, ⟨k, lt⟩, rfl, same ▸ found⟩
    | k :: j :: rest, _, place =>
      -- the address above would be that of an index block
      have index : ndirect ≤ k ∧ k < ndirect + 2 := by
        match rest, place with
        | [], ⟨le, lt, _⟩ => exact ⟨le, lt⟩
        | [_], ⟨e, _⟩ => exact ⟨by omega, by omega⟩
      obtain ⟨y, hy⟩ := Volume.node_of_append (q := [i, k]) (r := j :: rest) hq
      obtain ⟨e, _⟩ | ⟨_, e, _⟩ | ⟨_, _, c, _, _, rfl⟩ := Volume.node_cases hy
      · cases e
      · cases e
      · obtain ⟨type, rfl, ne⟩ := Volume.node_addr (k := ⟨k, index.2⟩).mp hy
        obtain ⟨small, same⟩ := h.inode type
        rw [same] at type ne
        have : k < ndirect := (h.mapped i small type ⟨k, index.2⟩ ne).2.1
        omega

theorem Direct.owned : v.Owned top := by
  refine ⟨h.top_le, Volume.separate_of_blocks ?_, ?_, ?_⟩
  · intro q r b hq hr
    obtain ⟨i, small, k, rfl, hi, hk, ne⟩ := h.node hq
    obtain ⟨j, small', l, rfl, hj, hl, _⟩ := h.node hr
    have here := (h.mapped i small hi k (hk ▸ ne)).1
    have there := (h.mapped j small' hj l (hl ▸ ne)).1
    rw [hk] at here
    rw [hl, here, Prod.mk.injEq] at there
    rw [there.1, there.2]
  · intro q b hq
    obtain ⟨i, small, k, rfl, hi, rfl, ne⟩ := h.node hq
    rw [h.dataStart]
    exact (h.mapped i small hi k ne).2.2
  · intro b free
    by_contra low
    have clear := (mem_free.mp free).2
    rw [h.low b (by rw [h.dataStart] at low; omega)] at clear
    cases clear

end

/-- The map of each inode in memory is well formed. -/
theorem Owned.wellFormed (h : v.Owned top) (hc : v.Coherent) (held : v.Held ip) :
    v.WellFormed ip := by
  have start := v.dataStart_pos
  refine ⟨hc.inum ip held.ref, ⟨?_, ?_, v.free_nodup⟩, h.low, ?_⟩
  · intro p q b hp hq
    have same := h.separate ((v.icache ip).inum :: p) ((v.icache ip).inum :: q)
      (nodeOf (v.icache ip).inum b) (by rw [node_of_blocks hc held, hp]; rfl)
      (by rw [node_of_blocks hc held, hq]; rfl)
    exact (List.cons.inj same).2
  · intro p b hp free
    by_cases e : p = []
    · rw [e, val_nil] at hp
      cases hp
      have := h.low 0 free
      omega
    · have used := (h.mapped _ b (node_of_val hc held e hp)).2.2
      rw [(mem_free.mp free).2] at used
      cases used
  · intro p b e hp
    exact (h.mapped _ b (node_of_val hc held e hp)).1

/-- A free block is not in the tree. -/
theorem Owned.fresh (h : v.Owned top) (clear : v.used a = false) (q : List Nat) :
    v.vol.node q ≠ some (.block a) := by
  intro hq
  have used := (h.mapped q a hq).2.2
  rw [clear] at used
  cases used

/-! ## Allocation -/

/-- The block that `balloc` takes. -/
structure Next (v : View) (a : Nat) : Prop where
  size : a < v.sb.size
  clear : v.used a = false
  least : ∀ x < a, v.used x = true

theorem Owned.start_le (h : v.Owned top) (next : v.Next a) : v.dataStart ≤ a :=
  h.low a (mem_free.mpr ⟨next.size, next.clear⟩)

theorem used_write (h : v.dataStart ≤ x) (hb : b < v.sb.size) (d : Block) :
    (v.write x d).used b = v.used b := by
  have := bblock_lt hb
  rw [used, used, write_sb h, write_data_other (by omega)]

/-- A block that is taken is not in the tree, and nothing in the tree changes. -/
theorem Owned.node_alloc (h : v.Owned top) (next : v.Next a) :
    (v.alloc a).vol.node = v.vol.node ∧ (v.alloc a).vol.content = v.vol.content := by
  have start := h.start_le next
  have other : ∀ q b, v.vol.node q = some (.block b) → (v.alloc a).data b = v.data b := by
    intro q b hq
    have fresh : b ≠ a := by
      rintro rfl
      exact h.fresh next.clear q hq
    have := (h.mapped q b hq).1
    have := bblock_lt next.size
    exact alloc_data_other fresh (by omega)
  have node : (v.alloc a).vol.node = v.vol.node := by
    rw [vol_alloc start]
    refine Volume.node_congr ?_
    intro q k x _ hx
    cases x with
    | root | inode i => rfl
    | block b =>
      rw [Volume.kid, Volume.kid]
      have same : (v.alloc a).data b = v.vol.data b := other q b hx
      simp only [same]
  refine ⟨node, ?_⟩
  funext i off
  refine Volume.content_congr (by rw [node]) ?_
  intro b hb
  exact other _ b hb

theorem Coherent.alloc (h : v.Coherent) (start : v.dataStart ≤ a) : (v.alloc a).Coherent :=
  h.congr rfl (sb_alloc start) fun _ hi => dnode_alloc start hi

theorem used_alloc_view {y : Nat} (start : v.dataStart ≤ a) (hy : y < v.sb.size) :
    (v.alloc a).used y = (v.used y || y == a) := by
  rw [← used_alloc start hy, used, sb_alloc start]

theorem size_lt (v : View) : v.sb.size < 2 ^ 32 := Block.word_lt ..

/-! ## Steps -/

/-- A step of the functions that read and write a file.  The label is the block that
is allocated. -/
inductive Touch (ip : InodePtr) : View → Option Nat → View → Prop where
  /-- A block for an address in the inode. -/
  | addr {v : View} {a : Nat} {k : Fin (ndirect + 2)} :
      v.Next a → (v.icache ip).addrs k = 0 → Touch ip v (some a) ((v.alloc a).setAddr ip k a)
  /-- A block for an entry of an index block. -/
  | entry {v : View} {a x j : Nat} {p : List Nat} :
      v.Next a → p ≠ [] → Place (p ++ [j]) → (v.blocks ip).val p = some x →
        (v.data x).word j = 0 →
          Touch ip v (some a) ((v.alloc a).write x ((v.data x).setWord j a))
  /-- The data in a block of the file. -/
  | data {v : View} {b bn : Nat} (d : Block) :
      (v.blocks ip).val (leaf bn) = some b → Touch ip v none (v.write b d)

/-- What stays, apart from blocks behind the inodes and the addresses in the
inode. -/
structure Touched (ip : InodePtr) (v w : View) : Prop where
  sb : w.sb = v.sb
  ftable : w.ftable = v.ftable
  ops : w.ops = v.ops
  other : ∀ ip' ≠ ip, w.icache ip' = v.icache ip'
  inode : ∃ addrs, w.icache ip = { v.icache ip with addrs := addrs }
  dnode : ∀ i < v.sb.slots, w.dnode i = v.dnode i

theorem Touched.refl (ip : InodePtr) (v : View) : Touched ip v v :=
  ⟨rfl, rfl, rfl, fun _ _ => rfl, ⟨_, rfl⟩, fun _ _ => rfl⟩

theorem Touched.trans {u : View} (h : Touched ip v w) (k : Touched ip w u) : Touched ip v u := by
  obtain ⟨addrs, e⟩ := h.inode
  obtain ⟨addrs', e'⟩ := k.inode
  refine ⟨k.sb.trans h.sb, k.ftable.trans h.ftable, k.ops.trans h.ops, ?_, ⟨addrs', ?_⟩, ?_⟩
  · intro ip' ne
    rw [k.other ip' ne, h.other ip' ne]
  · rw [e', e]
  · intro i hi
    rw [k.dnode i (h.sb ▸ hi), h.dnode i hi]

/-- The inode in memory, apart from its addresses. -/
theorem Touched.same (h : Touched ip v w) :
    (w.icache ip).inum = (v.icache ip).inum ∧ (w.icache ip).size = (v.icache ip).size ∧
      (v.Held ip → w.Held ip) := by
  obtain ⟨addrs, e⟩ := h.inode
  refine ⟨by rw [e], by rw [e], ?_⟩
  intro held
  exact ⟨by rw [e]; exact held.ref, by rw [e]; exact held.valid⟩

theorem Touched.vol_put (start : v.dataStart ≤ b) (d : Block) : Touched ip v (v.write b d) := by
  refine ⟨write_sb start d, rfl, rfl, fun _ _ => rfl, ⟨_, rfl⟩, ?_⟩
  intro i hi
  have := iblock_lt_dataStart hi
  exact dnode_write (by omega)

theorem Touched.alloc (start : v.dataStart ≤ a) : Touched ip v (v.alloc a) :=
  ⟨sb_alloc start, rfl, rfl, fun _ _ => rfl, ⟨_, rfl⟩, fun _ hi => dnode_alloc start hi⟩

theorem Touched.setAddr (v : View) (ip : InodePtr) (k : Fin (ndirect + 2)) (a : Nat) :
    Touched ip v (v.setAddr ip k a) :=
  ⟨rfl, rfl, rfl, fun _ ne => setInode_icache_of_ne ne _, ⟨_, setInode_icache _⟩, fun _ _ => rfl⟩

/-- A missing position is filled with the next block. -/
theorem Owned.grow {q : List Nat} {y : FsNode} (h : v.Owned top) (next : v.Next a) (below : a < top)
    (hq : q ≠ []) (position : Position (q ++ [k])) (parent : v.vol.node q = some y)
    (missing : v.vol.kid y k = none) (hsb : w.sb = v.sb)
    (hvol : w.vol = (v.alloc a).vol.link y k a)
    (hdata : ∀ z < v.dataStart, 1 < z → w.data z = (v.alloc a).data z) :
    w.Owned top ∧ w.vol.node = Function.update v.vol.node (q ++ [k]) (some (.block a)) ∧
      w.vol.content = v.vol.content ∧ v.free = a :: w.free := by
  obtain ⟨same, content⟩ := h.node_alloc next
  have start := h.start_le next
  have pos := v.dataStart_pos
  have sep : (v.alloc a).vol.Separate := by
    intro q r x hq hr
    rw [same] at hq hr
    exact h.separate q r x hq hr
  have fresh : ∀ r, (v.alloc a).vol.node r ≠ some (.block a) := by
    rw [same]
    exact h.fresh next.clear
  have parent' : (v.alloc a).vol.node q = some y := by rw [same, parent]
  have missing' : (v.alloc a).vol.kid y k = none := by
    have absent : v.vol.node (q ++ [k]) = none := by
      rw [Volume.node_snoc position, parent]
      exact missing
    rw [← same, Volume.node_snoc position, parent'] at absent
    exact absent
  have zero : (v.alloc a).vol.data a = .zero := alloc_data_self v a
  have small : a < 2 ^ 32 := next.size.trans v.size_lt
  have node := Volume.node_link sep hq position parent' missing' fresh zero (by omega) small
  rw [← hvol, same] at node
  have free : v.free = a :: w.free :=
    free_alloc h.low next.size next.clear next.least hsb hdata
  have used : ∀ y < v.sb.size, w.used y = (v.used y || y == a) := by
    intro y hy
    rw [View.used, hsb, hdata _ (bblock_lt hy) (one_lt_bblock ..), used_alloc start hy]
  have hstart : w.dataStart = v.dataStart := by rw [dataStart, dataStart, hsb]
  refine ⟨⟨hsb ▸ h.top_le, ?_, ?_, ?_⟩, node, ?_, free⟩
  · exact h.separate.update (h.fresh next.clear) node
  · intro r b hb
    rw [node] at hb
    rw [hstart]
    by_cases e : r = q ++ [k]
    · rw [e, Function.update_self] at hb
      cases hb
      refine ⟨start, below, ?_⟩
      rw [used a next.size]
      simp
    · rw [Function.update_of_ne e] at hb
      obtain ⟨le, lt, hused⟩ := h.mapped r b hb
      refine ⟨le, lt, ?_⟩
      rw [used b (lt.trans_le h.top_le), hused]
      rfl
  · intro b hb
    rw [hstart]
    exact h.low b (free ▸ List.mem_cons_of_mem _ hb)
  · rw [hvol, Volume.content_link sep hq position parent' missing' fresh zero (by omega) small,
      content]

/-- The data in a block of a file is changed. -/
theorem Owned.write_leaf {bn : Nat} (h : v.Owned top)
    (hb : v.vol.node (i :: leaf bn) = some (.block b)) (d : Block) :
    (v.write b d).Owned top ∧ (v.write b d).vol.node = v.vol.node ∧
      (v.write b d).free = v.free := by
  have start := (h.mapped _ b hb).1
  have hsb := write_sb start d
  have node : (v.write b d).vol.node = v.vol.node := by
    rw [vol_write start]
    exact Volume.node_put h.separate hb d
  have hstart : (v.write b d).dataStart = v.dataStart := by rw [dataStart, dataStart, hsb]
  have free := write_free start d
  refine ⟨⟨hsb ▸ h.top_le, ?_, ?_, ?_⟩, node, free⟩
  · intro q r x hq hr
    rw [node] at hq hr
    exact h.separate q r x hq hr
  · intro q c hc
    rw [node] at hc
    obtain ⟨le, lt, hused⟩ := h.mapped q c hc
    rw [hstart, used_write start (lt.trans_le h.top_le)]
    exact ⟨le, lt, hused⟩
  · rw [free, hstart]
    exact h.low

theorem Coherent.touched (h : v.Coherent) (held : v.Held ip) (t : Touched ip v w)
    (grow : ∀ k, (v.icache ip).addrs k = (w.icache ip).addrs k ∨ (v.icache ip).addrs k = 0)
    (fits : ∀ k, (w.icache ip).addrs k < 2 ^ 32) : w.Coherent := by
  obtain ⟨addrs, e⟩ := t.inode
  have new : (w.icache ip).addrs = addrs := by rw [e]
  rw [new] at fits grow
  have apart : ∀ ip' ≠ ip, 0 < (v.icache ip').ref → (v.icache ip').inum ≠ (v.icache ip).inum := by
    intro ip' ne href same
    exact ne (h.uniq ip' ip href held.ref same)
  refine h.update ip t.sb t.other ?_ ?_ ?_ ?_
  · intro ip' _ href
    exact t.dnode _ (h.inum ip' href)
  · rw [e]
    exact h.nonneg ip
  · rw [e]
    exact fun _ => ⟨h.inum ip held.ref, apart⟩
  · intro _
    have old := h.fits ip held.ref held.valid
    have disk := h.disk ip held.ref held.valid
    rw [e, t.dnode _ (h.inum ip held.ref)]
    refine ⟨⟨old.type, old.major, old.minor, old.nlink, old.size, fits⟩,
      h.type ip held.ref held.valid, ?_⟩
    refine ⟨disk.type, disk.major, disk.minor, disk.nlink, disk.size, ?_⟩
    intro k
    obtain same | zero := disk.addrs k
    · obtain kept | none := grow k
      · exact .inl (same.trans kept)
      · exact .inr (same.trans none)
    · exact .inr zero

/-- An inode in use, in a state in which blocks are owned. -/
structure InUse (v : View) (top : Nat) (ip : InodePtr) : Prop where
  owned : v.Owned top
  coherent : v.Coherent
  held : v.Held ip

theorem setWord_lt (h : v.Coherent) (held : v.Held ip) (k l : Fin (ndirect + 2)) (ha : a < 2 ^ 32) :
    Function.update (v.icache ip).addrs k a l < 2 ^ 32 := by
  by_cases e : l = k
  · rw [e, Function.update_self]
    exact ha
  · rw [Function.update_of_ne e]
    exact (h.fits ip held.ref held.valid).addrs l

/-- A block is allocated for a missing position of the file. -/
theorem Touch.alloc (h : v.InUse top ip) (t : Touch ip v (some a) w) (below : a < top) :
    w.InUse top ip ∧ Touched ip v w ∧ v.free = a :: w.free ∧ w.vol.content = v.vol.content ∧
      ∃ p, p ≠ [] ∧ v.vol.node ((v.icache ip).inum :: p) = none ∧
        w.vol.node =
          Function.update v.vol.node ((v.icache ip).inum :: p) (some (.block a)) := by
  obtain ⟨owned, coherent, held⟩ := h
  cases t with
  | @addr _ k next zero =>
    have start := owned.start_le next
    have touched : Touched ip v ((v.alloc a).setAddr ip k a) :=
      (Touched.alloc start).trans (.setAddr ..)
    have missing : v.vol.kid (.inode (v.icache ip).inum) k = none := by
      have kid := kid_nodeOf coherent held 0 k
      rw [child_inode, pointer_eq_none.mpr zero, nodeOf, if_pos rfl] at kid
      exact kid
    have parent : v.vol.node [(v.icache ip).inum] = some (.inode (v.icache ip).inum) := by
      rw [node_of_blocks coherent held, val_nil, Option.map_some, nodeOf, if_pos rfl]
    have position : Position ([(v.icache ip).inum] ++ [k.val]) := k.isLt
    obtain ⟨owned', node, content, free⟩ := owned.grow (w := (v.alloc a).setAddr ip k a) next
      below (by simp) position parent missing (sb_alloc start)
      (vol_setAddr (coherent.alloc start) ⟨held.ref, held.valid⟩ k a) (fun _ _ _ => rfl)
    refine ⟨⟨owned', ?_, touched.same.2.2 held⟩, touched, free, content, [k.val], by simp, ?_,
      node⟩
    · have inode : (((v.alloc a).setAddr ip k a).icache ip).addrs =
          Function.update (v.icache ip).addrs k a := congrArg (·.addrs) (setInode_icache _)
      refine coherent.touched held touched ?_ ?_
      · intro l
        rw [inode]
        by_cases e : l = k
        · exact .inr (e ▸ zero)
        · exact .inl (Function.update_of_ne e ..).symm
      · intro l
        rw [inode]
        exact setWord_lt coherent held k l (next.size.trans v.size_lt)
    · rw [show [(v.icache ip).inum, k.val] = [(v.icache ip).inum] ++ [k.val] from rfl,
        Volume.node_snoc position, parent]
      exact missing
  | @entry _ x j p next hp place parent zero =>
    have start := owned.start_le next
    have node := node_of_val coherent held hp parent
    have high := (owned.mapped _ x node).1
    have startx : (v.alloc a).dataStart ≤ x := by
      rw [dataStart, sb_alloc start]
      exact high
    have data : (v.alloc a).data x = v.data x := by
      have := bblock_lt next.size
      refine alloc_data_other ?_ (by omega)
      rintro rfl
      exact owned.fresh next.clear _ node
    have touched : Touched ip v ((v.alloc a).write x ((v.data x).setWord j a)) :=
      (Touched.alloc start).trans (.vol_put startx _)
    have missing : v.vol.kid (.block x) j = none := by
      have kid : v.vol.kid (.block x) j = (pointer ((v.data x).word j)).map .block := rfl
      rw [kid, pointer_eq_none.mpr zero]
      rfl
    have position : Position ((v.icache ip).inum :: p ++ [j]) := place
    have hvol : ((v.alloc a).write x ((v.data x).setWord j a)).vol =
        (v.alloc a).vol.link (.block x) j a := by
      rw [vol_write startx, ← data]
      rfl
    obtain ⟨owned', node', content, free⟩ := owned.grow
      (w := (v.alloc a).write x ((v.data x).setWord j a)) next below (by simp) position node
      missing (by rw [write_sb startx, sb_alloc start]) hvol
      (fun z hz _ => write_data_other (by omega))
    refine ⟨⟨owned', ?_, touched.same.2.2 held⟩, touched, free, content, p ++ [j], by simp, ?_,
      node'⟩
    · exact coherent.touched held touched (fun _ => .inl rfl)
        (coherent.fits ip held.ref held.valid).addrs
    · rw [← List.cons_append, Volume.node_snoc position, node]
      exact missing

/-- The data in a block of the file is changed. -/
theorem Touch.data_spec {bn : Nat} {d : Block} (h : v.InUse top ip)
    (hb : (v.blocks ip).val (leaf bn) = some b) :
    (v.write b d).InUse top ip ∧ Touched ip v (v.write b d) ∧ (v.write b d).free = v.free ∧
      (v.write b d).vol.node = v.vol.node ∧ (v.write b d).vol = v.vol.put b d ∧
        v.vol.node ((v.icache ip).inum :: leaf bn) = some (.block b) := by
  obtain ⟨owned, coherent, held⟩ := h
  have node := node_of_val coherent held (leaf_ne_nil bn) hb
  have start := (owned.mapped _ b node).1
  have touched : Touched ip v (v.write b d) := .vol_put start d
  obtain ⟨owned', node', free⟩ := owned.write_leaf node d
  refine ⟨⟨owned', ?_, touched.same.2.2 held⟩, touched, free, node', vol_write start, node⟩
  exact coherent.touched held touched (fun _ => .inl rfl)
    (coherent.fits ip held.ref held.valid).addrs

/-- What is logged lies below `top`. -/
theorem Touch.logged (h : v.InUse top ip) (t : Touch ip v l w)
    (below : ∀ a, l = some a → a < top) (start : v.dataStart ≤ top) :
    ∀ z ∈ w.logged, z ∈ v.logged ∨ z < top := by
  obtain ⟨owned, coherent, held⟩ := h
  intro z hz
  cases t with
  | addr next zero =>
    have hz := mem_alloc_logged.mp hz
    have := bblock_lt next.size
    have := below _ rfl
    obtain e | e | hz := hz
    · exact .inr (by omega)
    · exact .inr (by omega)
    · exact .inl hz
  | @entry a x j p next hp place parent zero =>
    have hz := (Finset.mem_insert.mp hz).imp_right mem_alloc_logged.mp
    have := bblock_lt next.size
    have := below _ rfl
    have := (owned.mapped _ x (node_of_val coherent held hp parent)).2.1
    obtain e | e | e | hz := hz
    · exact .inr (by omega)
    · exact .inr (by omega)
    · exact .inr (by omega)
    · exact .inl hz
  | @data b bn d hb =>
    have := (owned.mapped _ b (node_of_val coherent held (leaf_ne_nil bn) hb)).2.1
    obtain e | hz := Finset.mem_insert.mp hz
    · exact .inr (by omega)
    · exact .inl hz

/-! ## Changes of inodes -/

/-- The inodes name blocks they had before, and what is in the tree stays used. -/
theorem Owned.of_blocks (h : v.Owned top) (hsb : w.sb = v.sb)
    (hdata : ∀ z, v.dataStart ≤ z → w.data z = v.data z)
    (inode : ∀ i k, (w.vol.inode i).type ≠ 0 → (w.vol.inode i).addrs k ≠ 0 →
      (v.vol.inode i).type ≠ 0 ∧ (v.vol.inode i).addrs k = (w.vol.inode i).addrs k)
    (used : ∀ q b, w.vol.node q = some (.block b) → w.used b = true)
    (low : ∀ b ∈ w.free, v.dataStart ≤ b) : w.Owned top := by
  have start : w.dataStart = v.dataStart := by rw [dataStart, dataStart, hsb]
  have blocks := Volume.block_of_block (v := v.vol) (w := w.vol)
    (fun q b hq => hdata b (h.mapped q b hq).1) inode
  refine ⟨hsb ▸ h.top_le, ?_, ?_, by rwa [start]⟩
  · refine Volume.separate_of_blocks ?_
    intro q r b hq hr
    exact h.separate q r _ (blocks q b hq) (blocks r b hr)
  · intro q b hq
    obtain ⟨le, lt, _⟩ := h.mapped q b (blocks q b hq)
    rw [start]
    exact ⟨le, lt, used q b hq⟩

/-- The bitmap is behind the inodes. -/
theorem used_congr (hsb : w.sb = v.sb)
    (hdata : ∀ z, v.sb.ninodes / ipb + 3 ≤ z → w.data z = v.data z) (b : Nat) :
    w.used b = v.used b := by
  rw [used, used, hsb, hdata _ (le_bblock ..)]

theorem free_congr (hsb : w.sb = v.sb)
    (hdata : ∀ z, v.sb.ninodes / ipb + 3 ≤ z → w.data z = v.data z) : w.free = v.free := by
  rw [free, free, hsb]
  refine List.filter_congr ?_
  intro b _
  rw [used_congr hsb hdata]

/-- Only inodes change, and they name blocks they had before. -/
theorem Owned.shrink (h : v.Owned top) (hsb : w.sb = v.sb)
    (hdata : ∀ z, v.sb.ninodes / ipb + 3 ≤ z → w.data z = v.data z)
    (inode : ∀ i k, (w.vol.inode i).type ≠ 0 → (w.vol.inode i).addrs k ≠ 0 →
      (v.vol.inode i).type ≠ 0 ∧ (v.vol.inode i).addrs k = (w.vol.inode i).addrs k) :
    w.Owned top := by
  have behind : ∀ z, v.dataStart ≤ z → w.data z = v.data z := by
    intro z hz
    exact hdata z ((Nat.le_add_right ..).trans hz)
  have blocks := Volume.block_of_block (v := v.vol) (w := w.vol)
    (fun q b hq => behind b (h.mapped q b hq).1) inode
  refine h.of_blocks hsb behind inode ?_ (by rw [free_congr hsb hdata]; exact h.low)
  intro q b hq
  rw [used_congr hsb hdata]
  exact (h.mapped q b (blocks q b hq)).2.2

theorem vol_store (h : v.Coherent) (held : v.Held ip)
    (same : SameSlot (v.icache ip) (f (v.icache ip))) (i : Nat) :
    (v.store ip f).vol.inode i =
      if i = (v.icache ip).inum then (f (v.icache ip)).toDinode else v.vol.inode i := by
  simp only [vol, store_sb same, store_current same h held]
  by_cases e : i = (v.icache ip).inum
  · rw [if_pos e, if_pos e, if_pos (e ▸ h.inum ip held.ref)]
  · rw [if_neg e, if_neg e]

theorem Coherent.store (h : v.Coherent) (held : v.Held ip)
    (same : SameSlot (v.icache ip) (f (v.icache ip))) (fits : (f (v.icache ip)).toDinode.Fits)
    (type : (f (v.icache ip)).type ≠ 0) : (v.store ip f).Coherent := by
  refine h.update ip (store_sb same) (fun _ ne => store_icache_other ne) ?_ ?_ ?_ ?_
  · intro ip' ne href
    refine store_dnode_other same ?_
    intro e
    exact ne (h.uniq ip' ip href held.ref e)
  · rw [store_icache, same.ref]
    exact h.nonneg ip
  · intro _
    rw [store_icache, same.inum]
    refine ⟨h.inum ip held.ref, ?_⟩
    intro ip' ne href e
    exact ne (h.uniq ip' ip href held.ref e)
  · intro _
    rw [store_icache]
    refine ⟨fits, type, ?_⟩
    rw [same.inum, store_dnode_self same fits]
    exact .refl _

/-- The fields of an inode other than its addresses change. -/
theorem InUse.store (h : v.InUse top ip)
    (same : SameSlot (v.icache ip) (f (v.icache ip))) (fits : (f (v.icache ip)).toDinode.Fits)
    (type : (f (v.icache ip)).type ≠ 0) (addrs : (f (v.icache ip)).addrs = (v.icache ip).addrs) :
    (v.store ip f).InUse top ip ∧ (v.store ip f).free = v.free ∧
      (v.store ip f).vol.content = v.vol.content ∧
        (v.store ip f).vol.node = v.vol.node := by
  obtain ⟨owned, coherent, held⟩ := h
  have sb := store_sb same
  have data : ∀ z, v.sb.ninodes / ipb + 3 ≤ z → (v.store ip f).data z = v.data z :=
    fun z => store_data_of_le same coherent held.ref
  have vol := vol_store coherent held same
  have old := coherent.vol_inode held
  have typeOld := coherent.type ip held.ref held.valid
  have held' : (v.store ip f).Held ip := by
    refine ⟨?_, ?_⟩
    · rw [store_icache, same.ref]
      exact held.ref
    · rw [store_icache, same.valid]
      exact held.valid
  have blocks : ∀ q b, v.vol.node q = some (.block b) → (v.store ip f).data b = v.data b := by
    intro q b hq
    exact data b ((Nat.le_add_right ..).trans (owned.mapped q b hq).1)
  have node : (v.store ip f).vol.node = v.vol.node := by
    refine Volume.node_congr ?_
    intro q k x _ hx
    cases x with
    | root =>
      rw [Volume.kid, Volume.kid, vol]
      by_cases e : k = (v.icache ip).inum
      · rw [if_pos e, e, old, if_neg type, if_neg typeOld]
      · rw [if_neg e]
    | inode i =>
      rw [Volume.kid, Volume.kid, vol]
      by_cases e : i = (v.icache ip).inum
      · rw [if_pos e, e, old, addrs]
      · rw [if_neg e]
    | block b =>
      rw [Volume.kid, Volume.kid]
      have : (v.store ip f).vol.data b = v.vol.data b := blocks q b hx
      rw [this]
  refine ⟨⟨?_, coherent.store held same fits type, held'⟩, free_congr sb data, ?_, node⟩
  · refine owned.shrink sb data ?_
    intro i k
    rw [vol]
    by_cases e : i = (v.icache ip).inum
    · rw [if_pos e, e, old, addrs]
      exact fun _ _ => ⟨typeOld, rfl⟩
    · rw [if_neg e]
      exact fun h _ => ⟨h, rfl⟩
  · funext i off
    exact Volume.content_congr (by rw [node]) (blocks _)

/-! ## Runs of steps -/

open Runs

/-- What a run of steps does whose blocks lie below `top`. -/
structure Run (ip : InodePtr) (top : Nat) (v : View) (ls : List (Option Nat)) (w : View) :
    Prop where
  inUse : w.InUse top ip
  touched : Touched ip v w
  free : v.free = ls.reduceOption ++ w.free
  node : ∀ q x, v.vol.node q = some x → w.vol.node q = some x
  logged : v.dataStart ≤ top → ∀ z ∈ w.logged, z ∈ v.logged ∨ z < top
  content : none ∉ ls → w.vol.content = v.vol.content

theorem Run.nil (h : v.InUse top ip) : Run ip top v [] v :=
  ⟨h, .refl ip v, rfl, fun _ _ => id, fun _ _ => .inl, fun _ => rfl⟩

theorem Run.snoc {u : View} (h : Run ip top v ls w)
    (t : Touch ip w l u) (below : ∀ a, l = some a → a < top) : Run ip top v (ls ++ [l]) u := by
  have logged : v.dataStart ≤ top → ∀ z ∈ u.logged, z ∈ v.logged ∨ z < top := by
    intro start z hz
    have start' : w.dataStart ≤ top := by
      rw [dataStart, h.touched.sb]
      exact start
    obtain hz | hz := t.logged h.inUse below start' z hz
    · exact h.logged start z hz
    · exact .inr hz
  cases l with
  | some a =>
    obtain ⟨inUse, touched, free, content, p, _, absent, node⟩ :=
      t.alloc h.inUse (below a rfl)
    refine ⟨inUse, h.touched.trans touched, ?_, ?_, logged, ?_⟩
    · rw [h.free, free]
      simp [List.reduceOption_append]
    · intro q x hq
      have hq := h.node q x hq
      have ne : q ≠ (w.icache ip).inum :: p := by
        rintro rfl
        rw [absent] at hq
        cases hq
      rw [node, Function.update_of_ne ne, hq]
    · intro all
      rw [content, h.content fun mem => all (List.mem_append_left _ mem)]
  | none =>
    cases t with
    | data d hb =>
      obtain ⟨inUse, touched, free, node, _⟩ := Touch.data_spec (d := d) h.inUse hb
      refine ⟨inUse, h.touched.trans touched, ?_, ?_, logged, ?_⟩
      · rw [h.free, free]
        simp [List.reduceOption_append]
      · intro q x hq
        rw [node]
        exact h.node q x hq
      · intro all
        exact absurd (List.mem_append_right _ List.mem_cons_self) all

theorem Run.of_steps (h : v.InUse top ip) (run : Steps (Touch ip) v ls w)
    (below : ∀ a, some a ∈ ls → a < top) : Run ip top v ls w := by
  induction run with
  | nil => exact .nil h
  | snoc _ step ih =>
    refine (ih fun a ha => below a (List.mem_append_left _ ha)).snoc step ?_
    rintro a rfl
    exact below a (List.mem_append_right _ List.mem_cons_self)

/-- A step takes a block below the size of the disk. -/
theorem Touch.lt_size (t : Touch ip v l w) (ha : l = some a) : a < v.sb.size := by
  cases t with
  | addr next _ | entry next _ _ _ _ =>
    cases ha
    exact next.size
  | data _ _ => cases ha

/-- The blocks taken are the first free ones, as many as places were missing. -/
theorem taken_of_steps {ps : List (List Nat)} {lv : Finset (List Nat)}
    (h : v.InUse top ip) (run : Steps (Touch ip) v ls w) (written : v.Written ip ps lv w) :
    ls.reduceOption = Demand.taken (v.blocks ip) ps := by
  have all : Run ip v.sb.size v ls w := by
    have inUse : v.InUse v.sb.size ip :=
      ⟨h.owned.mono h.owned.top_le le_rfl, h.coherent, h.held⟩
    clear written h
    induction run with
    | nil => exact .nil inUse
    | snoc _ step ih =>
      refine ih.snoc step ?_
      intro a ha
      rw [← ih.touched.sb]
      exact step.lt_size ha
  have supply := (Demand.supply_eq written.steps).1
  have free : v.free = ls.reduceOption ++ w.free := all.free
  exact List.append_cancel_right (free.symm.trans supply)

/-- A run of steps whose blocks are known before. -/
theorem Run.of_written {ps : List (List Nat)} {lv : Finset (List Nat)}
    (h : v.InUse top ip) (run : Steps (Touch ip) v ls w) (written : v.Written ip ps lv w)
    (below : ∀ a ∈ Demand.taken (v.blocks ip) ps, a < top) : Run ip top v ls w := by
  refine .of_steps h run ?_
  intro a ha
  rw [← taken_of_steps h run written] at below
  exact below a (List.reduceOption_mem_iff.mpr ha)

end View

end Xv6Gui
