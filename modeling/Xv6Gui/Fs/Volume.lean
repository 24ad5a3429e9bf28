import Xv6Gui.Fs.BlockMap

/-!
# The files of a disk

The inodes of a disk with their block maps are one tree.  Below the root are the
inodes that are allocated, below an inode the blocks of its map.  A position is a
list: the number of an inode, and then a place of its map.  A block is reachable
from a position if it is the node there.

A missing position is filled by storing the number of a block in the inode or the
index block above it (`link`).  If the block was zeroed and is not in the tree, this
changes the tree at that position only, and it changes no byte of any file.
Likewise a store to a block with data (`put`) changes no node.
-/

namespace Xv6Gui

open Function (update update_of_ne update_self)

/-! ## Positions and nodes -/

/-- A node of the tree of blocks. -/
inductive FsNode where
  | root
  | inode (inum : Nat)
  | block (b : Nat)
  deriving DecidableEq

/-- The lists that are positions of the tree. -/
def Position : List Nat → Prop
  | [] => True
  | _ :: p => Place p

instance : DecidablePred Position
  | [] => .isTrue trivial
  | _ :: p => inferInstanceAs (Decidable (Place p))

theorem position_closed : Trie.Closed Position := by
  intro q j h
  match q with
  | [] => exact trivial
  | _ :: p => exact place_closed p j h

/-- The blocks of a disk and its inodes.  An inode with type zero is free. -/
structure Volume where
  data : Nat → Block
  inode : Nat → Dinode

namespace Volume

/-- The node below a node. -/
def kid (v : Volume) : FsNode → Nat → Option FsNode
  | .root, i => if (v.inode i).type = 0 then none else some (.inode i)
  | .inode i, k =>
    if h : k < ndirect + 2 then (pointer ((v.inode i).addrs ⟨k, h⟩)).map .block else none
  | .block b, k => (pointer ((v.data b).word k)).map .block

/-- The node at a position. -/
def node (v : Volume) (q : List Nat) : Option FsNode :=
  if Position q then Trie.walk v.kid .root q else none

/-- No node is at two positions. -/
def Separate (v : Volume) : Prop := ∀ q r x, v.node q = some x → v.node r = some x → q = r

variable {v w : Volume} {q r : List Nat} {x y : FsNode} {i j k a b : Nat}

theorem node_of_position (h : Position q) : v.node q = Trie.walk v.kid .root q := if_pos h

theorem position_of_node (h : v.node q = some x) : Position q := by
  by_contra no
  rw [node, if_neg no] at h
  cases h

theorem node_nil : v.node [] = some .root := rfl

theorem node_snoc (h : Position (q ++ [k])) :
    v.node (q ++ [k]) = (v.node q).bind fun x => v.kid x k := by
  rw [node_of_position h, Trie.walk_snoc, node_of_position (position_closed q k h)]

/-- Below the inodes there are only blocks. -/
theorem kid_cases (h : v.kid x k = some y) :
    (x = .root ∧ y = .inode k ∧ (v.inode k).type ≠ 0) ∨ (x ≠ .root ∧ ∃ b, y = .block b) := by
  cases x with
  | root =>
    rw [kid] at h
    split at h
    · cases h
    · rename_i type
      exact .inl ⟨rfl, (Option.some.inj h).symm, type⟩
  | inode i =>
    rw [kid] at h
    split at h
    · obtain ⟨b, _, rfl⟩ := Option.map_eq_some_iff.mp h
      exact .inr ⟨nofun, b, rfl⟩
    · cases h
  | block b =>
    obtain ⟨c, _, rfl⟩ := Option.map_eq_some_iff.mp h
    exact .inr ⟨nofun, c, rfl⟩

/-- Where the nodes of each kind are. -/
theorem node_cases (h : v.node q = some x) :
    (q = [] ∧ x = .root) ∨ (∃ i, q = [i] ∧ x = .inode i ∧ (v.inode i).type ≠ 0) ∨
      ∃ i p b, q = i :: p ∧ p ≠ [] ∧ x = .block b := by
  induction q using List.reverseRecOn generalizing x with
  | nil =>
    cases h
    exact .inl ⟨rfl, rfl⟩
  | append_singleton q k ih =>
    have position := position_of_node h
    rw [node_snoc position, Option.bind_eq_some_iff] at h
    obtain ⟨z, hz, h⟩ := h
    obtain ⟨rfl, rfl, type⟩ | ⟨ne, b, rfl⟩ := kid_cases h
    · obtain ⟨rfl, _⟩ | ⟨i, _, e, _⟩ | ⟨_, _, _, _, _, e⟩ := ih hz
      · exact .inr (.inl ⟨k, rfl, rfl, type⟩)
      · cases e
      · cases e
    · obtain ⟨rfl, rfl⟩ | ⟨i, rfl, _⟩ | ⟨i, p, c, rfl, _, _⟩ := ih hz
      · exact absurd rfl ne
      · exact .inr (.inr ⟨i, [k], b, rfl, by simp, rfl⟩)
      · exact .inr (.inr ⟨i, p ++ [k], b, rfl, by simp, rfl⟩)

theorem node_inode : v.node [i] = some (.inode i) ↔ (v.inode i).type ≠ 0 := by
  have one : v.node [i] = v.kid .root i := by
    rw [node_of_position (q := [i]) trivial]
    exact Trie.walk_snoc [] i
  rw [one, kid]
  split <;> simp_all

/-- The inode above a position is allocated. -/
theorem type_of_node {p : List Nat} (h : v.node (i :: p) = some x) : (v.inode i).type ≠ 0 := by
  induction p using List.reverseRecOn generalizing x with
  | nil =>
    obtain ⟨e, _⟩ | ⟨j, e, _, type⟩ | ⟨_, p, _, e, ne, _⟩ := node_cases h
    · cases e
    · cases e
      exact type
    · cases e
      exact absurd rfl ne
  | append_singleton p k ih =>
    have position : Position (i :: p ++ [k]) := position_of_node h
    have above := node_snoc (v := v) position
    rw [show i :: p ++ [k] = i :: (p ++ [k]) from rfl, h] at above
    obtain ⟨z, hz, _⟩ := Runs.bind_some.mp above.symm
    exact ih hz

theorem pointer_eq_some {addr : Nat} : pointer addr = some b ↔ addr = b ∧ b ≠ 0 := by
  rw [pointer]
  split
  · rename_i zero
    simp only [zero, reduceCtorEq, false_iff]
    rintro ⟨rfl, ne⟩
    exact ne rfl
  · rename_i ne
    rw [Option.some_inj]
    constructor
    · rintro rfl
      exact ⟨rfl, ne⟩
    · exact And.left

/-- The blocks in an inode. -/
theorem node_addr {k : Fin (ndirect + 2)} :
    v.node [i, k.val] = some (.block b) ↔
      (v.inode i).type ≠ 0 ∧ (v.inode i).addrs k = b ∧ b ≠ 0 := by
  have position : Position ([i] ++ [k.val]) := k.isLt
  have split : v.node [i, k.val] = (v.node [i]).bind fun x => v.kid x k.val := node_snoc position
  have kid : v.kid (.inode i) k.val = some (.block b) ↔ (v.inode i).addrs k = b ∧ b ≠ 0 := by
    rw [Volume.kid, dif_pos k.isLt, ← pointer_eq_some]
    constructor
    · intro h
      obtain ⟨c, hc, e⟩ := Option.map_eq_some_iff.mp h
      cases e
      exact hc
    · intro h
      rw [h]
      rfl
  rw [split]
  constructor
  · intro h
    obtain ⟨x, hx, hk⟩ := Runs.bind_some.mp h
    have type := type_of_node hx
    rw [node_inode.mpr type] at hx
    cases hx
    exact ⟨type, kid.mp hk⟩
  · rintro ⟨type, h⟩
    rw [node_inode.mpr type]
    exact kid.mpr h

/-- The blocks in an index block. -/
theorem node_entry {p : List Nat} {c : Nat} (parent : v.node (i :: p) = some (.block c))
    (position : Position (i :: p ++ [k])) :
    v.node (i :: p ++ [k]) = some (.block b) ↔ (v.data c).word k = b ∧ b ≠ 0 := by
  rw [node_snoc position, parent, Option.bind_some, kid, ← pointer_eq_some]
  constructor
  · intro h
    obtain ⟨c, hc, e⟩ := Option.map_eq_some_iff.mp h
    cases e
    exact hc
  · intro h
    rw [h]
    rfl

/-- Above a node there are nodes. -/
theorem node_of_append (h : v.node (q ++ r) = some x) : ∃ y, v.node q = some y := by
  induction r using List.reverseRecOn generalizing x with
  | nil =>
    rw [List.append_nil] at h
    exact ⟨x, h⟩
  | append_singleton r k ih =>
    rw [← List.append_assoc] at h
    rw [node_snoc (position_of_node h)] at h
    obtain ⟨y, hy, _⟩ := Runs.bind_some.mp h
    exact ih hy

/-- Above a block that is not in an inode there is an index block. -/
theorem node_above {p : List Nat} (hp : p ≠ []) (h : v.node (i :: p ++ [k]) = some x) :
    ∃ c, v.node (i :: p) = some (.block c) := by
  rw [node_snoc (position_of_node h)] at h
  obtain ⟨y, hy, _⟩ := Runs.bind_some.mp h
  obtain ⟨e, _⟩ | ⟨_, e, _⟩ | ⟨_, _, c, _, _, rfl⟩ := node_cases hy
  · cases e
  · exact absurd (List.cons.inj e).2 hp
  · exact ⟨c, hy⟩

/-- It is enough to look at blocks. -/
theorem separate_of_blocks
    (h : ∀ q r b, v.node q = some (.block b) → v.node r = some (.block b) → q = r) :
    v.Separate := by
  intro q r x hq hr
  cases x with
  | root =>
    obtain ⟨rfl, _⟩ | ⟨_, _, e, _⟩ | ⟨_, _, _, _, _, e⟩ := node_cases hq
    · obtain ⟨rfl, _⟩ | ⟨_, _, e, _⟩ | ⟨_, _, _, _, _, e⟩ := node_cases hr
      · rfl
      · cases e
      · cases e
    · cases e
    · cases e
  | inode i =>
    obtain ⟨_, e⟩ | ⟨_, rfl, e, _⟩ | ⟨_, _, _, _, _, e⟩ := node_cases hq
    · cases e
    · obtain ⟨_, e'⟩ | ⟨_, rfl, e', _⟩ | ⟨_, _, _, _, _, e'⟩ := node_cases hr
      · cases e'
      · cases e
        cases e'
        rfl
      · cases e'
    · cases e
  | block b => exact h q r b hq hr

/-- Only the nodes above a position matter. -/
theorem node_congr
    (same : ∀ q k x, Position (q ++ [k]) → v.node q = some x → w.kid x k = v.kid x k) :
    w.node = v.node := by
  funext q
  by_cases hq : Position q
  · rw [node_of_position hq, node_of_position hq]
    refine Trie.walk_congr position_closed ?_ q hq
    intro r k x hr hx
    exact same r k x hr ((node_of_position (position_closed r k hr)).trans hx)
  · rw [node, node, if_neg hq, if_neg hq]

/-! ## Filling a position -/

/-- Store an address at a node. -/
def link (v : Volume) : FsNode → Nat → Nat → Volume
  | .root, _, _ => v
  | .inode i, k, a =>
    let addrs := fun l => if l.val = k then a else (v.inode i).addrs l
    { v with inode := update v.inode i { v.inode i with addrs := addrs } }
  | .block b, k, a => { v with data := update v.data b ((v.data b).setWord k a) }

/-- Whether a node has room for an entry. -/
def HasEntry : FsNode → Nat → Prop
  | .root, _ => False
  | .inode _, k => k < ndirect + 2
  | .block _, k => k < nindirect

theorem kid_link_self (hx : HasEntry x k) (ha : a ≠ 0) (small : a < 2 ^ 32) :
    (v.link x k a).kid x k = some (.block a) := by
  cases x with
  | root => cases hx
  | inode i =>
    have inside : k < ndirect + 2 := hx
    rw [link, kid, dif_pos inside]
    simp only [update_self, if_true, pointer_of_ne ha, Option.map_some]
  | block b =>
    have inside : 4 * k + 3 < bsize := by
      have : k < 128 := hx
      have : bsize = 512 := rfl
      omega
    rw [link, kid]
    simp only [update_self, Block.word_setWord_self inside, Nat.mod_eq_of_lt small,
      pointer_of_ne ha, Option.map_some]

theorem kid_link_other {z : FsNode} {l : Nat} (ne : (z, l) ≠ (x, k)) :
    (v.link x k a).kid z l = v.kid z l := by
  cases x with
  | root => rfl
  | inode i =>
    cases z with
    | root =>
      have type : ((v.link (.inode i) k a).inode l).type = (v.inode l).type := by
        by_cases e : l = i
        · simp only [link, e, update_self]
        · simp only [link, update_of_ne e]
      rw [kid, kid, type]
    | inode j =>
      rw [link, kid, kid]
      by_cases e : j = i
      · have other : l ≠ k := fun e' => ne (by rw [e, e'])
        simp only [e, update_self, if_neg other]
      · simp only [update_of_ne e]
    | block b => rfl
  | block b =>
    cases z with
    | root | inode j => rfl
    | block c =>
      rw [link, kid, kid]
      by_cases e : c = b
      · have other : l ≠ k := fun e' => ne (by rw [e, e'])
        simp only [e, update_self, Block.word_setWord_of_ne other]
      · simp only [update_of_ne e]

/-- Positions below a node are within its entries. -/
theorem hasEntry_of_node (h : v.node q = some x) (ne : q ≠ []) (position : Position (q ++ [k])) :
    HasEntry x k := by
  obtain ⟨e, _⟩ | ⟨i, rfl, rfl, _⟩ | ⟨i, p, b, rfl, hp, rfl⟩ := node_cases h
  · exact absurd e ne
  · exact position
  · exact place_index hp position

/-- A block that is not in the tree and holds no entries is put at a missing
position. -/
theorem node_link (sep : v.Separate) (ne : q ≠ []) (position : Position (q ++ [k]))
    (parent : v.node q = some x) (missing : v.kid x k = none)
    (fresh : ∀ r, v.node r ≠ some (.block a)) (zero : v.data a = .zero) (ha : a ≠ 0)
    (small : a < 2 ^ 32) :
    (v.link x k a).node = update v.node (q ++ [k]) (some (.block a)) := by
  have new := kid_link_self (v := v) (hasEntry_of_node parent ne position) ha small
  have apart : x ≠ .block a := fun e => fresh q (e ▸ parent)
  have walk : Trie.walk v.kid .root q = some x :=
    (node_of_position (position_closed q k position)).symm.trans parent
  have empty : ∀ l, (v.link x k a).kid (.block a) l = none := by
    intro l
    rw [kid_link_other (fun e => apart (congrArg Prod.fst e).symm), kid, zero, Block.word_zero]
    rfl
  funext r
  by_cases hr : Position r
  · have grown := Trie.walk_grow position_closed walk missing new (fun l _ => empty l)
      (fun r' l z hr' hz other => kid_link_other fun e => other ?_) r hr
    · rw [node_of_position hr, grown]
      by_cases e : r = q ++ [k]
      · rw [e, update_self, update_self]
      · rw [update_of_ne e, update_of_ne e, node_of_position hr]
    · obtain ⟨rfl, rfl⟩ := Prod.mk.inj e
      have node : v.node r' = some z := (node_of_position (position_closed r' l hr')).trans hz
      rw [sep r' q z node parent]
  · have e : r ≠ q ++ [k] := fun e => hr (e ▸ position)
    rw [update_of_ne e, node, node, if_neg hr, if_neg hr]

/-- A fresh node at a missing position keeps the nodes apart. -/
theorem Separate.update (sep : v.Separate) (fresh : ∀ r, v.node r ≠ some y)
    (h : w.node = update v.node q (some y)) : w.Separate := by
  have new : ∀ r, w.node r = some y → r = q := by
    intro r hr
    by_contra e
    rw [h, update_of_ne e] at hr
    exact fresh r hr
  intro r r' x hr hr'
  by_cases e : r = q
  · have hx : x = y := by
      rw [e, h, update_self] at hr
      exact (Option.some.inj hr).symm
    rw [e, new r' (hx ▸ hr')]
  · by_cases e' : r' = q
    · have hx : x = y := by
        rw [e', h, update_self] at hr'
        exact (Option.some.inj hr').symm
      exact absurd (new r (hx ▸ hr)) e
    · rw [h, update_of_ne e] at hr
      rw [h, update_of_ne e'] at hr'
      exact sep r r' x hr hr'

/-- With fewer nodes they are still apart. -/
theorem Separate.mono (sep : v.Separate) (h : ∀ q x, w.node q = some x → v.node q = some x) :
    w.Separate := by
  intro q r x hq hr
  exact sep q r x (h q x hq) (h r x hr)

/-! ## The bytes of a file -/

/-- A byte of a file.  Where a block is missing the bytes are zero. -/
def content (v : Volume) (i off : Nat) : UInt8 :=
  match v.node (i :: leaf (off / bsize)) with
  | some (.block b) => v.data b ⟨off % bsize, Nat.mod_lt _ (by decide)⟩
  | _ => 0

theorem content_of_block {o : Nat} (h : v.node (i :: leaf (o / bsize)) = some (.block b)) :
    v.content i o = v.data b ⟨o % bsize, Nat.mod_lt _ (by decide)⟩ := by
  rw [content, h]

theorem content_of_none {o : Nat} (h : v.node (i :: leaf (o / bsize)) = none) :
    v.content i o = 0 := by
  rw [content, h]

/-- The bytes depend on the nodes of the blocks with data, and on these blocks. -/
theorem content_congr {off : Nat}
    (node : w.node (i :: leaf (off / bsize)) = v.node (i :: leaf (off / bsize)))
    (data : ∀ b, v.node (i :: leaf (off / bsize)) = some (.block b) → w.data b = v.data b) :
    w.content i off = v.content i off := by
  rw [content, content, node]
  split
  · rename_i b hb
    rw [data b hb]
  · rfl

/-- To fill a position changes no byte. -/
theorem content_link (sep : v.Separate) (ne : q ≠ []) (position : Position (q ++ [k]))
    (parent : v.node q = some x) (missing : v.kid x k = none)
    (fresh : ∀ r, v.node r ≠ some (.block a)) (zero : v.data a = .zero) (ha : a ≠ 0)
    (small : a < 2 ^ 32) : (v.link x k a).content = v.content := by
  have node := node_link sep ne position parent missing fresh zero ha small
  have absent : v.node (q ++ [k]) = none := by
    rw [node_snoc position, parent]
    exact missing
  have data : ∀ b, x ≠ .block b → (v.link x k a).data b = v.data b := by
    intro b hb
    cases x with
    | root | inode i => rfl
    | block c =>
      have e : b ≠ c := fun e => hb (by rw [e])
      exact update_of_ne e ..
  funext i off
  by_cases e : i :: leaf (off / bsize) = q ++ [k]
  · have apart : x ≠ .block a := fun e => fresh q (e ▸ parent)
    have here : (v.link x k a).node (i :: leaf (off / bsize)) = some (.block a) := by
      rw [e, node, update_self]
    rw [content_of_block here, data a apart, zero, content_of_none (e ▸ absent)]
    rfl
  · refine content_congr (by rw [node, update_of_ne e]) ?_
    intro b hb
    refine data b ?_
    rintro rfl
    have same := sep q _ _ parent hb
    rw [same] at position
    exact leaf_bottom _ k position

/-! ## Storing data -/

/-- Store a block. -/
def put (v : Volume) (b : Nat) (d : Block) : Volume := { v with data := update v.data b d }

/-- A store to a block with data changes no node. -/
theorem node_put {bn : Nat} (sep : v.Separate) (h : v.node (i :: leaf bn) = some (.block b))
    (d : Block) : (v.put b d).node = v.node := by
  refine node_congr ?_
  intro r k x position hx
  cases x with
  | root | inode j => rfl
  | block c =>
    have e : c ≠ b := by
      rintro rfl
      rw [sep r _ _ hx h] at position
      exact leaf_bottom bn k position
    rw [put, kid, kid]
    simp only [update_of_ne e]

/-- A store to a block with data changes the bytes of this block of its file. -/
theorem content_put {bn : Nat} (sep : v.Separate) (h : v.node (i :: leaf bn) = some (.block b))
    (d : Block) (off : Nat) :
    (v.put b d).content j off =
      if j = i ∧ off / bsize = bn then d ⟨off % bsize, Nat.mod_lt _ (by decide)⟩
      else v.content j off := by
  have node := node_put sep h d
  split
  · rename_i here
    obtain ⟨rfl, rfl⟩ := here
    have same : (v.put b d).node (j :: leaf (off / bsize)) = some (.block b) := by rw [node, h]
    rw [content_of_block same]
    exact congrFun (update_self ..) _
  · rename_i other
    refine content_congr (by rw [node]) ?_
    intro c hc
    refine update_of_ne ?_ ..
    rintro rfl
    have same := sep _ _ _ hc h
    simp only [List.cons.injEq] at same
    exact other ⟨same.1, leaf_inj same.2⟩

/-! ## Changing inodes -/

/-- Where the inodes name no new blocks, there are no new blocks in the tree. -/
theorem block_of_block (data : ∀ q b, v.node q = some (.block b) → w.data b = v.data b)
    (inode : ∀ i k, (w.inode i).type ≠ 0 → (w.inode i).addrs k ≠ 0 →
      (v.inode i).type ≠ 0 ∧ (v.inode i).addrs k = (w.inode i).addrs k) :
    ∀ q b, w.node q = some (.block b) → v.node q = some (.block b) := by
  intro q
  induction q using List.reverseRecOn with
  | nil =>
    intro b h
    cases h
  | append_singleton q k ih =>
    intro b h
    have position := position_of_node h
    rw [node_snoc position, Option.bind_eq_some_iff] at h
    obtain ⟨x, hx, hk⟩ := h
    rw [node_snoc position]
    cases x with
    | root =>
      obtain ⟨_, e, _⟩ | ⟨ne, _⟩ := kid_cases hk
      · cases e
      · exact absurd rfl ne
    | inode i =>
      obtain ⟨_, e⟩ | ⟨j, rfl, e, type⟩ | ⟨_, _, _, _, _, e⟩ := node_cases hx
      · cases e
      · cases e
        rw [kid] at hk
        split at hk
        · rename_i inside
          obtain ⟨c, hc, e⟩ := Option.map_eq_some_iff.mp hk
          have ne : (w.inode i).addrs ⟨k, inside⟩ ≠ 0 := by
            intro zero
            rw [pointer_eq_none.mpr zero] at hc
            cases hc
          obtain ⟨type', same⟩ := inode i ⟨k, inside⟩ type ne
          rw [node_inode.mpr type', Option.bind_some, kid, dif_pos inside, same, hc]
          exact congrArg some e
        · cases hk
      · cases e
    | block c =>
      have above := ih c hx
      rw [above, Option.bind_some, ← hk, kid, kid, data q c above]

/-- The tree below an inode is given by the inode and the blocks in it. -/
theorem node_file_congr (type : (w.inode i).type = (v.inode i).type)
    (addrs : (w.inode i).addrs = (v.inode i).addrs)
    (data : ∀ p b, v.node (i :: p) = some (.block b) → w.data b = v.data b) (p : List Nat) :
    w.node (i :: p) = v.node (i :: p) := by
  induction p using List.reverseRecOn with
  | nil =>
    by_cases zero : (v.inode i).type = 0
    · have none : ∀ u : Volume, (u.inode i).type = 0 → u.node [i] = none := by
        intro u hu
        cases h : u.node [i] with
        | none => rfl
        | some x => exact absurd hu (type_of_node h)
      rw [none v zero, none w (type.trans zero)]
    · rw [node_inode.mpr zero, node_inode.mpr (by rwa [type])]
  | append_singleton p k ih =>
    by_cases position : Position (i :: p ++ [k])
    · rw [← List.cons_append, node_snoc position, node_snoc position, ih]
      cases hx : v.node (i :: p) with
      | none => rfl
      | some x =>
        show w.kid x k = v.kid x k
        cases x with
        | root =>
          obtain ⟨e, _⟩ | ⟨_, _, e, _⟩ | ⟨_, _, _, _, _, e⟩ := node_cases hx
          · cases e
          · cases e
          · cases e
        | inode j =>
          obtain ⟨e, _⟩ | ⟨_, e, e', _⟩ | ⟨_, _, _, _, _, e⟩ := node_cases hx
          · cases e
          · cases e
            cases e'
            rw [kid, kid, addrs]
          · cases e
        | block b => rw [kid, kid, data p b hx]
    · have no : ¬ Position (i :: (p ++ [k])) := position
      rw [node, node, if_neg no, if_neg no]

theorem content_file_congr (type : (w.inode i).type = (v.inode i).type)
    (addrs : (w.inode i).addrs = (v.inode i).addrs)
    (data : ∀ p b, v.node (i :: p) = some (.block b) → w.data b = v.data b) :
    w.content i = v.content i := by
  funext off
  exact content_congr (node_file_congr type addrs data _) (data _)

end Volume

end Xv6Gui
