import Xv6Gui.Fs.ByteArray
import Xv6Gui.Mkfs.Image

/-!
# Appending to a file of the image

`iappend` is written apart from the kernel, but it builds the same tree of blocks: for
each block of data it demands the places on the way to it (`Lib.Demand`), and a missing
one gets the next block.  The inode is changed in a local variable and written at the
end, so the tree is that of the image with this inode (`overlay`).
-/

namespace Xv6Gui

open Function (update update_idem update_of_ne update_self)

namespace Mkfs

open Effect Runs

/-- The first block behind the bitmap. -/
def firstBlock : Nat := ninodes / ipb + 3 + (size / (512 * 8) + 1)

/-! ## The tree of the image -/

/-- The blocks from `free` on are not in use. -/
structure Tree (V : Volume) (free : Nat) : Prop where
  separate : V.Separate
  range : ∀ q b, V.node q = some (.block b) → firstBlock ≤ b ∧ b < free
  zero : ∀ b, free ≤ b → V.data b = .zero
  start : firstBlock ≤ free
  small : free ≤ 2 ^ 32

variable {V W : Volume} {i k free free' : Nat} {q p : List Nat} {x : FsNode}

theorem Tree.fresh (h : Tree V free) (q : List Nat) : V.node q ≠ some (.block free) :=
  fun hq => absurd (h.range q free hq).2 (lt_irrefl _)

/-- A missing position gets the next block. -/
theorem Tree.link (h : Tree V free) (ne : q ≠ []) (position : Position (q ++ [k]))
    (parent : V.node q = some x) (missing : V.kid x k = none) (small : free < 2 ^ 32) :
    Tree (V.link x k free) (free + 1) ∧
      (V.link x k free).node = update V.node (q ++ [k]) (some (.block free)) ∧
        (V.link x k free).content = V.content := by
  have start : 0 < free := lt_of_lt_of_le (by decide) h.start
  have node := Volume.node_link h.separate ne position parent missing h.fresh (h.zero free le_rfl)
    start.ne' small
  refine ⟨⟨h.separate.update h.fresh node, ?_, ?_, h.start.trans (Nat.le_succ _), small⟩, node,
    Volume.content_link h.separate ne position parent missing h.fresh (h.zero free le_rfl)
      start.ne' small⟩
  · intro r b hr
    rw [node] at hr
    by_cases e : r = q ++ [k]
    · rw [e, update_self] at hr
      cases hr
      exact ⟨h.start, Nat.lt_succ_self _⟩
    · rw [update_of_ne e] at hr
      obtain ⟨low, high⟩ := h.range r b hr
      exact ⟨low, high.trans (Nat.lt_succ_self _)⟩
  · intro b hb
    cases x with
    | root | inode j => exact h.zero b (by omega)
    | block c =>
      have lt := (h.range q c parent).2
      exact (update_of_ne (by omega) ..).trans (h.zero b (by omega))

/-- Data is stored in a block of a file. -/
theorem Tree.put {bn b : Nat} (h : Tree V free) (node : V.node (i :: leaf bn) = some (.block b))
    (d : Block) : Tree (V.put b d) free := by
  have same := Volume.node_put h.separate node d
  refine ⟨h.separate.mono fun q x hq => same ▸ hq, fun q b hq => h.range q b (same ▸ hq), ?_,
    h.start, h.small⟩
  intro c hc
  have lt := (h.range _ b node).2
  exact (update_of_ne (by omega) ..).trans (h.zero c hc)

/-! ## Places on demand -/

/-- The map of a file, with the blocks that are not in use. -/
def demand (V : Volume) (i free : Nat) : Demand.State (List Nat) FsNode where
  val p := V.node (i :: p)
  supply := (List.range' free (2 ^ 32 - free)).map .block

/-- The places `ps` of a file have been demanded. -/
structure Extends (i : Nat) (ps : List (List Nat)) (V : Volume) (free : Nat) (W : Volume)
    (free' : Nat) : Prop where
  tree : Tree W free'
  content : W.content = V.content
  other : ∀ q, (∀ p, q ≠ i :: p) → W.node q = V.node q
  steps : Steps Demand.Step (demand V i free) ps (demand W i free')

namespace Extends

variable {ps : List (List Nat)}

theorem nil (h : Tree V free) : Extends i [] V free V free := ⟨h, rfl, fun _ _ => rfl, .nil⟩

theorem present (h : Extends i ps V free W free') (there : W.node (i :: p) ≠ none) :
    Extends i (ps ++ [p]) V free W free' :=
  ⟨h.tree, h.content, h.other, h.steps.snoc (.inl ⟨there, rfl⟩)⟩

theorem absent (h : Extends i ps V free W free') (position : Position (i :: p ++ [k]))
    (parent : W.node (i :: p) = some x) (missing : W.kid x k = none) (small : free' < 2 ^ 32) :
    Extends i (ps ++ [p ++ [k]]) V free (W.link x k free') (free' + 1) := by
  obtain ⟨tree, node, content⟩ := h.tree.link (by simp) position parent missing small
  have none : W.node (i :: (p ++ [k])) = none := by
    rw [← List.cons_append, Volume.node_snoc position, parent]
    exact missing
  refine ⟨tree, content.trans h.content, ?_, h.steps.snoc (.inr ⟨none, .block free', ?_, ?_⟩)⟩
  · intro q hq
    have apart : q ≠ i :: p ++ [k] := hq (p ++ [k])
    rw [node, update_of_ne apart, h.other q hq]
  · have more : 2 ^ 32 - free' = 2 ^ 32 - (free' + 1) + 1 := by omega
    rw [demand, demand, more, List.range'_succ, List.map_cons]
  · funext r
    by_cases e : r = p ++ [k]
    · rw [e, update_self, demand, node]
      exact update_self ..
    · rw [update_of_ne e, demand, demand, node]
      exact update_of_ne (fun e' => e (List.cons.inj e').2) ..

/-- The places that are there afterwards. -/
theorem none_iff (h : Extends i ps V free W free') (p : List Nat) :
    W.node (i :: p) = none ↔ V.node (i :: p) = none ∧ p ∉ ps :=
  Demand.val_none_iff h.steps p

/-- Each missing place takes a block. -/
theorem count (h : Extends i ps V free W free') (small : free ≤ 2 ^ 32) :
    free' = free + (Demand.missing (demand V i free) ps).card := by
  obtain ⟨supply, length⟩ := Demand.supply_eq h.steps
  have total := congrArg List.length supply
  rw [List.length_append, length] at total
  simp only [demand, List.length_map, List.length_range'] at total
  have := h.tree.small
  simp only [demand]
  omega

end Extends

/-! ## The places of a file -/

/-- The number of blocks with data in a file of `n` bytes. -/
def dataBlocks (n : Nat) : Nat := (n + (bsize - 1)) / bsize

/-- The blocks of a file with `n` blocks of data: these and the index blocks. -/
def mapBlocks (n : Nat) : Nat :=
  n + (if n ≤ ndirect then 0 else 1) +
    if n ≤ ndirect + nindirect then 0 else 1 + (n - ndirect - nindirect + (nindirect - 1)) / nindirect

/-- The places of a file with `n` blocks of data. -/
theorem mem_paths_range {n : Nat} : p ∈ paths (List.range n) ↔ ∃ bn < n, p ∈ path bn := by
  simp [paths]

theorem paths_succ (n : Nat) : paths (List.range (n + 1)) = paths (List.range n) ++ path n := by
  rw [List.range_succ, paths, paths, List.flatMap_append, List.flatMap_singleton]

theorem ne_nil_of_mem_path {bn : Nat} (h : p ∈ path bn) : p ≠ [] := by
  rw [path] at h
  split at h
  · simp_all
  · split at h
    · obtain rfl | rfl := by simpa using h
      · simp
      · simp
    · obtain rfl | rfl | rfl := by simpa using h
      · simp
      · simp
      · simp

/-- The first block of a file that needs a place. -/
def firstUse : List Nat → Nat
  | [k] => if k < ndirect then k else if k = ndirect then ndirect else ndirect + nindirect
  | [k, j] => if k = ndirect then ndirect + j else ndirect + nindirect + nindirect * j
  | [_, j, k] => ndirect + nindirect + nindirect * j + k
  | _ => 0

/-- A place on the way to a block is on the way to the first block that needs it, which
is not behind it. -/
theorem firstUse_path {bn : Nat} (h : p ∈ path bn) : firstUse p ≤ bn ∧ p ∈ path (firstUse p) := by
  have size : nindirect = 128 := rfl
  have direct : ndirect = 11 := rfl
  rw [path] at h
  split at h
  · rename_i small
    obtain rfl := List.mem_singleton.mp h
    have first : firstUse [bn] = bn := if_pos small
    rw [first, path, if_pos small]
    exact ⟨le_rfl, h⟩
  · rename_i big
    split at h
    · rename_i single
      obtain rfl | rfl := by simpa using h
      · exact ⟨by simp [firstUse]; omega, by simp [firstUse, path, nindirect, bsize]⟩
      · have first : firstUse [ndirect, bn - ndirect] = bn := by
          simp [firstUse]
          omega
        rw [first, path, if_neg big, if_pos single]
        exact ⟨le_rfl, h⟩
    · rename_i single
      obtain rfl | rfl | rfl := by simpa using h
      · exact ⟨by simp [firstUse]; omega, by decide⟩
      · have first : firstUse [ndirect + 1, (bn - ndirect - nindirect) / nindirect] =
            ndirect + nindirect + nindirect * ((bn - ndirect - nindirect) / nindirect) := by
          simp [firstUse]
        rw [first, path, if_neg (by omega), if_neg (by omega)]
        have index : (ndirect + nindirect + nindirect * ((bn - ndirect - nindirect) / nindirect) -
            ndirect - nindirect) / nindirect = (bn - ndirect - nindirect) / nindirect := by
          rw [size, direct]
          omega
        simp only [index]
        exact ⟨by rw [size, direct] at *; omega, by simp⟩
      · have first : firstUse [ndirect + 1, (bn - ndirect - nindirect) / nindirect,
            (bn - ndirect - nindirect) % nindirect] = bn := by
          simp only [firstUse, size, direct] at *
          omega
        rw [first, path, if_neg big, if_neg single]
        exact ⟨le_rfl, h⟩

/-- Which places a block needs that no block before it does. -/
theorem mem_paths_iff {n : Nat} (h : p ∈ path n) : p ∈ paths (List.range n) ↔ firstUse p ≠ n := by
  have first := firstUse_path h
  rw [mem_paths_range]
  constructor
  · rintro ⟨bn, hbn, hp⟩
    have := (firstUse_path hp).1
    omega
  · intro ne
    exact ⟨firstUse p, by omega, first.2⟩

theorem path_nodup (n : Nat) : (path n).Nodup := by
  rw [path]
  split
  · simp
  · split <;> simp

/-- The places that are new with a block. -/
theorem countP_new (n : Nat) :
    (path n).countP (fun p => firstUse p = n) + mapBlocks n = mapBlocks (n + 1) := by
  have size : nindirect = 128 := rfl
  have direct : ndirect = 11 := rfl
  rw [path]
  split
  · rename_i small
    have first : firstUse [n] = n := if_pos small
    have count : ([[n]] : List (List Nat)).countP (fun p => firstUse p = n) = 1 := by
      simp [first]
    rw [count]
    simp only [mapBlocks, size, direct] at *
    split_ifs <;> omega
  · rename_i big
    split
    · rename_i single
      have index : firstUse [ndirect] = ndirect := by simp [firstUse]
      have first : firstUse [ndirect, n - ndirect] = n := by
        simp [firstUse]
        omega
      have count : [[ndirect], [ndirect, n - ndirect]].countP (fun p => firstUse p = n) =
          1 + if ndirect = n then 1 else 0 := by
        simp [List.countP_cons, index, first]
      rw [count]
      simp only [mapBlocks, size, direct] at *
      split_ifs <;> omega
    · rename_i single
      generalize hm : n - ndirect - nindirect = m
      have split : n = ndirect + nindirect + m := by omega
      have double : firstUse [ndirect + 1] = ndirect + nindirect := by simp [firstUse]
      have index : firstUse [ndirect + 1, m / nindirect] =
          ndirect + nindirect + nindirect * (m / nindirect) := by simp [firstUse]
      have first : firstUse [ndirect + 1, m / nindirect, m % nindirect] = n := by
        rw [split, firstUse, Nat.add_assoc, Nat.div_add_mod]
      have count : [[ndirect + 1], [ndirect + 1, m / nindirect],
          [ndirect + 1, m / nindirect, m % nindirect]].countP (fun p => firstUse p = n) =
          1 + (if m % nindirect = 0 then 1 else 0) + if m = 0 then 1 else 0 := by
        have step : ndirect + nindirect + nindirect * (m / nindirect) = n ↔ m % nindirect = 0 := by
          rw [split, size]
          omega
        have base : ndirect + nindirect = n ↔ m = 0 := by omega
        simp [List.countP_cons, double, index, first, step, base]
      dsimp only
      rw [count]
      clear count index first double
      simp only [mapBlocks, size, direct] at *
      split_ifs <;> omega

/-- How many places the blocks of a file need. -/
theorem card_paths (n : Nat) : (paths (List.range n)).toFinset.card = mapBlocks n := by
  induction n with
  | zero => rfl
  | succ n ih =>
    have split : (paths (List.range (n + 1))).toFinset =
        (path n).toFinset.filter (fun p => firstUse p = n) ∪ (paths (List.range n)).toFinset := by
      ext p
      rw [Finset.mem_union, Finset.mem_filter, List.mem_toFinset, List.mem_toFinset,
        List.mem_toFinset, paths_succ, List.mem_append]
      constructor
      · rintro (old | new)
        · exact .inr old
        · by_cases first : firstUse p = n
          · exact .inl ⟨new, first⟩
          · exact .inr ((mem_paths_iff new).mpr first)
      · rintro (⟨new, _⟩ | old)
        · exact .inr new
        · exact .inl old
    have apart : Disjoint ((path n).toFinset.filter fun p => firstUse p = n)
        (paths (List.range n)).toFinset := by
      rw [Finset.disjoint_left]
      intro p hp old
      obtain ⟨new, first⟩ := Finset.mem_filter.mp hp
      exact (mem_paths_iff (List.mem_toFinset.mp new)).mp (List.mem_toFinset.mp old) first
    have filter : ((path n).toFinset.filter fun p => firstUse p = n).card =
        (path n).countP fun p => firstUse p = n := by
      rw [List.countP_eq_length_filter, ← List.toFinset_card_of_nodup ((path_nodup n).filter _),
        List.toFinset_filter]
      simp
    rw [split, Finset.card_union_of_disjoint apart, filter, ih, countP_new]

/-- Exactly the places of a file with `n` blocks of data are there. -/
def Exact (V : Volume) (i n : Nat) : Prop :=
  ∀ p, p ≠ [] → (V.node (i :: p) ≠ none ↔ p ∈ paths (List.range n))

/-- The places with one more block, if it is not there. -/
theorem mem_paths_max {n bn : Nat} (le : bn ≤ n) :
    p ∈ paths (List.range (max n (bn + 1))) ↔ p ∈ paths (List.range n) ∨ p ∈ path bn := by
  obtain rfl | lt := Nat.eq_or_lt_of_le le
  · rw [max_eq_right (Nat.le_succ _), paths_succ, List.mem_append]
  · rw [max_eq_left lt]
    refine (or_iff_left_of_imp fun hp => ?_).symm
    exact mem_paths_range.mpr ⟨bn, lt, hp⟩

/-- The next block of a file, or one that is there, is demanded. -/
theorem Exact.grow {n bn : Nat} (h : Exact V i n) (le : bn ≤ n)
    (e : Extends i (path bn) V free W free') : Exact W i (max n (bn + 1)) := by
  intro p hp
  rw [ne_eq, e.none_iff, not_and_or, not_not, ← ne_eq, h p hp, mem_paths_max le]

/-- What it takes. -/
theorem Exact.missing_card {n bn : Nat} (h : Exact V i n) (free : Nat) (le : bn ≤ n) :
    (Demand.missing (demand V i free) (path bn)).card + mapBlocks n =
      mapBlocks (max n (bn + 1)) := by
  rw [← card_paths, ← card_paths]
  have split : (paths (List.range (max n (bn + 1)))).toFinset =
      Demand.missing (demand V i free) (path bn) ∪ (paths (List.range n)).toFinset := by
    ext p
    rw [Finset.mem_union, Demand.mem_missing, List.mem_toFinset, List.mem_toFinset,
      mem_paths_max le]
    constructor
    · rintro (old | new)
      · exact .inr old
      · by_cases there : V.node (i :: p) = none
        · exact .inl ⟨new, there⟩
        · exact .inr ((h p (ne_nil_of_mem_path new)).mp there)
    · rintro (⟨new, _⟩ | old)
      · exact .inr new
      · exact .inl old
  rw [split, Finset.card_union_of_disjoint]
  rw [Finset.disjoint_left]
  intro p hp old
  obtain ⟨new, none⟩ := Demand.mem_missing.mp hp
  exact (h p (ne_nil_of_mem_path new)).mpr (List.mem_toFinset.mp old) none

theorem mapBlocks_mono {m n : Nat} (h : m ≤ n) : mapBlocks m ≤ mapBlocks n := by
  rw [← card_paths, ← card_paths]
  refine Finset.card_le_card ?_
  intro p hp
  rw [List.mem_toFinset, mem_paths_range] at hp ⊢
  obtain ⟨bn, lt, hp⟩ := hp
  exact ⟨bn, lt.trans_le h, hp⟩

/-! ## The functions -/

/-- The inodes in the blocks before the bitmap: `ninodes`, and what is left of the last block. -/
def inodeSlots : Nat := (ninodes / ipb + 1) * ipb

/-- The volume in the image. -/
def State.vol (s : State) : Volume where
  data := s.image
  inode i := if i < inodeSlots then (s.image (i2b i)).dinode (i % ipb) else newDinode 0

/-- The volume in the image while an inode is in a local variable. -/
def overlay (s : State) (i : Nat) (din : Dinode) : Volume where
  data := s.image
  inode := update s.vol.inode i din

variable {s t u : State} {din din₁ : Dinode} {E : Stop → Prop}

theorem rsect_triple {b : Nat} (err : s.sectors ≤ b → E (.exit "read")) :
    Triple (· = s) (rsect b) (fun d t => (d = s.image b ∧ b < s.sectors) ∧ t = s) E := by
  refine Triple.get_bind ?_
  rintro s rfl
  split
  · rename_i lt
    rintro s rfl
    exact ⟨⟨rfl, lt⟩, rfl⟩
  · rename_i ge
    rintro s rfl
    exact err (by omega)

theorem assert_triple {φ : Prop} [Decidable φ] {text : String} (err : ¬ φ → E (.assert text)) :
    Triple (· = s) (assert φ text) (fun _ t => φ ∧ t = s) E := by
  rw [assert]
  split
  · rename_i holds
    rintro s rfl
    exact ⟨holds, rfl⟩
  · rename_i fails
    rintro s rfl
    exact err fails

theorem i2b_lt {j : Nat} (hj : j < inodeSlots) : i2b j < firstBlock := by
  have : i2b j ≤ 207 / ipb + 2 := Nat.add_le_add_right (Nat.div_le_div_right (by
    have : inodeSlots = 208 := rfl
    omega)) 2
  have : 207 / ipb + 2 < firstBlock := by decide
  omega

/-- Blocks behind the bitmap hold no inodes. -/
theorem vol_inode_congr (low : ∀ z < firstBlock, t.image z = s.image z) :
    t.vol.inode = s.vol.inode := by
  funext j
  simp only [State.vol]
  split
  · rename_i lt
    rw [low _ (i2b_lt lt)]
  · rfl

/-- Since the state `s` the places `ps` of a file have been demanded. -/
structure Demands (i : Nat) (ps : List (List Nat)) (s : State) (din : Dinode) (t : State)
    (din₁ : Dinode) : Prop where
  grown : Extends i ps (overlay s i din) s.freeblock (overlay t i din₁) t.freeblock
  used : s.usedblocks = s.freeblock → t.usedblocks = t.freeblock
  sectors : t.sectors = s.sectors
  freeinode : t.freeinode = s.freeinode
  low : ∀ z < firstBlock, t.image z = s.image z
  inode : ∃ addrs, din₁ = { din with addrs := addrs }

/-- Only the block `x`, which is the last one that was taken, may lie behind the
image. -/
def Bounded (s : State) (x : Nat) : Prop := s.freeblock ≤ s.sectors ∨ s.freeblock = x + 1

namespace Demands

variable {ps : List (List Nat)}

theorem nil (h : Tree (overlay s i din) s.freeblock) : Demands i [] s din s din :=
  ⟨.nil h, id, rfl, rfl, fun _ _ => rfl, ⟨din.addrs, rfl⟩⟩

theorem present (h : Demands i ps s din t din₁) (there : (overlay t i din₁).node (i :: p) ≠ none) :
    Demands i (ps ++ [p]) s din t din₁ :=
  ⟨h.grown.present there, h.used, h.sectors, h.freeinode, h.low, h.inode⟩

end Demands

/-- An address is stored in the local inode. -/
theorem overlay_setAddr (din : Dinode) (k : Fin (ndirect + 2)) (a : Nat)
    (sectors' free used inode' : Nat) :
    overlay ⟨s.image, sectors', free, used, inode'⟩ i
        { din with addrs := update din.addrs k a } =
      (overlay s i din).link (.inode i) k.val a := by
  have here : (overlay s i din).inode i = din := update_self ..
  have addrs : update din.addrs k a =
      fun l => if l.val = k.val then a else din.addrs l := by
    funext l
    by_cases e : l = k
    · rw [e, update_self, if_pos rfl]
    · rw [update_of_ne e, if_neg fun e' => e (Fin.ext e')]
  rw [Volume.link, here, addrs]
  simp only [overlay, update_idem]
  rfl

/-- An entry is stored in an index block. -/
theorem overlay_setWord {b : Nat} (din : Dinode) (hb : firstBlock ≤ b)
    (j a sectors' free used inode' : Nat) :
    overlay ⟨update s.image b ((s.image b).setWord j a), sectors', free, used, inode'⟩ i
        din = (overlay s i din).link (.block b) j a := by
  rw [overlay, vol_inode_congr (s := s)]
  · rfl
  · intro z hz
    exact update_of_ne (by omega) ..

theorem mapAddr_triple {ps : List (List Nat)} (h : Demands i ps s din t din₁)
    (type : din.type ≠ 0) (k : Fin (ndirect + 2)) (bound : t.freeblock ≤ t.sectors)
    (small : t.sectors < 2 ^ 32) :
    Triple (· = t) (mapAddr din₁ k)
      (fun din₂ u => Demands i (ps ++ [[k.val]]) s din u din₂ ∧
        (overlay u i din₂).node [i, k.val] = some (.block (din₂.addrs k)) ∧
          Bounded u (din₂.addrs k)) E := by
  obtain ⟨addrs, hdin⟩ := h.inode
  have type₁ : din₁.type ≠ 0 := by
    rw [hdin]
    exact type
  have inode : (overlay t i din₁).inode i = din₁ := update_self ..
  have node : ∀ b, (overlay t i din₁).node [i, k.val] = some (.block b) ↔
      din₁.addrs k = b ∧ b ≠ 0 := by
    intro b
    rw [Volume.node_addr, inode]
    exact and_iff_right type₁
  rw [mapAddr]
  split
  · rename_i zero
    have parent : (overlay t i din₁).node (i :: []) = some (.inode i) := by
      rw [Volume.node_inode, inode]
      exact type₁
    have missing : (overlay t i din₁).kid (.inode i) k.val = none := by
      rw [Volume.kid, dif_pos k.isLt, inode, pointer_eq_none.mpr zero]
      rfl
    have position : Position (i :: [] ++ [k.val]) := k.isLt
    have room : t.freeblock < 2 ^ 32 := lt_of_le_of_lt bound small
    have grown := h.grown.absent position parent missing room
    rintro t rfl
    let t' : State := { t with freeblock := t.freeblock + 1, usedblocks := t.usedblocks + 1 }
    show Demands i (ps ++ [[k.val]]) s din t'
        { din₁ with addrs := update din₁.addrs k t.freeblock } ∧ _ ∧ _
    have vol := overlay_setAddr (s := t) (i := i) din₁ k t.freeblock t.sectors
      (t.freeblock + 1) (t.usedblocks + 1) t.freeinode
    have addr : update din₁.addrs k t.freeblock k = t.freeblock := update_self ..
    refine ⟨⟨?_, ?_, h.sectors, h.freeinode, h.low, ?_⟩, ?_, .inr ?_⟩
    · rw [vol]
      exact grown
    · intro same
      exact congrArg (· + 1) (h.used same)
    · exact ⟨update din₁.addrs k t.freeblock, by rw [hdin]⟩
    · rw [vol]
      obtain ⟨_, node', _⟩ := h.grown.tree.link (List.cons_ne_nil i []) position parent missing room
      dsimp only
      rw [node', addr]
      exact update_self ..
    · dsimp only
      rw [addr]
  · rename_i ne
    have there := (node _).mpr ⟨rfl, ne⟩
    rintro t rfl
    exact ⟨h.present (by rw [there]; exact Option.some_ne_none _), there, .inl bound⟩

theorem mapEntry_triple {ps : List (List Nat)} {b j : Nat} (h : Demands i ps s din t din₁)
    (position : Position (i :: p ++ [j]))
    (parent : (overlay t i din₁).node (i :: p) = some (.block b)) (bound : Bounded t b)
    (small : t.sectors < 2 ^ 32) (err : t.sectors < t.freeblock → E (.exit "read")) :
    Triple (· = t) (mapEntry b j)
      (fun x u => Demands i (ps ++ [p ++ [j]]) s din u din₁ ∧
        (overlay u i din₁).node (i :: p ++ [j]) = some (.block x) ∧ Bounded u x) E := by
  obtain ⟨low, high⟩ := h.grown.tree.range _ b parent
  refine Triple.bind (rsect_triple fun ge => err (by omega)) fun indirect => Triple.known ?_
  rintro ⟨rfl, inside⟩
  have bound : t.freeblock ≤ t.sectors := by
    obtain le | e := bound
    · exact le
    · omega
  split
  · rename_i zero
    have missing : (overlay t i din₁).kid (.block b) j = none := by
      have word : ((overlay t i din₁).data b).word j = 0 := zero
      rw [Volume.kid, word]
      rfl
    have room : t.freeblock < 2 ^ 32 := lt_of_le_of_lt bound small
    have grown := h.grown.absent position parent missing room
    rintro t rfl
    let t' : State := ⟨update t.image b ((t.image b).setWord j t.freeblock),
      max t.sectors (b + 1), t.freeblock + 1, t.usedblocks + 1, t.freeinode⟩
    show Demands i (ps ++ [p ++ [j]]) s din t' din₁ ∧ _ ∧ Bounded t' t.freeblock
    have vol := overlay_setWord (s := t) (i := i) din₁ low j t.freeblock
      (max t.sectors (b + 1)) (t.freeblock + 1) (t.usedblocks + 1) t.freeinode
    refine ⟨⟨?_, ?_, ?_, h.freeinode, ?_, h.inode⟩, ?_, .inr rfl⟩
    · rw [vol]
      exact grown
    · intro same
      exact congrArg (· + 1) (h.used same)
    · rw [← h.sectors]
      exact max_eq_left inside
    · intro z hz
      rw [← h.low z hz]
      exact update_of_ne (by omega) ..
    · rw [vol]
      obtain ⟨_, node', _⟩ := h.grown.tree.link (List.cons_ne_nil i p) position parent missing room
      rw [node']
      exact update_self ..
  · rename_i ne
    have there : (overlay t i din₁).node (i :: p ++ [j]) = some (.block ((t.image b).word j)) :=
      (Volume.node_entry parent position).mpr ⟨rfl, ne⟩
    rintro t rfl
    refine ⟨h.present ?_, there, .inl bound⟩
    rw [← List.cons_append, there]
    exact Option.some_ne_none _

/-- Blocks are taken only for places that are missing at first. -/
theorem Demands.freeblock_le {ps qs : List (List Nat)} (h : Demands i ps s din t din₁)
    (small : s.freeblock ≤ 2 ^ 32) (sub : ps ⊆ qs) :
    t.freeblock ≤ s.freeblock +
      (Demand.missing (demand (overlay s i din) i s.freeblock) qs).card := by
  rw [h.grown.count small]
  refine Nat.add_le_add_left (Finset.card_le_card ?_) _
  intro p hp
  obtain ⟨mem, none⟩ := Demand.mem_missing.mp hp
  exact Demand.mem_missing.mpr ⟨sub mem, none⟩

/-- The places on the way to a block are demanded, and the block is found. -/
theorem mapBlock_triple {fbn : Nat} (h : Tree (overlay s i din) s.freeblock) (type : din.type ≠ 0)
    (inside : fbn < maxFile) (bound : s.freeblock ≤ s.sectors) (small : s.sectors < 2 ^ 32)
    (err : s.sectors < s.freeblock +
      (Demand.missing (demand (overlay s i din) i s.freeblock) (path fbn)).card →
        E (.exit "read")) :
    Triple (· = s) (mapBlock din fbn)
      (fun r t => Demands i (path fbn) s din t r.1 ∧
        (overlay t i r.1).node (i :: leaf fbn) = some (.block r.2) ∧ Bounded t r.2) E := by
  have full : ∀ {ps t din₁}, Demands i ps s din t din₁ → ps ⊆ path fbn →
      t.sectors < t.freeblock → E (.exit "read") := by
    intro ps t din₁ demands sub beyond
    have := demands.freeblock_le h.small sub
    have := demands.sectors
    exact err (by omega)
  have size : nindirect = 128 := rfl
  rw [mapBlock]
  split
  · rename_i direct
    have places : path fbn = [[fbn]] := if_pos direct
    have last : leaf fbn = [fbn] := by rw [leaf, places]; rfl
    refine Triple.bind (mapAddr_triple (.nil h) type ⟨fbn, Nat.lt_add_right 2 direct⟩ bound small)
      fun din₁ => Triple.pure ?_
    rintro t ⟨demands, node, bounded⟩
    rw [places, last]
    exact ⟨demands, node, bounded⟩
  · rename_i direct
    split
    · rename_i single
      have places : path fbn = [[ndirect], [ndirect, fbn - ndirect]] := by
        rw [path, if_neg direct, if_pos (by omega)]
      have last : leaf fbn = [ndirect, fbn - ndirect] := by rw [leaf, places]; rfl
      refine Triple.bind (mapAddr_triple (.nil h) type ⟨ndirect, by decide⟩ bound small)
        fun din₁ => ?_
      rintro t ⟨demands, node, bounded⟩
      have position : Position (i :: [ndirect] ++ [fbn - ndirect]) :=
        ⟨le_rfl, by decide, by omega⟩
      have entry := mapEntry_triple (E := E) demands position node bounded
        (demands.sectors ▸ small) (full demands (by simp [places]))
      refine (Triple.bind entry fun x => Triple.pure ?_) t rfl
      rintro u ⟨demands, node, bounded⟩
      rw [places, last]
      exact ⟨demands, node, bounded⟩
    · rename_i single
      generalize hm : fbn - ndirect - nindirect = m
      have double : m < nindirect * nindirect := by
        have : maxFile = ndirect + nindirect + nindirect * nindirect := rfl
        omega
      have first : m / nindirect < nindirect := Nat.div_lt_of_lt_mul double
      have second : m % nindirect < nindirect := Nat.mod_lt _ (by decide)
      have places : path fbn =
          [[ndirect + 1], [ndirect + 1, m / nindirect], [ndirect + 1, m / nindirect, m % nindirect]] := by
        rw [path, if_neg direct, if_neg (by omega), ← hm]
      have last : leaf fbn = [ndirect + 1, m / nindirect, m % nindirect] := by
        rw [leaf, places]
        rfl
      refine Triple.bind (mapAddr_triple (.nil h) type ⟨ndirect + 1, by decide⟩ bound small)
        fun din₁ => ?_
      rintro t ⟨demands, node, bounded⟩
      have position : Position (i :: [ndirect + 1] ++ [m / nindirect]) :=
        ⟨by decide, by decide, first⟩
      have entry := mapEntry_triple (E := E) demands position node bounded
        (demands.sectors ▸ small) (full demands (by simp [places]))
      refine (Triple.bind entry fun addr => ?_) t rfl
      rintro t ⟨demands, node, bounded⟩
      have position : Position (i :: [ndirect + 1, m / nindirect] ++ [m % nindirect]) :=
        ⟨rfl, first, second⟩
      have entry := mapEntry_triple (E := E) demands position node bounded
        (demands.sectors ▸ small) (full demands (by simp [places]))
      refine (Triple.bind entry fun x => Triple.pure ?_) t rfl
      rintro u ⟨demands, node, bounded⟩
      rw [places, last]
      exact ⟨demands, node, bounded⟩

/-! ## The loop -/

/-- Since the state `s₀` bytes have been appended to a file, whose inode is in a local
variable, and it has the bytes `bytes` now. -/
structure Appending (i : Nat) (s₀ : State) (din₀ : Dinode) (bytes₀ : List UInt8)
    (bytes : List UInt8) (s : State) (din : Dinode) : Prop where
  tree : Tree (overlay s i din) s.freeblock
  exact : Exact (overlay s i din) i (dataBlocks bytes.length)
  content : ∀ o, (overlay s i din).content i o = bytes.getD o 0
  otherContent : ∀ j ≠ i, (overlay s i din).content j = (overlay s₀ i din₀).content j
  otherNode : ∀ q, (∀ p, q ≠ i :: p) → (overlay s i din).node q = (overlay s₀ i din₀).node q
  count : s.freeblock + mapBlocks (dataBlocks bytes₀.length) =
    s₀.freeblock + mapBlocks (dataBlocks bytes.length)
  used : s₀.usedblocks = s₀.freeblock → s.usedblocks = s.freeblock
  sectors : s.sectors = s₀.sectors
  freeinode : s.freeinode = s₀.freeinode
  low : ∀ z < firstBlock, s.image z = s₀.image z
  inode : ∃ addrs, din = { din₀ with addrs := addrs }
  bound : s.freeblock ≤ s.sectors

theorem getD_append_take (bytes p : List UInt8) (n o : Nat) :
    (bytes ++ p.take n).getD o 0 =
      if bytes.length ≤ o ∧ o < bytes.length + n then p.getD (o - bytes.length) 0
      else bytes.getD o 0 := by
  rw [List.getD_eq_getElem?_getD, List.getD_eq_getElem?_getD, List.getD_eq_getElem?_getD]
  by_cases old : o < bytes.length
  · rw [List.getElem?_append_left old, if_neg (by omega)]
  · rw [List.getElem?_append_right (by omega), List.getElem?_take]
    by_cases new : o - bytes.length < n
    · rw [if_pos new, if_pos (by omega)]
    · rw [if_neg new, if_neg (by omega), List.getElem?_eq_none (by omega)]

/-- The bytes of a file after a round. -/
theorem round_content {V : Volume} {bytes p : List UInt8} {b n : Nat} (sep : V.Separate)
    (node : V.node (i :: leaf (bytes.length / bsize)) = some (.block b))
    (content : ∀ o, V.content i o = bytes.getD o 0) (inside : n ≤ bsize - bytes.length % bsize)
    (o : Nat) :
    (V.put b ((V.data b).copy (bytes.length % bsize) n fun k => p.getD k 0)).content i o =
      (bytes ++ p.take n).getD o 0 := by
  rw [Volume.content_put sep node, getD_append_take]
  by_cases div : o / bsize = bytes.length / bsize
  · obtain ⟨range, index⟩ := round_iff (m := n) div
    have byte := Volume.content_of_block (v := V) (o := o) (i := i) (b := b) (by rw [div, node])
    rw [if_pos ⟨rfl, div⟩, Block.copy_eq]
    by_cases new : bytes.length ≤ o ∧ o < bytes.length + n
    · rw [if_pos (range.mpr new), if_pos new]
      exact congrArg (p.getD · 0) index
    · rw [if_neg fun h => new (range.mp h), if_neg new, ← content, byte]
  · rw [if_neg fun h => div h.2, if_neg, content]
    rintro ⟨low, high⟩
    have round := round_div_mod (o := bytes.length) (k := o - bytes.length) (by omega)
    rw [Nat.add_sub_cancel' low] at round
    exact div round.1

theorem dataBlocks_mono {m n : Nat} (h : m ≤ n) : dataBlocks m ≤ dataBlocks n :=
  Nat.div_le_div_right (Nat.add_le_add_right h _)

/-- The block that is appended to is the last one or the next one. -/
theorem dataBlocks_round (len : Nat) {n : Nat} (pos : 0 < n) (inside : n ≤ bsize - len % bsize) :
    len / bsize ≤ dataBlocks len ∧ dataBlocks (len + n) = max (dataBlocks len) (len / bsize + 1) := by
  have size : bsize = 512 := rfl
  rw [size] at inside
  rw [dataBlocks, dataBlocks, size]
  omega

/-- Data is stored in a block. -/
theorem overlay_put {b : Nat} (din : Dinode) (hb : firstBlock ≤ b) (d : Block)
    (sectors' free used inode' : Nat) :
    overlay ⟨update s.image b d, sectors', free, used, inode'⟩ i din =
      (overlay s i din).put b d := by
  rw [overlay, vol_inode_congr (s := s)]
  · rfl
  · intro z hz
    exact update_of_ne (by omega) ..

/-- A round of the loop: the places on the way to the block were demanded, and data is
stored in it. -/
theorem Appending.round {s₀ : State} {din₀ : Dinode} {bytes₀ bytes p : List UInt8} {x n : Nat}
    (h : Appending i s₀ din₀ bytes₀ bytes s din)
    (demands : Demands i (path (bytes.length / bsize)) s din t din₁)
    (node : (overlay t i din₁).node (i :: leaf (bytes.length / bsize)) = some (.block x))
    (inside : x < t.sectors) (bounded : Bounded t x) (pos : 0 < n) (hn : n ≤ p.length)
    (fits : n ≤ bsize - bytes.length % bsize) :
    Appending i s₀ din₀ bytes₀ (bytes ++ p.take n)
      ⟨update t.image x ((t.image x).copy (bytes.length % bsize) n fun k => p.getD k 0),
        max t.sectors (x + 1), t.freeblock, t.usedblocks, t.freeinode⟩ din₁ := by
  obtain ⟨low, _⟩ := demands.grown.tree.range _ x node
  have vol := overlay_put (s := t) (i := i) din₁ low
    ((t.image x).copy (bytes.length % bsize) n fun k => p.getD k 0) (max t.sectors (x + 1))
    t.freeblock t.usedblocks t.freeinode
  have sep := demands.grown.tree.separate
  have same := Volume.node_put sep node
    ((t.image x).copy (bytes.length % bsize) n fun k => p.getD k 0)
  have length : (bytes ++ p.take n).length = bytes.length + n := by
    rw [List.length_append, List.length_take, min_eq_left hn]
  obtain ⟨le, grown⟩ := dataBlocks_round bytes.length pos fits
  have sectors : max t.sectors (x + 1) = s₀.sectors := by
    rw [max_eq_left inside, demands.sectors, h.sectors]
  refine ⟨?_, ?_, ?_, ?_, ?_, ?_, ?_, sectors, demands.freeinode.trans h.freeinode, ?_, ?_, ?_⟩
  · rw [vol]
    exact demands.grown.tree.put node _
  · rw [vol, length, grown]
    intro q hq
    rw [same]
    exact h.exact.grow le demands.grown q hq
  · rw [vol]
    refine round_content sep node ?_ fits
    intro o
    rw [demands.grown.content, h.content]
  · intro j hj
    rw [vol, ← h.otherContent j hj, ← demands.grown.content]
    funext o
    rw [Volume.content_put sep node, if_neg fun e => hj e.1]
  · intro q hq
    rw [vol, same, demands.grown.other q hq, h.otherNode q hq]
  · have count := demands.grown.count h.tree.small
    have need := h.exact.missing_card s.freeblock le
    have := h.count
    rw [length, grown]
    dsimp only
    omega
  · intro e
    exact demands.used (h.used e)
  · intro z hz
    rw [← h.low z hz, ← demands.low z hz]
    exact update_of_ne (by omega) ..
  · obtain ⟨addrs, rfl⟩ := demands.inode
    obtain ⟨_, rfl⟩ := h.inode
    exact ⟨addrs, rfl⟩
  · dsimp only
    obtain le | e := bounded <;> omega

theorem iappendLoop_triple {s₀ : State} {din₀ : Dinode} {bytes₀ bytes p : List UInt8}
    {rounds : Nat} (type : din₀.type ≠ 0) (small : s₀.sectors < 2 ^ 32)
    (h : Appending i s₀ din₀ bytes₀ bytes s din) (enough : p.length ≤ rounds)
    (long : maxFile * bsize < bytes.length + p.length → E (.assert "fbn < MAXFILE"))
    (full : s₀.sectors + mapBlocks (dataBlocks bytes₀.length) <
      s₀.freeblock + mapBlocks (dataBlocks (bytes.length + p.length)) → E (.exit "read")) :
    Triple (· = s) (iappendLoop rounds din bytes.length p)
      (fun r t => r.2 = (bytes ++ p).length ∧
        Appending i s₀ din₀ bytes₀ (bytes ++ p) t r.1) E := by
  induction rounds generalizing s din bytes p with
  | zero =>
    obtain rfl : p = [] := List.eq_nil_of_length_eq_zero (by omega)
    rintro s rfl
    rw [List.append_nil]
    exact ⟨rfl, h⟩
  | succ rounds ih =>
    rw [iappendLoop]
    split
    · rename_i more
      have size : bsize = 512 := rfl
      have start : bytes.length - bytes.length / 512 * 512 = bytes.length % bsize := by
        rw [size]
        omega
      have width : (bytes.length / 512 + 1) * 512 - bytes.length =
          bsize - bytes.length % bsize := by
        rw [size]
        omega
      dsimp only
      rw [start, width]
      generalize hn : min p.length (bsize - bytes.length % bsize) = n
      have pos : 0 < n := by
        have : bytes.length % bsize < bsize := Nat.mod_lt _ (by decide)
        omega
      obtain ⟨le, grown⟩ := dataBlocks_round bytes.length pos (by omega)
      have rest : dataBlocks (bytes.length + n) ≤ dataBlocks (bytes.length + p.length) :=
        dataBlocks_mono (by omega)
      have need := h.exact.missing_card s.freeblock le
      rw [← grown] at need
      have small' : s.sectors < 2 ^ 32 := h.sectors ▸ small
      have type' : din.type ≠ 0 := by
        obtain ⟨addrs, rfl⟩ := h.inode
        exact type
      have beyond : s.sectors < s.freeblock + (Demand.missing
          (demand (overlay s i din) i s.freeblock) (path (bytes.length / bsize))).card →
            E (.exit "read") := by
        intro beyond
        have := h.count
        have := h.sectors
        have := mapBlocks_mono rest
        exact full (by omega)
      refine Triple.bind (assert_triple fun big => long ?_) fun _ => Triple.known fun inside => ?_
      · have : maxFile * bsize ≤ bytes.length :=
          (Nat.le_div_iff_mul_le (by decide)).mp (Nat.le_of_not_lt big)
        omega
      refine Triple.bind (mapBlock_triple h.tree type' inside h.bound small' beyond) fun r => ?_
      obtain ⟨din₁, x⟩ := r
      rintro t ⟨demands, node, bounded⟩
      have demands : Demands i (path (bytes.length / bsize)) s din t din₁ := demands
      have taken := demands.grown.count h.tree.small
      have last := (demands.grown.tree.range _ x node).2
      have read := rsect_triple (s := t) (b := x) (E := E) fun ge => beyond (by
        have := demands.sectors
        omega)
      refine (Triple.bind read fun buf => Triple.known ?_) t rfl
      rintro ⟨rfl, inside⟩
      have round := h.round (p := p) (n := n) demands node inside bounded pos (by omega) (by omega)
      have length : (bytes ++ p.take n).length = bytes.length + n := by
        rw [List.length_append, List.length_take, min_eq_left (by omega)]
      have drop : (p.drop n).length = p.length - n := List.length_drop
      have total : bytes.length + n + (p.length - n) = bytes.length + p.length := by omega
      have next := ih round (p := p.drop n) (by omega)
        (by rw [length, drop, total]; exact long) (by rw [length, drop, total]; exact full)
      rw [length, List.append_assoc, List.take_append_drop] at next
      rintro t rfl
      exact next _ rfl
    · rename_i done
      obtain rfl : p = [] := List.eq_nil_of_length_eq_zero (by omega)
      rintro s rfl
      rw [List.append_nil]
      exact ⟨rfl, h⟩

end Mkfs

end Xv6Gui
