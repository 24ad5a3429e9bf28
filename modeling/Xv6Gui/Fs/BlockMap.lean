import Xv6Gui.Fs.Bitmap
import Xv6Gui.Lib.Demand
import Xv6Gui.Lib.Trie

/-!
# The block map of a file

`bmap` finds the block of a file at an index, through the addresses in the inode
and up to two levels of index blocks, and allocates what is missing on the way.

The map is a tree.  Its places are the lists of indices on the way from the
inode: `[i]` for an address in the inode, `[11, j]` for an entry of the indirect
block, `[12, j]` and `[12, j, k]` for those of the double-indirect block and of the
index blocks below it.  The node at a place is a block number; the inode itself is
node `0`, which no block of a file is.

In these terms `bmap` demands the places of an index one after the other, and
`balloc` gives the lowest free block.  This is shown for a map without shared
blocks, which all lie behind the bitmap and are marked as used.
-/

namespace Xv6Gui

open Function (update update_of_ne update_self)

variable {s t : Fs}

/-! ## Places -/

/-- The lists of indices that are places of the map. -/
def Place : List Nat → Prop
  | [] => True
  | [i] => i < ndirect + 2
  | [i, j] => ndirect ≤ i ∧ i < ndirect + 2 ∧ j < nindirect
  | [i, j, k] => i = ndirect + 1 ∧ j < nindirect ∧ k < nindirect
  | _ => False

instance : DecidablePred Place
  | [] => .isTrue trivial
  | [i] => inferInstanceAs (Decidable (i < ndirect + 2))
  | [i, j] => inferInstanceAs (Decidable (ndirect ≤ i ∧ i < ndirect + 2 ∧ j < nindirect))
  | [i, j, k] => inferInstanceAs (Decidable (i = ndirect + 1 ∧ j < nindirect ∧ k < nindirect))
  | _ :: _ :: _ :: _ :: _ => .isFalse id

theorem place_closed : Trie.Closed Place := by
  intro p j h
  match p with
  | [] => exact trivial
  | [i] => exact h.2.1
  | [i, j] =>
    obtain ⟨hi, hj, _⟩ := h
    exact ⟨by omega, by omega, hj⟩
  | i :: j :: k :: rest => cases rest <;> cases h

/-- An address, where 0 is none. -/
def pointer (addr : Nat) : Option Nat := if addr = 0 then none else some addr

theorem pointer_eq_none {addr : Nat} : pointer addr = none ↔ addr = 0 := by simp [pointer]

theorem pointer_of_ne {addr : Nat} (h : addr ≠ 0) : pointer addr = some addr := if_neg h

namespace View

/-- The block below a node of the map. -/
def child (v : View) (ip : InodePtr) (node i : Nat) : Option Nat :=
  if node = 0 then
    if h : i < ndirect + 2 then pointer ((v.icache ip).addrs ⟨i, h⟩) else none
  else
    pointer ((v.data node).word i)

/-- The block map of an inode, with the free blocks. -/
def blocks (v : View) (ip : InodePtr) : Demand.State (List Nat) Nat where
  val p := if Place p then Trie.walk (v.child ip) 0 p else none
  supply := v.free

/-- The blocks of the map are pairwise different and used; they and all free blocks
lie behind the bitmap. -/
structure WellFormed (v : View) (ip : InodePtr) : Prop where
  inum : (v.icache ip).inum < v.sb.slots
  sound : Demand.Sound (v.blocks ip)
  low : ∀ b ∈ v.free, v.dataStart ≤ b
  high : ∀ p b, p ≠ [] → (v.blocks ip).val p = some b → v.dataStart ≤ b

variable {v w : View} {ip : InodePtr} {p : List Nat} {j x a : Nat}

theorem val_of_place (h : Place p) : (v.blocks ip).val p = Trie.walk (v.child ip) 0 p := if_pos h

theorem place_of_val (h : (v.blocks ip).val p = some x) : Place p := by
  by_contra no
  rw [blocks] at h
  simp only [if_neg no] at h
  cases h

theorem val_nil : (v.blocks ip).val [] = some 0 := rfl

theorem child_inode (i : Fin (ndirect + 2)) :
    v.child ip 0 i = pointer ((v.icache ip).addrs i) := dif_pos i.isLt

theorem child_block (hx : x ≠ 0) (i : Nat) : v.child ip x i = pointer ((v.data x).word i) :=
  if_neg hx

theorem child_congr {i : Nat} (haddrs : x = 0 → (w.icache ip).addrs = (v.icache ip).addrs)
    (hdata : x ≠ 0 → w.data x = v.data x) : w.child ip x i = v.child ip x i := by
  by_cases e : x = 0
  · rw [child, child, haddrs e]
    simp only [if_pos e]
  · rw [child_block e, child_block e, hdata e]

theorem child_of_zero {i : Nat} (hx : x ≠ 0) (hdata : w.data x = .zero) :
    w.child ip x i = none := by
  rw [child_block hx, hdata, pointer_eq_none, Block.word_zero]

namespace WellFormed

variable (h : v.WellFormed ip)

include h

/-- The nodes of the map, and what they are not. -/
theorem node (hp : (v.blocks ip).val p = some x) :
    (p = [] ∧ x = 0) ∨ (p ≠ [] ∧ v.dataStart ≤ x ∧ x ∉ v.free) := by
  by_cases e : p = []
  · rw [e, val_nil] at hp
    cases hp
    exact .inl ⟨e, rfl⟩
  · exact .inr ⟨e, h.high p x e hp, h.sound.fresh p x hp⟩

/-- A missing place gets the lowest free block, which is cleared, and nothing else
in the map changes. -/
theorem grow (place : Place (p ++ [j])) (parent : (v.blocks ip).val p = some x)
    (missing : v.child ip x j = none) (size : a < v.sb.size) (clear : v.used a = false)
    (least : ∀ y < a, v.used y = true) (hinum : (w.icache ip).inum = (v.icache ip).inum)
    (hdata : ∀ z ≠ x, z ≠ 0 → w.data z = (v.alloc a).data z)
    (haddrs : x ≠ 0 → (w.icache ip).addrs = (v.icache ip).addrs) (new : w.child ip x j = some a)
    (other : ∀ k ≠ j, Place (p ++ [k]) → w.child ip x k = v.child ip x k) :
    w.sb = v.sb ∧ w.WellFormed ip ∧ v.free = a :: w.free ∧
      (w.blocks ip).val = update (v.blocks ip).val (p ++ [j]) (some a) := by
  have start := h.low a (mem_free.mpr ⟨size, clear⟩)
  have one := v.dataStart_pos
  have low : x < v.dataStart → x = 0 := by
    intro lt
    obtain ⟨_, e⟩ | ⟨_, le, _⟩ := h.node parent
    · exact e
    · omega
  have hsb : w.sb = v.sb := by
    have hx : 1 ≠ x := by
      intro e
      have := low (by omega)
      omega
    rw [sb, hdata 1 hx (by decide), alloc_data_other (by omega) (one_lt_bblock ..).ne]
    rfl
  have free : v.free = a :: w.free := by
    refine free_alloc h.low size clear least hsb fun z hz hz' => hdata z ?_ (by omega)
    intro e
    have := low (by omega)
    omega
  have val : (w.blocks ip).val = update (v.blocks ip).val (p ++ [j]) (some a) := by
    have fresh : a ≠ x := by
      rintro rfl
      obtain ⟨_, e⟩ | ⟨_, _, out⟩ := h.node parent
      · omega
      · exact out (mem_free.mpr ⟨size, clear⟩)
    have walk : Trie.walk (v.child ip) 0 p = some x :=
      (val_of_place (place_closed p j place)).symm.trans parent
    funext q
    by_cases hq : Place q
    · have grown := Trie.walk_grow place_closed walk missing new
        (fun k _ => child_of_zero (by omega) (by rw [hdata a fresh (by omega), alloc_data_self]))
        (fun q k z hq hz ne => ?_) q hq
      · rw [val_of_place hq, grown]
        by_cases e : q = p ++ [j]
        · rw [e, update_self, update_self]
        · rw [update_of_ne e, update_of_ne e, val_of_place hq]
      · have node : (v.blocks ip).val q = some z := (val_of_place (place_closed q k hq)).trans hz
        by_cases e : z = x
        · have same : q = p := h.sound.inj q p x (e ▸ node) parent
          subst e same
          exact other k (fun e => ne (by rw [e])) hq
        · refine child_congr (fun e₀ => haddrs fun e₁ => e (e₀.trans e₁.symm)) fun e₀ => ?_
          obtain ⟨_, e₁⟩ | ⟨_, le, out⟩ := h.node node
          · exact absurd e₁ e₀
          · have := bblock_lt size
            rw [hdata z e e₀]
            refine alloc_data_other ?_ (by omega)
            rintro rfl
            exact out (mem_free.mpr ⟨size, clear⟩)
    · have e : q ≠ p ++ [j] := fun e => hq (e ▸ place)
      rw [update_of_ne e]
      simp only [blocks, if_neg hq]
  have fill : Demand.Fill (v.blocks ip) (p ++ [j]) (w.blocks ip) := by
    refine ⟨?_, a, free, val⟩
    rw [val_of_place place, Trie.walk_snoc, ← val_of_place (place_closed p j place), parent]
    exact missing
  have hstart : w.dataStart = v.dataStart := by rw [dataStart, dataStart, hsb]
  refine ⟨hsb, ⟨by rw [hinum, hsb]; exact h.inum, fill.sound h.sound, ?_, ?_⟩, free, val⟩
  · intro b hb
    rw [hstart]
    exact h.low b (free ▸ List.mem_cons_of_mem _ hb)
  · intro q b hq hb
    rw [hstart]
    rw [val] at hb
    by_cases e : q = p ++ [j]
    · rw [e, update_self] at hb
      cases hb
      exact start
    · rw [update_of_ne e] at hb
      exact h.high q b hq hb

end WellFormed

/-! ## Demands -/

/-- What stays while a file is written, apart from its blocks. -/
structure Frame (v : View) (ip : InodePtr) (w : View) : Prop where
  sb : w.sb = v.sb
  inum : (w.icache ip).inum = (v.icache ip).inum
  size : (w.icache ip).size = (v.icache ip).size
  ftable : w.ftable = v.ftable
  ops : w.ops = v.ops

/-- The places whose blocks change when missing ones are filled: these, and the
index blocks above them. -/
def touched (s : Demand.State (List Nat) Nat) (ps : List (List Nat)) : Finset (List Nat) :=
  Demand.missing s ps ∪ ((Demand.missing s ps).image List.dropLast).erase []

/-- The places `ps` have been demanded and the blocks at the places `ls` have been
written. -/
structure Written (v : View) (ip : InodePtr) (ps : List (List Nat)) (ls : Finset (List Nat))
    (w : View) : Prop where
  steps : Runs.Steps Demand.Step (v.blocks ip) ps (w.blocks ip)
  wf : w.WellFormed ip
  frame : Frame v ip w
  logged : ∀ z, z ∈ w.logged ↔ z ∈ v.logged ∨
    (∃ p ∈ touched (v.blocks ip) ps ∪ ls, (w.blocks ip).val p = some z) ∨
    ∃ b ∈ Demand.taken (v.blocks ip) ps, z = bblock b v.sb.ninodes

theorem mem_touched {s : Demand.State (List Nat) Nat} {ps : List (List Nat)} {q : List Nat} :
    q ∈ touched s ps ↔
      q ∈ Demand.missing s ps ∨ q ≠ [] ∧ ∃ p ∈ Demand.missing s ps, p.dropLast = q := by
  simp only [touched, Finset.mem_union, Finset.mem_erase, Finset.mem_image]

namespace Written

variable {ps : List (List Nat)} {ls : Finset (List Nat)} {u : View}

theorem start (h : v.WellFormed ip) : Written v ip [] ∅ v := by
  refine ⟨.nil, h, ⟨rfl, rfl, rfl, rfl, rfl⟩, fun z => ?_⟩
  simp [touched, Demand.missing, Demand.taken]

/-- A place that is there is demanded. -/
theorem present (h : Written v ip ps ls w) (hp : (w.blocks ip).val p = some a) :
    Written v ip (ps ++ [p]) ls w := by
  have there : (w.blocks ip).val p ≠ none := by
    rw [hp]
    exact Option.some_ne_none a
  have none : Demand.missing (v.blocks ip) (ps ++ [p]) = Demand.missing (v.blocks ip) ps := by
    rw [Demand.missing_snoc h.steps, Demand.missing_of_some there, Finset.union_empty]
  refine ⟨h.steps.snoc (.inl ⟨there, rfl⟩), h.wf, h.frame, ?_⟩
  rw [Demand.taken_snoc_of_some h.steps there, touched, none]
  exact h.logged

/-- A place that is missing is filled. -/
theorem absent (h : Written v ip ps ls w) (hp : (w.blocks ip).val p = none)
    (hwf : u.WellFormed ip) (frame : Frame w ip u) (hfree : w.free = a :: u.free)
    (hval : (u.blocks ip).val = update (w.blocks ip).val p (some a))
    (hlogged : ∀ z, z ∈ u.logged ↔ z ∈ w.logged ∨ z = a ∨ z = bblock a w.sb.ninodes ∨
      p.dropLast ≠ [] ∧ (w.blocks ip).val p.dropLast = some z) :
    Written v ip (ps ++ [p]) ls u := by
  have fill : Demand.Fill (w.blocks ip) p (u.blocks ip) := ⟨hp, a, hfree, hval⟩
  have supply := Demand.supply_eq h.steps
  have missing : Demand.missing (v.blocks ip) (ps ++ [p]) =
      Demand.missing (v.blocks ip) ps ∪ {p} := by
    rw [Demand.missing_snoc h.steps, Demand.missing_of_none hp]
  have val : ∀ q z, (u.blocks ip).val q = some z ↔ (q = p ∧ z = a) ∨ (w.blocks ip).val q = some z := by
    intro q z
    rw [hval]
    by_cases e : q = p
    · rw [e, update_self, hp]
      simp [eq_comm]
    · rw [update_of_ne e]
      simp [e]
  refine ⟨h.steps.snoc (.inr fill), hwf, ?_, ?_⟩
  · exact ⟨frame.sb.trans h.frame.sb, frame.inum.trans h.frame.inum,
      frame.size.trans h.frame.size, frame.ftable.trans h.frame.ftable,
      frame.ops.trans h.frame.ops⟩
  · intro z
    rw [hlogged, h.logged, Demand.taken_snoc_of_none h.steps supply.1 supply.2 hp hfree, h.frame.sb]
    simp only [mem_touched, missing, Finset.mem_union, Finset.mem_singleton, List.mem_append,
      List.mem_singleton, val]
    constructor
    · rintro ((hv | ⟨q, hq, hz⟩ | ⟨b, hb, hz⟩) | hz | hz | ⟨ne, hz⟩)
      · exact .inl hv
      · refine .inr (.inl ⟨q, ?_, .inr hz⟩)
        obtain (hq | ⟨ne, r, hr, e⟩) | hq := hq
        · exact .inl (.inl (.inl hq))
        · exact .inl (.inr ⟨ne, r, .inl hr, e⟩)
        · exact .inr hq
      · exact .inr (.inr ⟨b, .inl hb, hz⟩)
      · exact .inr (.inl ⟨p, .inl (.inl (.inr rfl)), .inl ⟨rfl, hz⟩⟩)
      · exact .inr (.inr ⟨a, .inr rfl, hz⟩)
      · exact .inr (.inl ⟨p.dropLast, .inl (.inr ⟨ne, p, .inr rfl, rfl⟩), .inr hz⟩)
    · rintro (hv | ⟨q, hq, ⟨_, hz⟩ | hz⟩ | ⟨b, hb | rfl, hz⟩)
      · exact .inl (.inl hv)
      · exact .inr (.inl hz)
      · obtain ((hq | rfl) | ⟨ne, r, hr | rfl, rfl⟩) | hq := hq
        · exact .inl (.inr (.inl ⟨q, .inl (.inl hq), hz⟩))
        · rw [hp] at hz
          cases hz
        · exact .inl (.inr (.inl ⟨_, .inl (.inr ⟨ne, r, hr, rfl⟩), hz⟩))
        · exact .inr (.inr (.inr ⟨ne, hz⟩))
        · exact .inl (.inr (.inl ⟨q, .inr hq, hz⟩))
      · exact .inl (.inr (.inr ⟨b, hb, hz⟩))
      · exact .inr (.inr (.inl hz))

/-- The block at a place without places below it is written. -/
theorem leaf (h : Written v ip ps ls w) (hp : (w.blocks ip).val p = some a) (ne : p ≠ [])
    (bottom : ∀ k, ¬ Place (p ++ [k])) (d : Block) : Written v ip ps (insert p ls) (w.write a d) := by
  have start := h.wf.high p a ne hp
  have hsb := write_sb start d
  have val : ((w.write a d).blocks ip).val = (w.blocks ip).val := by
    funext q
    by_cases hq : Place q
    · rw [val_of_place hq, val_of_place hq]
      refine Trie.walk_congr place_closed ?_ q hq
      intro r k z hr hz
      refine child_congr (fun _ => rfl) fun _ => write_data_other ?_
      rintro rfl
      have e := h.wf.sound.inj r p z ((val_of_place (place_closed r k hr)).trans hz) hp
      exact bottom k (e ▸ hr)
    · simp only [blocks, if_neg hq]
  have same : (w.write a d).blocks ip = w.blocks ip :=
    congrArg₂ Demand.State.mk val (write_free start d)
  have hstart : (w.write a d).dataStart = w.dataStart := by rw [dataStart, dataStart, hsb]
  refine ⟨same ▸ h.steps, ⟨?_, same ▸ h.wf.sound, ?_, ?_⟩, ?_, ?_⟩
  · rw [hsb]
    exact h.wf.inum
  · rw [write_free start d, hstart]
    exact h.wf.low
  · rw [hstart, same]
    exact h.wf.high
  · exact ⟨hsb.trans h.frame.sb, h.frame.inum, h.frame.size, h.frame.ftable, h.frame.ops⟩
  · intro z
    have new : z ∈ (w.write a d).logged ↔ z = a ∨ z ∈ w.logged := Finset.mem_insert
    rw [new, h.logged, same]
    simp only [Finset.mem_union, Finset.mem_insert]
    constructor
    · rintro (rfl | hv | ⟨q, hq, hz⟩ | hz)
      · exact .inr (.inl ⟨p, .inr (.inl rfl), hp⟩)
      · exact .inl hv
      · exact .inr (.inl ⟨q, hq.imp_right .inr, hz⟩)
      · exact .inr (.inr hz)
    · rintro (hv | ⟨q, hq | rfl | hq, hz⟩ | hz)
      · exact .inr (.inl hv)
      · exact .inr (.inr (.inl ⟨q, .inl hq, hz⟩))
      · exact .inl (Option.some.inj (hz.symm.trans hp))
      · exact .inr (.inr (.inl ⟨q, .inr hq, hz⟩))
      · exact .inr (.inr (.inr hz))

end Written

theorem setInode_icache (f : Inode → Inode) : (v.setInode ip f).icache ip = f (v.icache ip) :=
  update_self ..

theorem mem_alloc_logged {z : Nat} :
    z ∈ (v.alloc a).logged ↔ z = a ∨ z = bblock a v.sb.ninodes ∨ z ∈ v.logged := by
  show z ∈ insert a (insert (bblock a v.sb.ninodes) v.logged) ↔ _
  rw [Finset.mem_insert, Finset.mem_insert]

end View

/-! ## `bmap` -/

section

variable {v : View} {ip : InodePtr} {ps : List (List Nat)} {ls : Finset (List Nat)} {p : List Nat}
  {a : Nat}

/-- An address in the inode is demanded. -/
theorem bmapAddr_ok {i : Fin (ndirect + 2)} (h : v.Written ip ps ls s.view)
    (run : (bmapAddr ip i).run s = .ok (a, t)) :
    v.Written ip (ps ++ [[i.val]]) ls t.view ∧ (t.view.blocks ip).val [i.val] = some a := by
  have place : Place ([] ++ [i.val]) := i.isLt
  have here : (s.view.blocks ip).val [i.val] = pointer ((s.icache ip).addrs i) := by
    rw [View.val_of_place (p := [i.val]) i.isLt]
    exact (Trie.walk_snoc [] i.val).trans (View.child_inode i)
  simp only [bmapAddr, FsM.get_bind] at run
  split at run
  · rename_i zero
    obtain ⟨b, u, hb, run⟩ := FsM.bind_ok.mp run
    obtain ⟨_, u', hset, run⟩ := FsM.bind_ok.mp run
    cases run
    obtain ⟨hu, size, clear, least⟩ := balloc_ok hb
    have hview := setInode_ok hset
    rw [hu] at hview
    have ne : a ≠ 0 := by
      have := h.wf.low a (View.mem_free.mpr ⟨size, clear⟩)
      have := s.view.dataStart_pos
      omega
    have inode : t.view.icache ip =
        { s.icache ip with addrs := update (s.icache ip).addrs i a } := by
      rw [hview]
      exact View.setInode_icache _
    obtain ⟨hsb, hwf, hfree, hval⟩ := h.wf.grow (w := t.view) place View.val_nil
      ((View.child_inode i).trans (pointer_eq_none.mpr zero)) size clear least
      (by rw [inode]; rfl) (fun z _ _ => by rw [hview]; rfl) (fun e => absurd rfl e)
      (by rw [View.child_inode, inode]; simp [pointer_of_ne ne])
      (fun k hk place => by
        have e : (⟨k, place⟩ : Fin (ndirect + 2)) ≠ i := fun e => hk (congrArg Fin.val e)
        rw [View.child_inode ⟨k, place⟩, View.child_inode ⟨k, place⟩, inode]
        exact congrArg pointer (update_of_ne e ..))
    refine ⟨h.absent (here.trans (pointer_eq_none.mpr zero)) hwf ?_ hfree hval ?_, ?_⟩
    · exact ⟨hsb, by rw [inode]; rfl, by rw [inode]; rfl, by rw [hview]; rfl, by rw [hview]; rfl⟩
    · intro z
      have logged : t.view.logged = (s.view.alloc a).logged := by rw [hview]; rfl
      rw [logged, View.mem_alloc_logged]
      simp only [List.dropLast_singleton, ne_eq, not_true_eq_false, false_and, or_false]
      tauto
    · rw [hval]
      exact update_self ..
  · rename_i ne
    cases run
    have there := here.trans (pointer_of_ne ne)
    exact ⟨h.present there, there⟩

theorem place_index {j : Nat} (hp : p ≠ []) (h : Place (p ++ [j])) : j < nindirect := by
  match p with
  | [] => exact absurd rfl hp
  | [i] => exact h.2.2
  | [i, k] => exact h.2.2
  | i :: k :: l :: rest => cases rest <;> cases h

/-- An entry of an index block is demanded. -/
theorem bmapEntry_ok {block j : Nat} (h : v.Written ip ps ls s.view) (hp : p ≠ [])
    (place : Place (p ++ [j])) (parent : (s.view.blocks ip).val p = some block)
    (run : (bmapEntry block j).run s = .ok (a, t)) :
    v.Written ip (ps ++ [p ++ [j]]) ls t.view ∧ (t.view.blocks ip).val (p ++ [j]) = some a := by
  have index := place_index hp place
  have low := h.wf.high p block hp parent
  have pos := s.view.dataStart_pos
  have ne : block ≠ 0 := by omega
  have child : s.view.child ip block j = pointer ((s.view.data block).word j) :=
    View.child_block ne j
  have here : (s.view.blocks ip).val (p ++ [j]) = pointer ((s.view.data block).word j) := by
    rw [View.val_of_place place, Trie.walk_snoc, ← View.val_of_place (place_closed p j place),
      parent]
    exact child
  obtain ⟨bp, u, hread, run⟩ := FsM.bind_ok.mp run
  obtain ⟨rfl, hu⟩ := bread_ok hread
  dsimp only at run
  split at run
  · rename_i zero
    obtain ⟨b, u₁, hb, run⟩ := FsM.bind_ok.mp run
    obtain ⟨_, u₂, hwrite, run⟩ := FsM.bind_ok.mp run
    cases run
    obtain ⟨hu₁, size, clear, least⟩ := balloc_ok hb
    rw [hu] at hu₁ size clear least
    have hview := logWrite_ok hwrite
    rw [hu₁] at hview
    have start := h.wf.low a (View.mem_free.mpr ⟨size, clear⟩)
    have small : a < 2 ^ 32 := size.trans (Block.word_lt ..)
    have self : t.view.data block = (s.view.data block).setWord j a := by
      rw [hview]
      exact update_self ..
    have icache : t.view.icache = s.view.icache := by rw [hview]; rfl
    obtain ⟨hsb, hwf, hfree, hval⟩ := h.wf.grow (w := t.view) place parent
      (child.trans (pointer_eq_none.mpr zero)) size clear least (by rw [icache])
      (fun z hz _ => by rw [hview, View.write_data_other hz]) (fun _ => by rw [icache])
      (by
        have inside : 4 * j + 3 < bsize := by
          have : nindirect = 128 := rfl
          have : bsize = 512 := rfl
          omega
        rw [View.child_block ne, self, Block.word_setWord_self inside, Nat.mod_eq_of_lt small]
        exact pointer_of_ne (by omega))
      (fun k hk _ => by
        rw [View.child_block ne, View.child_block ne, self, Block.word_setWord_of_ne hk])
    refine ⟨h.absent (here.trans (pointer_eq_none.mpr zero)) hwf ?_ hfree hval ?_, ?_⟩
    · exact ⟨hsb, by rw [icache], by rw [icache], by rw [hview]; rfl, by rw [hview]; rfl⟩
    · intro z
      have logged : t.view.logged = insert block (s.view.alloc a).logged := by rw [hview]; rfl
      rw [logged, Finset.mem_insert, View.mem_alloc_logged, List.dropLast_concat, parent,
        Option.some_inj, eq_comm (a := block)]
      tauto
    · rw [hval]
      exact update_self ..
  · rename_i there
    cases run
    rw [hu]
    have there := here.trans (pointer_of_ne there)
    exact ⟨h.present there, there⟩

/-- The places on the way to a block of the file, the block itself last. -/
def path (bn : Nat) : List (List Nat) :=
  if bn < ndirect then
    [[bn]]
  else if bn - ndirect < nindirect then
    [[ndirect], [ndirect, bn - ndirect]]
  else
    let bn := bn - ndirect - nindirect
    [[ndirect + 1], [ndirect + 1, bn / nindirect], [ndirect + 1, bn / nindirect, bn % nindirect]]

/-- The place of block `bn`. -/
def leaf (bn : Nat) : List Nat := (path bn).getLastD []

theorem leaf_mem_path (bn : Nat) : leaf bn ∈ path bn := by
  rw [leaf, path]
  split
  · simp
  · split <;> simp

theorem leaf_ne_nil (bn : Nat) : leaf bn ≠ [] := by
  rw [leaf, path]
  split
  · simp
  · split <;> simp

/-- Blocks with data are at the bottom of the map. -/
theorem leaf_bottom (bn k : Nat) : ¬ Place (leaf bn ++ [k]) := by
  rw [leaf, path]
  split
  · rename_i direct
    exact fun h => absurd h.1 (by omega)
  · split
    · exact fun h => absurd h.1 (by decide)
    · exact id

/-- Blocks of a file are at different places. -/
theorem leaf_inj {bn bn' : Nat} (h : leaf bn = leaf bn') : bn = bn' := by
  have size : nindirect = 128 := rfl
  simp only [leaf, path] at h
  split at h
  · split at h
    · simpa using h
    · split at h
      · simp at h
      · simp at h
  · split at h
    · split at h
      · simp at h
      · split at h
        · simp at h
          omega
        · simp at h
    · split at h
      · simp at h
      · split at h
        · simp at h
        · simp [size] at h
          omega

/-- `bmap` demands the places on the way to the block and returns its number. -/
theorem bmap_ok {bn : Nat} (h : v.Written ip ps ls s.view) (run : (bmap ip bn).run s = .ok (a, t)) :
    v.Written ip (ps ++ path bn) ls t.view ∧ (t.view.blocks ip).val (leaf bn) = some a := by
  rw [bmap] at run
  rw [leaf, path]
  split at run
  · rename_i direct
    rw [if_pos direct]
    exact bmapAddr_ok h run
  · rename_i direct
    rw [if_neg direct]
    split at run
    · rename_i single
      rw [if_pos single]
      obtain ⟨addr, u, hu, run⟩ := FsM.bind_ok.mp run
      obtain ⟨h₁, v₁⟩ := bmapAddr_ok h hu
      have place : Place ([ndirect] ++ [bn - ndirect]) := ⟨le_rfl, by decide, single⟩
      obtain ⟨h₂, v₂⟩ := bmapEntry_ok h₁ (by simp) place v₁ run
      rw [List.append_assoc] at h₂
      exact ⟨h₂, v₂⟩
    · rename_i single
      rw [if_neg single]
      split at run
      · rename_i double
        obtain ⟨addr, u, hu, run⟩ := FsM.bind_ok.mp run
        obtain ⟨addr', u', hu', run⟩ := FsM.bind_ok.mp run
        obtain ⟨h₁, v₁⟩ := bmapAddr_ok h hu
        have first : (bn - ndirect - nindirect) / nindirect < nindirect :=
          Nat.div_lt_of_lt_mul double
        have second : (bn - ndirect - nindirect) % nindirect < nindirect :=
          Nat.mod_lt _ (by decide)
        have place : Place ([ndirect + 1] ++ [(bn - ndirect - nindirect) / nindirect]) :=
          ⟨by decide, by decide, first⟩
        obtain ⟨h₂, v₂⟩ := bmapEntry_ok h₁ (by simp) place v₁ hu'
        have place : Place ([ndirect + 1, (bn - ndirect - nindirect) / nindirect] ++
            [(bn - ndirect - nindirect) % nindirect]) := ⟨rfl, first, second⟩
        obtain ⟨h₃, v₃⟩ := bmapEntry_ok h₂ (by simp) place v₂ run
        rw [List.append_assoc, List.append_assoc] at h₃
        exact ⟨h₃, v₃⟩
      · cases run

end

end Xv6Gui
