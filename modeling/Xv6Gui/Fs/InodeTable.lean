import Xv6Gui.Fs.Icache
import Xv6Gui.Fs.Volume

/-!
# The inodes the code sees

An inode is on the disk, and while it is in use it is also in memory.  The copy in
memory is the newer one: `bmap` stores the number of a block it allocates there, and
only `iupdate` copies it to the disk.  So the inode the code sees is the copy in
memory if there is one that has been read, else the inode on the disk.

This gives the tree of the files for a state in the middle of its work.
-/

namespace Xv6Gui

/-! ## Inodes on the disk -/

/-- The fields of an inode have room on the disk. -/
structure Dinode.Fits (d : Dinode) : Prop where
  type : -2 ^ 15 ≤ d.type ∧ d.type < 2 ^ 15
  major : -2 ^ 15 ≤ d.major ∧ d.major < 2 ^ 15
  minor : -2 ^ 15 ≤ d.minor ∧ d.minor < 2 ^ 15
  nlink : -2 ^ 15 ≤ d.nlink ∧ d.nlink < 2 ^ 15
  size : d.size < 2 ^ 32
  addrs : ∀ k, d.addrs k < 2 ^ 32

theorem short_zero : -2 ^ 15 ≤ (0 : Int) ∧ (0 : Int) < 2 ^ 15 := by decide

theorem newDinode_fits {type : Int} (range : -2 ^ 15 ≤ type ∧ type < 2 ^ 15) :
    (newDinode type).Fits :=
  ⟨range, short_zero, short_zero, short_zero, Nat.two_pow_pos 32, fun _ => Nat.two_pow_pos 32⟩

theorem ofShort_lt (v : Int) : ofShort v < 2 ^ 16 := by
  rw [ofShort]
  omega

theorem toShort_ofShort {v : Int} (h : -2 ^ 15 ≤ v ∧ v < 2 ^ 15) : toShort (ofShort v) = v := by
  rw [toShort, ofShort]
  split <;> omega

theorem toShort_range {w : Nat} (h : w < 2 ^ 16) : -2 ^ 15 ≤ toShort w ∧ toShort w < 2 ^ 15 := by
  rw [toShort]
  split <;> omega

namespace Block

variable {b : Block} {d : Dinode} {i j : Nat}

theorem word_setAddrs {base w : Nat} {ks : List (Fin (ndirect + 2))}
    (h : ∀ k ∈ ks, w ≠ base + k.val) :
    (ks.foldl (fun b k => b.setWord (base + k.val) (d.addrs k)) b).word w = b.word w := by
  induction ks generalizing b with
  | nil => rfl
  | cons k ks ih =>
    rw [List.foldl_cons, ih fun l hl => h l (List.mem_cons_of_mem _ hl),
      word_setWord_of_ne (h k List.mem_cons_self)]

theorem word_setAddrs_mem {base : Nat} {ks : List (Fin (ndirect + 2))} {k : Fin (ndirect + 2)}
    (hk : k ∈ ks) (inside : 4 * (base + k.val) + 3 < bsize) :
    (ks.foldl (fun b k => b.setWord (base + k.val) (d.addrs k)) b).word (base + k.val) =
      d.addrs k % 2 ^ 32 := by
  induction ks generalizing b with
  | nil => cases hk
  | cons l ks ih =>
    by_cases later : k ∈ ks
    · exact ih later
    · obtain rfl | mem := List.mem_cons.mp hk
      · rw [List.foldl_cons, word_setAddrs, word_setWord_self inside]
        intro l hl e
        exact later (Fin.ext (Nat.add_left_cancel e) ▸ hl)
      · exact absurd mem later

/-- The words of an inode that was stored. -/
theorem word_setDinode (hi : i < ipb) :
    (b.setDinode i d).word (16 * i) = ofShort d.type + 2 ^ 16 * ofShort d.major ∧
      (b.setDinode i d).word (16 * i + 1) = ofShort d.minor + 2 ^ 16 * ofShort d.nlink ∧
      (b.setDinode i d).word (16 * i + 2) = d.size % 2 ^ 32 ∧
      ∀ k : Fin (ndirect + 2), (b.setDinode i d).word (16 * i + 3 + k.val) = d.addrs k % 2 ^ 32 := by
  have small : i < 8 := hi
  have size : bsize = 512 := rfl
  have type := ofShort_lt d.type
  have major := ofShort_lt d.major
  have minor := ofShort_lt d.minor
  have nlink := ofShort_lt d.nlink
  refine ⟨?_, ?_, ?_, ?_⟩
  · rw [setDinode, word_setAddrs fun k _ => by omega, word_setWord_of_ne (by omega),
      word_setWord_of_ne (by omega), word_setWord_self (by omega)]
    omega
  · rw [setDinode, word_setAddrs fun k _ => by omega, word_setWord_of_ne (by omega),
      word_setWord_self (by omega)]
    omega
  · rw [setDinode, word_setAddrs fun k _ => by omega, word_setWord_self (by omega)]
  · intro k
    have := k.isLt
    have : ndirect = 11 := rfl
    rw [setDinode, word_setAddrs_mem (List.mem_finRange k) (by omega)]

/-- An inode on disk is what was stored. -/
theorem dinode_setDinode_self (hi : i < ipb) (fits : d.Fits) : (b.setDinode i d).dinode i = d := by
  obtain ⟨w₀, w₁, w₂, w₃⟩ := word_setDinode (b := b) (d := d) hi
  have type := ofShort_lt d.type
  have minor := ofShort_lt d.minor
  have addrs : (fun k : Fin (ndirect + 2) => (b.setDinode i d).word (16 * i + (3 + k.val))) =
      d.addrs := by
    funext k
    rw [← Nat.add_assoc, w₃, Nat.mod_eq_of_lt (fits.addrs k)]
  simp only [dinode, Nat.add_zero, w₀, w₁, w₂, Nat.mod_eq_of_lt fits.size, addrs]
  rw [Nat.add_mul_mod_self_left, Nat.mod_eq_of_lt type, toShort_ofShort fits.type,
    Nat.add_mul_div_left _ _ (by decide), Nat.div_eq_of_lt type, Nat.zero_add,
    toShort_ofShort fits.major, Nat.add_mul_mod_self_left, Nat.mod_eq_of_lt minor,
    toShort_ofShort fits.minor, Nat.add_mul_div_left _ _ (by decide), Nat.div_eq_of_lt minor,
    Nat.zero_add, toShort_ofShort fits.nlink]

/-- The other inodes in the block stay. -/
theorem dinode_setDinode_of_ne (h : j ≠ i) : (b.setDinode i d).dinode j = b.dinode j := by
  have words : ∀ k < 16, (b.setDinode i d).word (16 * j + k) = b.word (16 * j + k) := by
    intro k hk
    have : ∀ l : Fin (ndirect + 2), l.val < 13 := fun l => l.isLt
    rw [setDinode, word_setAddrs, word_setWord_of_ne (by omega), word_setWord_of_ne (by omega),
      word_setWord_of_ne (by omega)]
    intro l _
    have := this l
    omega
  have addrs : ∀ k : Fin (ndirect + 2), (b.setDinode i d).word (16 * j + (3 + k.val)) =
      b.word (16 * j + (3 + k.val)) := by
    intro k
    have : k.val < 13 := k.isLt
    exact words _ (by omega)
  simp only [dinode, words 0 (by decide), words 1 (by decide), words 2 (by decide), addrs]

/-- An inode read from a block has room on the disk. -/
theorem dinode_fits (b : Block) (i : Nat) : (b.dinode i).Fits := by
  have low : ∀ w, b.word w % 2 ^ 16 < 2 ^ 16 := fun w => Nat.mod_lt _ (by decide)
  have high : ∀ w, b.word w / 2 ^ 16 < 2 ^ 16 := fun w => Nat.div_lt_of_lt_mul (b.word_lt w)
  exact ⟨toShort_range (low _), toShort_range (high _), toShort_range (low _),
    toShort_range (high _), b.word_lt _, fun k => b.word_lt _⟩

end Block

/-! ## Inodes on the disk and in memory -/

theorem le_bblock (b n : Nat) : n / ipb + 3 ≤ bblock b n := by
  rw [bblock, Nat.add_assoc]
  exact Nat.le_add_left ..

theorem one_lt_iblock (i : Nat) : 1 < iblock i := Nat.lt_add_left _ (by decide)

/-- An inode is found by its block and its index in the block. -/
theorem iblock_inj {i j : Nat} (h : iblock i = iblock j) (hm : i % ipb = j % ipb) : i = j := by
  have div : i / ipb = j / ipb := by
    rw [iblock, iblock] at h
    omega
  rw [← Nat.div_add_mod i ipb, ← Nat.div_add_mod j ipb, div, hm]

namespace View

/-- An inode on the disk. -/
def dnode (v : View) (i : Nat) : Dinode := (v.data (iblock i)).dinode (i % ipb)

/-- The copy of an inode in memory. -/
def cached (v : View) (i : Nat) : Option InodePtr :=
  (List.finRange ninode).find? fun ip =>
    0 < (v.icache ip).ref ∧ (v.icache ip).valid ∧ (v.icache ip).inum = i

/-- An inode as the code sees it. -/
def current (v : View) (i : Nat) : Dinode :=
  match v.cached i with
  | some ip => (v.icache ip).toDinode
  | none => v.dnode i

/-- The inodes and blocks as the code sees them. -/
def vol (v : View) : Volume where
  data := v.data
  inode i := if i < v.sb.slots then v.current i else newDinode 0

variable {v w : View} {ip : InodePtr} {i b : Nat} {d : Block}

theorem cached_eq_some (h : v.cached i = some ip) :
    0 < (v.icache ip).ref ∧ (v.icache ip).valid = true ∧ (v.icache ip).inum = i := by
  simpa using List.find?_some h

theorem cached_eq_none (h : v.cached i = none) (ip : InodePtr) :
    ¬ (0 < (v.icache ip).ref ∧ (v.icache ip).valid = true ∧ (v.icache ip).inum = i) := by
  simpa using List.find?_eq_none.mp h ip (List.mem_finRange ip)

/-- The inode on disk is the one in memory, but for blocks that are not recorded
yet. -/
structure Behind (d e : Dinode) : Prop where
  type : d.type = e.type
  major : d.major = e.major
  minor : d.minor = e.minor
  nlink : d.nlink = e.nlink
  size : d.size = e.size
  addrs : ∀ k, d.addrs k = e.addrs k ∨ d.addrs k = 0

theorem Behind.refl (d : Dinode) : Behind d d := ⟨rfl, rfl, rfl, rfl, rfl, fun _ => .inl rfl⟩

/-- The inode table.  There is at most one copy of an inode in use, and it agrees with
the disk. -/
structure Coherent (v : View) : Prop where
  nonneg : ∀ ip, 0 ≤ (v.icache ip).ref
  inum : ∀ ip, 0 < (v.icache ip).ref → (v.icache ip).inum < v.sb.slots
  uniq : ∀ ip ip', 0 < (v.icache ip).ref → 0 < (v.icache ip').ref →
    (v.icache ip).inum = (v.icache ip').inum → ip = ip'
  fits : ∀ ip, 0 < (v.icache ip).ref → (v.icache ip).valid = true → (v.icache ip).toDinode.Fits
  type : ∀ ip, 0 < (v.icache ip).ref → (v.icache ip).valid = true → (v.icache ip).type ≠ 0
  disk : ∀ ip, 0 < (v.icache ip).ref → (v.icache ip).valid = true →
    Behind (v.dnode (v.icache ip).inum) (v.icache ip).toDinode

theorem Coherent.cached (h : v.Coherent) (href : 0 < (v.icache ip).ref)
    (hvalid : (v.icache ip).valid = true) : v.cached (v.icache ip).inum = some ip := by
  cases hc : v.cached (v.icache ip).inum with
  | none => exact absurd ⟨href, hvalid, rfl⟩ (cached_eq_none hc ip)
  | some ip' =>
    obtain ⟨href', _, hinum⟩ := cached_eq_some hc
    rw [h.uniq ip' ip href' href hinum]

theorem Coherent.current (h : v.Coherent) (href : 0 < (v.icache ip).ref)
    (hvalid : (v.icache ip).valid = true) :
    v.current (v.icache ip).inum = (v.icache ip).toDinode := by
  rw [View.current, h.cached href hvalid]

theorem current_of_disk (h : ∀ ip, 0 < (v.icache ip).ref → (v.icache ip).valid = true →
    (v.icache ip).inum ≠ i) : v.current i = v.dnode i := by
  rw [current]
  split
  · rename_i ip hip
    obtain ⟨href, hvalid, hinum⟩ := cached_eq_some hip
    exact absurd hinum (h ip href hvalid)
  · rfl

/-- The tables of inodes and the inodes on disk determine the inodes. -/
theorem current_congr (hi : w.icache = v.icache) (hd : w.dnode i = v.dnode i) :
    w.current i = v.current i := by
  have cached : w.cached i = v.cached i := by rw [View.cached, View.cached, hi]
  rw [current, current, cached]
  split
  · rw [hi]
  · exact hd

/-- The inodes on disk change, but not those that have been read. -/
theorem Coherent.of_disk (h : v.Coherent) (hi : w.icache = v.icache) (hsb : w.sb = v.sb)
    (hd : ∀ ip, 0 < (v.icache ip).ref → (v.icache ip).valid = true →
      w.dnode (v.icache ip).inum = v.dnode (v.icache ip).inum) : w.Coherent := by
  obtain ⟨nonneg, inum, uniq, fits, type, disk⟩ := h
  refine ⟨by rwa [hi], by rwa [hi, hsb], by rwa [hi], by rwa [hi], by rwa [hi], ?_⟩
  intro ip href hvalid
  rw [hi] at href hvalid ⊢
  rw [hd ip href hvalid]
  exact disk ip href hvalid

theorem Coherent.congr (h : v.Coherent) (hi : w.icache = v.icache) (hsb : w.sb = v.sb)
    (hd : ∀ i < v.sb.slots, w.dnode i = v.dnode i) : w.Coherent :=
  h.of_disk hi hsb fun ip href _ => hd _ (h.inum ip href)

/-! ## Changes of blocks -/

theorem dnode_write (h : b ≠ iblock i) : (v.write b d).dnode i = v.dnode i := by
  rw [dnode, dnode, write_data_other h.symm]

theorem iblock_lt_dataStart (h : i < v.sb.slots) : iblock i < v.dataStart :=
  (iblock_lt h).trans_le (Nat.le_add_right ..)

theorem vol_congr (hi : w.icache = v.icache) (hsb : w.sb = v.sb)
    (hd : ∀ i < v.sb.slots, w.dnode i = v.dnode i) : w.vol = { v.vol with data := w.data } := by
  have inode : w.vol.inode = v.vol.inode := by
    funext i
    simp only [vol, hsb]
    split
    · rename_i lt
      exact current_congr hi (hd i lt)
    · rfl
  exact congrArg (Volume.mk w.data) inode

/-- A store behind the bitmap does not change the inodes. -/
theorem vol_write (h : v.dataStart ≤ b) : (v.write b d).vol = v.vol.put b d := by
  refine vol_congr rfl (write_sb h d) ?_
  intro i hi
  have := iblock_lt_dataStart hi
  exact dnode_write (by omega)

theorem sb_alloc (h : v.dataStart ≤ b) : (v.alloc b).sb = v.sb := by
  have := v.dataStart_pos
  rw [sb, alloc_data_other (by omega) (one_lt_bblock ..).ne]
  rfl

theorem dnode_alloc (h : v.dataStart ≤ b) (hi : i < v.sb.slots) :
    (v.alloc b).dnode i = v.dnode i := by
  have := iblock_lt_dataStart hi
  have := iblock_lt hi
  have := le_bblock b v.sb.ninodes
  rw [dnode, dnode, alloc_data_other (by omega) (by omega)]

theorem vol_alloc (h : v.dataStart ≤ b) :
    (v.alloc b).vol = { v.vol with data := (v.alloc b).data } :=
  vol_congr rfl (sb_alloc h) fun _ hi => dnode_alloc h hi

/-! ## Changes of an inode in memory -/

/-- An inode in memory that has been read and is in use. -/
structure Held (v : View) (ip : InodePtr) : Prop where
  ref : 0 < (v.icache ip).ref
  valid : (v.icache ip).valid = true

instance (v : View) (ip : InodePtr) : Decidable (v.Held ip) :=
  decidable_of_iff (0 < (v.icache ip).ref ∧ (v.icache ip).valid = true)
    ⟨fun h => ⟨h.1, h.2⟩, fun h => ⟨h.ref, h.valid⟩⟩

/-- The fields that say which inode a slot of the table holds stay. -/
structure SameSlot (old new : Inode) : Prop where
  inum : new.inum = old.inum
  ref : new.ref = old.ref
  valid : new.valid = old.valid

theorem setInode_icache_of_ne {ip' : InodePtr} (h : ip' ≠ ip) (f : Inode → Inode) :
    (v.setInode ip f).icache ip' = v.icache ip' :=
  Function.update_of_ne h ..

theorem cached_setInode {f : Inode → Inode} (same : SameSlot (v.icache ip) (f (v.icache ip)))
    (i : Nat) : (v.setInode ip f).cached i = v.cached i := by
  rw [View.cached, View.cached]
  congr 1
  funext ip'
  by_cases e : ip' = ip
  · rw [e, setInode_icache, same.inum, same.ref, same.valid]
  · rw [setInode_icache_of_ne e]

theorem current_setInode {f : Inode → Inode} (h : v.Coherent) (held : v.Held ip)
    (same : SameSlot (v.icache ip) (f (v.icache ip))) (i : Nat) :
    (v.setInode ip f).current i =
      if i = (v.icache ip).inum then (f (v.icache ip)).toDinode else v.current i := by
  have cached := cached_setInode same i
  have disk : (v.setInode ip f).dnode i = v.dnode i := rfl
  split
  · rename_i e
    rw [current, cached, e, h.cached held.ref held.valid]
    exact congrArg Inode.toDinode (setInode_icache f)
  · rename_i e
    rw [current, current, cached]
    split
    · rename_i ip' hip'
      have ne : ip' ≠ ip := by
        rintro rfl
        exact e (cached_eq_some hip').2.2.symm
      rw [setInode_icache_of_ne ne]
    · exact disk

/-- An inode that is not in the slot that changes. -/
theorem current_of_slot (other : ∀ ip' ≠ ip, w.icache ip' = v.icache ip')
    (old : v.Held ip → (v.icache ip).inum ≠ i) (new : w.Held ip → (w.icache ip).inum ≠ i)
    (hd : w.dnode i = v.dnode i) : w.current i = v.current i := by
  have no : ∀ u : View, (u.Held ip → (u.icache ip).inum ≠ i) →
      ¬ (0 < (u.icache ip).ref ∧ (u.icache ip).valid = true ∧ (u.icache ip).inum = i) := by
    rintro u hu ⟨href, hvalid, hinum⟩
    exact hu ⟨href, hvalid⟩ hinum
  have cached : w.cached i = v.cached i := by
    rw [View.cached, View.cached]
    congr 1
    funext ip'
    by_cases e : ip' = ip
    · rw [e, decide_eq_false (no v old), decide_eq_false (no w new)]
    · rw [other ip' e]
  rw [current, current, cached]
  split
  · rename_i ip' hip'
    have ne : ip' ≠ ip := by
      rintro rfl
      exact no v old (cached_eq_some hip')
    rw [other ip' ne]
  · exact hd

/-- A slot changes, but not the inode in it. -/
theorem current_of_same (other : ∀ ip' ≠ ip, w.icache ip' = v.icache ip')
    (ref : 0 < (w.icache ip).ref ↔ 0 < (v.icache ip).ref)
    (inum : (w.icache ip).inum = (v.icache ip).inum)
    (valid : (w.icache ip).valid = (v.icache ip).valid)
    (inode : (w.icache ip).toDinode = (v.icache ip).toDinode) (hd : w.dnode i = v.dnode i) :
    w.current i = v.current i := by
  have cached : w.cached i = v.cached i := by
    rw [View.cached, View.cached]
    congr 1
    funext ip'
    by_cases e : ip' = ip
    · rw [e, inum, valid, decide_eq_decide]
      exact and_congr ref Iff.rfl
    · rw [other ip' e]
  rw [current, current, cached]
  split
  · rename_i ip' _
    by_cases e : ip' = ip
    · rw [e, inode]
    · rw [other ip' e]
  · exact hd

/-- A slot changes, and what it holds is still sound. -/
theorem Coherent.update (h : v.Coherent) (ip : InodePtr) (hsb : w.sb = v.sb)
    (other : ∀ ip' ≠ ip, w.icache ip' = v.icache ip')
    (hd : ∀ ip' ≠ ip, 0 < (v.icache ip').ref →
      w.dnode (v.icache ip').inum = v.dnode (v.icache ip').inum)
    (nonneg : 0 ≤ (w.icache ip).ref)
    (inum : 0 < (w.icache ip).ref → (w.icache ip).inum < v.sb.slots ∧
      ∀ ip' ≠ ip, 0 < (v.icache ip').ref → (v.icache ip').inum ≠ (w.icache ip).inum)
    (valid : w.Held ip → (w.icache ip).toDinode.Fits ∧ (w.icache ip).type ≠ 0 ∧
      Behind (w.dnode (w.icache ip).inum) (w.icache ip).toDinode) : w.Coherent := by
  constructor
  · intro ip'
    by_cases e : ip' = ip
    · rw [e]
      exact nonneg
    · rw [other ip' e]
      exact h.nonneg ip'
  · intro ip' href
    rw [hsb]
    by_cases e : ip' = ip
    · rw [e] at href ⊢
      exact (inum href).1
    · rw [other ip' e] at href ⊢
      exact h.inum ip' href
  · intro ip₁ ip₂ href₁ href₂ same
    by_cases e₁ : ip₁ = ip
    · by_cases e₂ : ip₂ = ip
      · rw [e₁, e₂]
      · rw [e₁] at href₁ same
        rw [other ip₂ e₂] at href₂ same
        exact absurd same.symm ((inum href₁).2 ip₂ e₂ href₂)
    · rw [other ip₁ e₁] at href₁ same
      by_cases e₂ : ip₂ = ip
      · rw [e₂] at href₂ same
        exact absurd same ((inum href₂).2 ip₁ e₁ href₁)
      · rw [other ip₂ e₂] at href₂ same
        exact h.uniq ip₁ ip₂ href₁ href₂ same
  · intro ip' href hvalid
    by_cases e : ip' = ip
    · subst e
      exact (valid ⟨href, hvalid⟩).1
    · rw [other ip' e] at href hvalid ⊢
      exact h.fits ip' href hvalid
  · intro ip' href hvalid
    by_cases e : ip' = ip
    · subst e
      exact (valid ⟨href, hvalid⟩).2.1
    · rw [other ip' e] at href hvalid ⊢
      exact h.type ip' href hvalid
  · intro ip' href hvalid
    by_cases e : ip' = ip
    · subst e
      exact (valid ⟨href, hvalid⟩).2.2
    · rw [other ip' e] at href hvalid ⊢
      rw [hd ip' e href]
      exact h.disk ip' href hvalid

/-! ## Changes of an inode in memory and on the disk -/

/-- Store an inode on the disk. -/
def putDinode (v : View) (i : Nat) (d : Dinode) : View :=
  v.write (iblock i) ((v.data (iblock i)).setDinode (i % ipb) d)

theorem putDinode_dnode_self (v : View) (i : Nat) {d : Dinode} (fits : d.Fits) :
    (v.putDinode i d).dnode i = d := by
  have data : (v.putDinode i d).data (iblock i) = (v.data _).setDinode _ _ :=
    Function.update_self ..
  rw [dnode, data, Block.dinode_setDinode_self (Nat.mod_lt _ (by decide)) fits]

theorem putDinode_dnode_other {j : Nat} {d : Dinode} (h : j ≠ i) :
    (v.putDinode i d).dnode j = v.dnode j := by
  by_cases e : iblock j = iblock i
  · have data : (v.putDinode i d).data (iblock i) = (v.data _).setDinode _ _ :=
      Function.update_self ..
    have index : j % ipb ≠ i % ipb := fun hm => h (iblock_inj e hm)
    rw [dnode, e, data, Block.dinode_setDinode_of_ne index, dnode, e]
  · exact dnode_write (Ne.symm e)

theorem putDinode_data {d : Dinode} {z : Nat} (h : z ≠ iblock i) :
    (v.putDinode i d).data z = v.data z :=
  write_data_other h

theorem putDinode_icache (v : View) (i : Nat) (d : Dinode) :
    (v.putDinode i d).icache = v.icache := rfl

theorem putDinode_sb (v : View) (i : Nat) (d : Dinode) : (v.putDinode i d).sb = v.sb := by
  rw [sb, putDinode_data (one_lt_iblock _).ne]
  rfl

/-- `iupdate`. -/
def sync (v : View) (ip : InodePtr) : View :=
  v.putDinode (v.icache ip).inum (v.icache ip).toDinode

/-- An inode in memory is changed and copied to the disk. -/
def store (v : View) (ip : InodePtr) (f : Inode → Inode) : View := (v.setInode ip f).sync ip

section store

variable {f : Inode → Inode}

theorem store_icache : (v.store ip f).icache ip = f (v.icache ip) := setInode_icache f

theorem store_icache_other {ip' : InodePtr} (h : ip' ≠ ip) :
    (v.store ip f).icache ip' = v.icache ip' :=
  setInode_icache_of_ne h f

variable (same : SameSlot (v.icache ip) (f (v.icache ip)))

include same

theorem store_dnode_self (fits : (f (v.icache ip)).toDinode.Fits) :
    (v.store ip f).dnode (v.icache ip).inum = (f (v.icache ip)).toDinode := by
  have new := putDinode_dnode_self (v.setInode ip f) (v.icache ip).inum fits
  rwa [← same.inum, ← setInode_icache f] at new ⊢

theorem store_dnode_other (h : i ≠ (v.icache ip).inum) : (v.store ip f).dnode i = v.dnode i := by
  refine putDinode_dnode_other (v := v.setInode ip f) ?_
  rwa [setInode_icache, same.inum]

theorem store_data {z : Nat} (h : z ≠ iblock (v.icache ip).inum) :
    (v.store ip f).data z = v.data z := by
  refine putDinode_data (v := v.setInode ip f) ?_
  rwa [setInode_icache, same.inum]

theorem store_sb : (v.store ip f).sb = v.sb := by
  rw [sb, store_data same (one_lt_iblock _).ne]
  rfl

theorem store_logged :
    (v.store ip f).logged = insert (iblock (v.icache ip).inum) v.logged := by
  have inum : ((v.setInode ip f).icache ip).inum = (v.icache ip).inum := by
    rw [setInode_icache, same.inum]
  rw [store, sync, inum]
  rfl

/-- What is behind the inodes stays. -/
theorem store_data_of_le {z : Nat} (h : v.Coherent) (href : 0 < (v.icache ip).ref)
    (le : v.sb.ninodes / ipb + 3 ≤ z) : (v.store ip f).data z = v.data z := by
  have := iblock_lt (h.inum ip href)
  exact store_data same (by omega)

theorem store_current (h : v.Coherent) (held : v.Held ip) (i : Nat) :
    (v.store ip f).current i =
      if i = (v.icache ip).inum then (f (v.icache ip)).toDinode else v.current i := by
  split
  · rename_i e
    have cached : (v.store ip f).cached i = some ip := by
      rw [e, ← h.cached held.ref held.valid]
      exact cached_setInode same _
    rw [current, cached]
    exact congrArg Inode.toDinode store_icache
  · rename_i e
    have new := current_setInode h held same i
    rw [if_neg e] at new
    rw [← new]
    exact current_congr rfl (store_dnode_other same e)

end store

/-- Store an address of an inode. -/
def setAddr (v : View) (ip : InodePtr) (k : Fin (ndirect + 2)) (a : Nat) : View :=
  v.setInode ip fun inode => { inode with addrs := Function.update inode.addrs k a }

theorem vol_setAddr (h : v.Coherent) (held : v.Held ip) (k : Fin (ndirect + 2)) (a : Nat) :
    (v.setAddr ip k a).vol = v.vol.link (.inode (v.icache ip).inum) k a := by
  have addrs : (fun l : Fin (ndirect + 2) => if l.val = k.val then a else (v.icache ip).addrs l) =
      Function.update (v.icache ip).addrs k a := by
    funext l
    by_cases e : l = k
    · rw [e, if_pos rfl, Function.update_self]
    · rw [if_neg fun e' => e (Fin.ext e'), Function.update_of_ne e]
  refine congrArg (Volume.mk v.data) ?_
  funext i
  have new := current_setInode (f := fun inode =>
    { inode with addrs := Function.update inode.addrs k a }) h held ⟨rfl, rfl, rfl⟩ i
  by_cases e : i = (v.icache ip).inum
  · have inside : i < v.sb.slots := e ▸ h.inum ip held.ref
    rw [if_pos e] at new
    rw [e, Function.update_self, ← e]
    refine (if_pos inside).trans (new.trans ?_)
    have old : v.vol.inode i = (v.icache ip).toDinode := by
      rw [vol]
      simp only [if_pos inside]
      rw [e]
      exact h.current held.ref held.valid
    rw [old, ← addrs]
  · rw [Function.update_of_ne e]
    rw [if_neg e] at new
    show (if i < v.sb.slots then _ else _) = if i < v.sb.slots then _ else _
    rw [← new]
    rfl

end View

end Xv6Gui
