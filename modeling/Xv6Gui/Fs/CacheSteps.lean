import Xv6Gui.Fs.Truncate

/-!
# The inode table and the files

What the functions for references and locks do to the files.  Most change nothing:
an inode is read from the disk, or its slot gets another reference.  When the last
reference to an inode is dropped, blocks that were allocated for it but never
recorded on the disk are lost; and if it has no links it is freed.  `ialloc` gives
an inode without blocks.
-/

namespace Xv6Gui

open FsM (bind_ok get_bind)

variable {s t : Fs} {ip : InodePtr} {top : Nat}

/-! ## Sound states -/

namespace View

/-- Blocks are owned, and the inode table agrees with the disk. -/
structure Good (v : View) (top : Nat) : Prop where
  start : v.dataStart ≤ top
  owned : v.Owned top
  coherent : v.Coherent

/-- A call keeps the state sound, and it logs only blocks below `top`. -/
structure Keeps (top : Nat) (v w : View) : Prop where
  good : w.Good top
  sb : w.sb = v.sb
  logged : ∀ z ∈ w.logged, z ∈ v.logged ∨ z < top

variable {v w u : View}

theorem Good.inUse (h : v.Good top) (held : v.Held ip) : v.InUse top ip :=
  ⟨h.owned, h.coherent, held⟩

theorem dataStart_congr (h : w.sb = v.sb) : w.dataStart = v.dataStart := by
  rw [dataStart, dataStart, h]

theorem Keeps.refl (h : v.Good top) : Keeps top v v := ⟨h, rfl, fun _ => .inl⟩

theorem Keeps.trans (h : Keeps top v w) (k : Keeps top w u) : Keeps top v u := by
  refine ⟨k.good, k.sb.trans h.sb, ?_⟩
  intro z hz
  obtain hz | hz := k.logged z hz
  · exact h.logged z hz
  · exact .inr hz

/-- Slots change and the files stay. -/
theorem Good.slot (h : v.Good top) (data : w.data = v.data) (logged : w.logged = v.logged)
    (coherent : w.Coherent) (current : ∀ i, w.current i = v.current i) : Keeps top v w := by
  have sb : w.sb = v.sb := by rw [View.sb, View.sb, data]
  refine ⟨⟨dataStart_congr sb ▸ h.start, ?_, coherent⟩, sb, fun z hz => .inl (by rwa [← logged])⟩
  refine h.owned.shrink sb (fun _ _ => by rw [data]) ?_
  intro i k
  have same : w.vol.inode i = v.vol.inode i := by
    simp only [vol, sb, current]
  rw [same]
  exact fun type _ => ⟨type, rfl⟩

/-- The count of references and the lock of a slot are no part of the files. -/
theorem current_setSlot (ref : Inode → Int) (busy : Inode → Bool) (old : 0 < (v.icache ip).ref)
    (new : 0 < ref (v.icache ip)) (i : Nat) :
    (v.setInode ip fun inode => { inode with ref := ref inode, busy := busy inode }).current i =
      v.current i := by
  refine current_of_same (fun _ ne => setInode_icache_of_ne ne _) ?_ ?_ ?_ ?_ rfl
  · rw [setInode_icache]
    exact ⟨fun _ => old, fun _ => new⟩
  · rw [setInode_icache]
  · rw [setInode_icache]
  · rw [setInode_icache]

theorem vol_setSlot (ref : Inode → Int) (busy : Inode → Bool) (old : 0 < (v.icache ip).ref)
    (new : 0 < ref (v.icache ip)) :
    (v.setInode ip fun inode => { inode with ref := ref inode, busy := busy inode }).vol = v.vol := by
  simp only [vol, current_setSlot ref busy old new]
  rfl

/-- Only the count of references and the lock of a slot in use change. -/
theorem Good.setSlot (h : v.Good top) (ref : Inode → Int) (busy : Inode → Bool)
    (old : 0 < (v.icache ip).ref) (new : 0 < ref (v.icache ip)) :
    Keeps top v (v.setInode ip fun inode => { inode with ref := ref inode, busy := busy inode }) := by
  have apart : ∀ ip' ≠ ip, 0 < (v.icache ip').ref → (v.icache ip').inum ≠ (v.icache ip).inum := by
    intro ip' ne href same
    exact ne (h.coherent.uniq ip' ip href old same)
  refine h.slot rfl rfl ?_ (current_setSlot ref busy old new)
  refine h.coherent.update ip rfl (fun _ ne => setInode_icache_of_ne ne _) (fun _ _ _ => rfl)
    ?_ ?_ ?_
  · rw [setInode_icache]
    exact new.le
  · rw [setInode_icache]
    exact fun _ => ⟨h.coherent.inum ip old, apart⟩
  · rintro ⟨_, valid⟩
    rw [setInode_icache] at valid ⊢
    exact ⟨h.coherent.fits ip old valid, h.coherent.type ip old valid,
      h.coherent.disk ip old valid⟩

end View

/-! ## `iget` and `idup` -/

/-- `iget` counts a reference, or it takes a free slot. -/
theorem iget_ok {inum : Nat} (run : (iget inum).run s = .ok (ip, t)) :
    (0 < (s.icache ip).ref ∧ (s.icache ip).inum = inum ∧
        t.view = s.view.setInode ip fun inode => { inode with ref := inode.ref + 1 }) ∨
      ((∀ ip', 0 < (s.icache ip').ref → (s.icache ip').inum ≠ inum) ∧ (s.icache ip).ref = 0 ∧
        t.view = s.view.setInode ip fun inode =>
          { inode with inum := inum, ref := 1, busy := false, valid := false }) := by
  simp only [iget, get_bind] at run
  split at run
  · rename_i ip' found
    obtain ⟨_, u, hset, run⟩ := bind_ok.mp run
    cases run
    have hit := List.find?_some found
    simp only [gt_iff_lt, decide_eq_true_eq] at hit
    exact .inl ⟨hit.1, hit.2, setInode_ok hset⟩
  · rename_i miss
    have miss : ∀ ip', 0 < (s.icache ip').ref → (s.icache ip').inum ≠ inum := by
      intro ip' href e
      have no := List.find?_eq_none.mp miss ip' (List.mem_finRange ip')
      simp only [gt_iff_lt, decide_eq_true_eq] at no
      exact no ⟨href, e⟩
    split at run
    · rename_i ip' empty
      obtain ⟨_, u, hset, run⟩ := bind_ok.mp run
      cases run
      have empty := List.find?_some empty
      simp only [decide_eq_true_eq] at empty
      exact .inr ⟨miss, empty, setInode_ok hset⟩
    · cases run

/-- `iget` changes no inode. -/
theorem iget_current {inum : Nat} (run : (iget inum).run s = .ok (ip, t)) (i : Nat) :
    t.view.current i = s.view.current i := by
  obtain ⟨href, _, view⟩ | ⟨_, empty, view⟩ := iget_ok run
  · rw [view]
    exact View.current_setSlot (·.ref + 1) (·.busy) href (Int.add_pos href Int.one_pos) i
  · rw [view]
    refine View.current_of_slot (fun _ ne => View.setInode_icache_of_ne ne _) ?_ ?_ rfl
    · rintro ⟨href, _⟩
      have empty : (s.view.icache ip).ref = 0 := empty
      omega
    · rintro ⟨_, valid⟩
      rw [View.setInode_icache] at valid
      cases valid

theorem iget_keeps {inum : Nat} (h : s.view.Good top) (lt : inum < s.view.sb.slots)
    (run : (iget inum).run s = .ok (ip, t)) :
    View.Keeps top s.view t.view ∧ 0 < (t.icache ip).ref ∧ (t.icache ip).inum = inum := by
  have current := iget_current run
  obtain ⟨href, hinum, view⟩ | ⟨miss, empty, view⟩ := iget_ok run
  · have slot : t.icache ip = { s.icache ip with ref := (s.icache ip).ref + 1 } :=
      (congrFun (congrArg View.icache view) ip).trans (View.setInode_icache _)
    refine ⟨?_, by rw [slot]; show 0 < (s.icache ip).ref + 1; omega, by rw [slot]; exact hinum⟩
    rw [view]
    exact h.setSlot (·.ref + 1) (·.busy) href (Int.add_pos href Int.one_pos)
  · have slot : t.icache ip =
        { s.icache ip with inum := inum, ref := 1, busy := false, valid := false } :=
      (congrFun (congrArg View.icache view) ip).trans (View.setInode_icache _)
    refine ⟨?_, by rw [slot]; exact Int.one_pos, by rw [slot]⟩
    rw [view] at current ⊢
    refine h.slot rfl rfl ?_ current
    refine h.coherent.update ip rfl (fun _ ne => View.setInode_icache_of_ne ne _)
      (fun _ _ _ => rfl) ?_ ?_ ?_
    · rw [View.setInode_icache]
      exact Int.one_nonneg
    · rw [View.setInode_icache]
      exact fun _ => ⟨lt, fun ip' _ href => miss ip' href⟩
    · rintro ⟨_, valid⟩
      rw [View.setInode_icache] at valid
      cases valid

theorem idup_keeps {ip' : InodePtr} (h : s.view.Good top) (href : 0 < (s.icache ip).ref)
    (run : (idup ip).run s = .ok (ip', t)) : View.Keeps top s.view t.view := by
  obtain ⟨_, u, hset, run⟩ := bind_ok.mp run
  cases run
  rw [setInode_ok hset]
  exact h.setSlot (·.ref + 1) (·.busy) href (Int.add_pos href Int.one_pos)

/-! ## `ilock` and `iunlock` -/

/-- When `ilock` returns. -/
theorem ilock_pre (run : (ilock ip).run s = .ok ((), t)) :
    0 < (s.icache ip).ref ∧ (s.icache ip).busy = false ∧
      ((s.icache ip).valid = false → (s.view.dnode (s.icache ip).inum).type ≠ 0) := by
  simp only [ilock, get_bind] at run
  split at run
  · cases run
  · rename_i href
    split at run
    · cases run
    · rename_i busy
      refine ⟨by omega, by simpa using busy, ?_⟩
      intro invalid
      obtain ⟨_, u, hset, run⟩ := bind_ok.mp run
      have view := setInode_ok hset
      have slot : u.icache ip = { s.icache ip with busy := true } :=
        (congrFun (congrArg View.icache view) ip).trans (View.setInode_icache _)
      have data : u.view.data = s.view.data := by
        rw [view]
        rfl
      simp only [iload, get_bind, slot, invalid] at run
      obtain ⟨bp, u', hread, run⟩ := bind_ok.mp run
      obtain ⟨rfl, _⟩ := bread_ok hread
      obtain ⟨_, u'', _, run⟩ := bind_ok.mp run
      split at run
      · cases run
      · rename_i type
        rw [data] at type
        exact type

/-- `ilock` of an inode that has been read. -/
theorem View.lock_of_valid {v : View} (valid : (v.icache ip).valid = true) :
    v.lock ip = v.setInode ip fun inode => { inode with ref := inode.ref, busy := true } := by
  rw [View.lock, View.setInode, View.setInode, View.load]
  simp only [valid, if_true]

/-- The slot of an inode that `ilock` reads from the disk. -/
theorem View.lock_of_invalid {v : View} (invalid : (v.icache ip).valid = false) :
    (v.lock ip).icache ip = { v.icache ip with
      toDinode := v.dnode (v.icache ip).inum, busy := true, valid := true } := by
  rw [View.lock, View.setInode_icache, View.load]
  simp only [invalid]
  rfl

theorem ilock_held (run : (ilock ip).run s = .ok ((), t)) : t.view.Held ip := by
  obtain ⟨href, _, _⟩ := ilock_pre run
  have slot : t.view.icache ip = s.view.load { s.view.icache ip with busy := true } := by
    rw [ilock_ok run]
    exact View.setInode_icache _
  exact ⟨by rw [slot]; exact href, by rw [slot]; rfl⟩

/-- `ilock` changes no inode. -/
theorem ilock_current (h : s.view.Coherent) (run : (ilock ip).run s = .ok ((), t)) (i : Nat) :
    t.view.current i = s.view.current i := by
  obtain ⟨href, _, _⟩ := ilock_pre run
  rw [ilock_ok run]
  cases valid : (s.view.icache ip).valid with
  | true =>
    rw [View.lock_of_valid valid]
    exact View.current_setSlot (·.ref) (fun _ => true) href href i
  | false =>
    have slot := View.lock_of_invalid valid
    have other : ∀ ip' ≠ ip, (s.view.lock ip).icache ip' = s.view.icache ip' :=
      fun _ ne => View.setInode_icache_of_ne ne _
    by_cases e : i = (s.view.icache ip).inum
    · -- nobody else has a copy, so the inode was the one on the disk
      have apart : ∀ ip' ≠ ip, 0 < (s.view.icache ip').ref → (s.view.icache ip').inum ≠ i := by
        intro ip' ne hr same
        exact ne (h.uniq ip' ip hr href (same.trans e))
      have disk : s.view.current i = s.view.dnode i := by
        refine View.current_of_disk ?_
        intro ip' hr hv
        by_cases same : ip' = ip
        · rw [same, valid] at hv
          cases hv
        · exact apart ip' same hr
      have cached : (s.view.lock ip).cached i = some ip := by
        cases hc : (s.view.lock ip).cached i with
        | none =>
          refine absurd ⟨?_, ?_, ?_⟩ (View.cached_eq_none hc ip)
          · rw [slot]
            exact href
          · rw [slot]
          · rw [slot]
            exact e.symm
        | some ip' =>
          obtain ⟨hr, _, hi⟩ := View.cached_eq_some hc
          by_cases same : ip' = ip
          · rw [same]
          · rw [other ip' same] at hr hi
            exact absurd hi (apart ip' same hr)
      rw [disk, View.current, cached]
      simp only [slot]
      rw [e]
    · refine View.current_of_slot other (fun _ => Ne.symm e) ?_ rfl
      intro _
      rw [slot]
      exact Ne.symm e

theorem ilock_keeps (h : s.view.Good top) (run : (ilock ip).run s = .ok ((), t)) :
    View.Keeps top s.view t.view ∧ t.view.Held ip := by
  obtain ⟨href, _, htype⟩ := ilock_pre run
  have href : 0 < (s.view.icache ip).ref := href
  have current := ilock_current h.coherent run
  have view := ilock_ok run
  refine ⟨?_, ilock_held run⟩
  rw [view] at current ⊢
  cases valid : (s.view.icache ip).valid with
  | true =>
    rw [View.lock_of_valid valid]
    exact h.setSlot (·.ref) (fun _ => true) href href
  | false =>
    have slot := View.lock_of_invalid valid
    refine h.slot rfl rfl ?_ current
    refine h.coherent.update ip rfl (fun _ ne => View.setInode_icache_of_ne ne _)
      (fun _ _ _ => rfl) ?_ ?_ ?_
    · rw [slot]
      exact href.le
    · rw [slot]
      refine fun _ => ⟨h.coherent.inum ip href, ?_⟩
      intro ip' ne hr same
      exact ne (h.coherent.uniq ip' ip hr href same)
    · intro _
      rw [slot]
      exact ⟨Block.dinode_fits .., htype valid, .refl _⟩

theorem iunlock_view (run : (iunlock ip).run s = .ok ((), t)) :
    0 < (s.icache ip).ref ∧ (s.icache ip).busy = true ∧
      t.view = s.view.setInode ip fun inode => { inode with busy := false } := by
  simp only [iunlock, get_bind] at run
  split at run
  · cases run
  · rename_i ok
    rw [not_or, not_not] at ok
    exact ⟨by omega, ok.1, setInode_ok run⟩

theorem iunlock_keeps (h : s.view.Good top) (run : (iunlock ip).run s = .ok ((), t)) :
    View.Keeps top s.view t.view := by
  obtain ⟨href, _, view⟩ := iunlock_view run
  rw [view]
  exact h.setSlot (·.ref) (fun _ => false) href href

/-! ## `ialloc` -/

/-- A free inode is not in memory. -/
theorem View.Coherent.not_held {v : View} {i : Nat} (h : v.Coherent) (free : (v.dnode i).type = 0)
    (ip : InodePtr) (href : 0 < (v.icache ip).ref) (hvalid : (v.icache ip).valid = true) :
    (v.icache ip).inum ≠ i := by
  rintro rfl
  rw [(h.disk ip href hvalid).type] at free
  exact h.type ip href hvalid free

/-- A free inode is allocated on the disk, without blocks. -/
theorem View.Good.putDinode {v : View} {i : Nat} {type : Int} (h : v.Good top)
    (lt : i < v.sb.slots) (free : (v.dnode i).type = 0) (fits : (newDinode type).Fits) :
    View.Keeps top v (v.putDinode i (newDinode type)) := by
  have sb := v.putDinode_sb i (newDinode type)
  have held := h.coherent.not_held free
  refine ⟨⟨View.dataStart_congr sb ▸ h.start, ?_, ?_⟩, sb, ?_⟩
  · refine h.owned.shrink sb ?_ ?_
    · intro z hz
      have := iblock_lt lt
      exact View.putDinode_data (by omega)
    · intro j k
      simp only [View.vol, sb]
      split
      · by_cases e : j = i
        · have new : (v.putDinode i (newDinode type)).current j = newDinode type := by
            rw [e, View.current_of_disk, View.putDinode_dnode_self v i fits]
            rw [View.putDinode_icache]
            exact held
          rw [new]
          exact fun _ ne => absurd rfl ne
        · have same : (v.putDinode i (newDinode type)).current j = v.current j :=
            View.current_congr (View.putDinode_icache ..) (View.putDinode_dnode_other e)
          rw [same]
          exact fun type _ => ⟨type, rfl⟩
      · exact fun type _ => absurd rfl type
  · exact h.coherent.of_disk (View.putDinode_icache ..) sb fun ip href hvalid =>
      View.putDinode_dnode_other (held ip href hvalid)
  · intro z hz
    obtain rfl | hz := Finset.mem_insert.mp hz
    · exact .inr ((View.iblock_lt_dataStart lt).trans_le h.start)
    · exact .inl hz

/-- `ialloc` writes to the disk an inode that was free, and counts a reference to it. -/
theorem iallocLoop_ok {type : Int} {rounds inum : Nat}
    (run : (iallocLoop type rounds inum).run s = .ok (ip, t)) :
    ∃ i u, inum ≤ i ∧ i < inum + rounds ∧ (s.view.dnode i).type = 0 ∧
      u.view = s.view.putDinode i (newDinode type) ∧ (iget i).run u = .ok (ip, t) := by
  induction rounds generalizing s inum with
  | zero => cases run
  | succ rounds ih =>
    obtain ⟨bp, u, hread, run⟩ := bind_ok.mp run
    obtain ⟨rfl, hu⟩ := bread_ok hread
    split at run
    · rename_i free
      obtain ⟨_, u', hwrite, run⟩ := bind_ok.mp run
      have view := logWrite_ok hwrite
      rw [hu] at view
      exact ⟨inum, u', le_rfl, by omega, free, view, run⟩
    · obtain ⟨i, u', low, high, free, view, get⟩ := ih run
      rw [hu] at free view
      exact ⟨i, u', by omega, by omega, free, view, get⟩

theorem ialloc_ok {type : Int} (run : (ialloc type).run s = .ok (ip, t)) :
    ∃ i u, 1 ≤ i ∧ i < s.view.sb.ninodes ∧ (s.view.dnode i).type = 0 ∧
      u.view = s.view.putDinode i (newDinode type) ∧ (iget i).run u = .ok (ip, t) := by
  obtain ⟨sb, u, hsb, run⟩ := bind_ok.mp run
  obtain ⟨bp, u', hread, hsb⟩ := bind_ok.mp hsb
  obtain ⟨rfl, hu⟩ := bread_ok hread
  cases hsb
  obtain ⟨i, u', low, high, free, view, get⟩ := iallocLoop_ok run
  rw [hu] at free view
  have high : i < 1 + (s.view.sb.ninodes - 1) := high
  exact ⟨i, u', low, by omega, free, view, get⟩

theorem ialloc_keeps {type : Int} (h : s.view.Good top) (range : -2 ^ 15 ≤ type ∧ type < 2 ^ 15)
    (run : (ialloc type).run s = .ok (ip, t)) :
    View.Keeps top s.view t.view ∧ 0 < (t.icache ip).ref := by
  obtain ⟨i, u, _, lt, free, view, get⟩ := ialloc_ok run
  have first : View.Keeps top s.view u.view := by
    rw [view]
    exact h.putDinode (lt_slots lt.le) free (newDinode_fits range)
  obtain ⟨second, href, _⟩ := iget_keeps first.good (by rw [first.sb]; exact lt_slots lt.le) get
  exact ⟨first.trans second, href⟩

/-! ## `itrunc` and `iput` -/

/-- `itrunc` does not meet a block that is free. -/
theorem itrunc_spec (h : s.view.InUse top ip) :
    Effect.Triple (· = s) (itrunc ip) (fun _ t => s.view.Truncated ip t.view) LogPanic := by
  have triple := itrunc_triple (logContract_any fun _ => True) (fun _ _ => trivial) h.addrsOwned
    h.entriesOwned trivial
  refine triple.conseq ?_ fun _ _ result => result.1
  rintro _ rfl
  exact ⟨rfl, trivial⟩

theorem View.Truncated.keeps {v w : View} (h : v.InUse top ip) (start : v.dataStart ≤ top)
    (trunc : v.Truncated ip w) : View.Keeps top v w := by
  have sb := View.Truncated.sb trunc
  have inUse := View.Truncated.inUse h trunc
  refine ⟨⟨View.dataStart_congr sb ▸ start, inUse.owned, inUse.coherent⟩, sb, ?_⟩
  intro z hz
  obtain hz | hz := View.Truncated.logged h trunc z hz
  · exact .inl hz
  · exact .inr (by omega)

theorem itrunc_keeps (h : s.view.Good top) (held : s.view.Held ip)
    (run : (itrunc ip).run s = .ok ((), t)) : View.Keeps top s.view t.view :=
  View.Truncated.keeps (h.inUse held) h.start ((itrunc_spec (h.inUse held)).ok rfl run)

namespace View

variable {v : View}

/-- One reference less. -/
def drop (v : View) (ip : InodePtr) : View :=
  v.setInode ip fun inode => { inode with ref := inode.ref - 1 }

theorem Good.drop (h : v.Good top) (href : 0 < (v.icache ip).ref) : Keeps top v (v.drop ip) := by
  have slot : (v.drop ip).icache ip = { v.icache ip with ref := (v.icache ip).ref - 1 } :=
    setInode_icache _
  have other : ∀ ip' ≠ ip, (v.drop ip).icache ip' = v.icache ip' :=
    fun _ ne => setInode_icache_of_ne ne _
  by_cases more : 0 < (v.icache ip).ref - 1
  · exact h.setSlot (·.ref - 1) (·.busy) href more
  · have gone : ∀ i, (v.drop ip).Held ip → ((v.drop ip).icache ip).inum ≠ i := by
      rintro i ⟨hr, _⟩
      rw [slot] at hr
      exact absurd hr more
    refine ⟨⟨h.start, ?_, ?_⟩, rfl, fun _ => .inl⟩
    · refine h.owned.shrink rfl (fun _ _ => rfl) ?_
      intro i k
      have sb : (v.drop ip).sb = v.sb := rfl
      simp only [vol, sb]
      split
      · by_cases last : v.Held ip ∧ i = (v.icache ip).inum
        · -- the inode on the disk may lack blocks
          obtain ⟨held, rfl⟩ := last
          have behind := h.coherent.disk ip held.ref held.valid
          have now : (v.drop ip).current (v.icache ip).inum = v.dnode (v.icache ip).inum := by
            refine current_of_disk ?_
            intro ip' hr hv same
            by_cases e : ip' = ip
            · rw [e] at hr hv
              exact gone _ ⟨hr, hv⟩ rfl
            · rw [other ip' e] at hr same
              exact e (h.coherent.uniq ip' ip hr held.ref same)
          rw [now, h.coherent.current held.ref held.valid]
          intro type ne
          rw [behind.type] at type
          obtain same | zero := behind.addrs k
          · exact ⟨type, same.symm⟩
          · exact absurd zero ne
        · have same : (v.drop ip).current i = v.current i := by
            refine current_of_slot other ?_ (gone i) rfl
            intro held e
            exact last ⟨held, e.symm⟩
          rw [same]
          exact fun type _ => ⟨type, rfl⟩
      · exact fun type _ => absurd rfl type
    · refine h.coherent.update ip rfl other (fun _ _ _ => rfl) ?_ ?_ ?_
      · rw [slot]
        show 0 ≤ (v.icache ip).ref - 1
        omega
      · rw [slot]
        exact fun hr => absurd hr more
      · exact fun held => absurd rfl (gone _ held)

/-- An inode is marked as free, on the disk and in memory. -/
def release (v : View) (ip : InodePtr) : View :=
  (v.store ip fun inode => { inode with type := 0 }).setInode ip fun inode =>
    { inode with busy := false, valid := false }

theorem release_icache : (v.release ip).icache ip =
    { v.icache ip with type := 0, busy := false, valid := false } := by
  rw [View.release, setInode_icache, store_icache]

theorem release_icache_other {ip' : InodePtr} (ne : ip' ≠ ip) :
    (v.release ip).icache ip' = v.icache ip' := by
  rw [View.release, setInode_icache_of_ne ne, store_icache_other ne]

theorem release_not_held : ¬ (v.release ip).Held ip := by
  rintro ⟨_, valid⟩
  rw [release_icache] at valid
  cases valid

/-- The slot of an inode that is marked as free, before it is given up. -/
theorem sameSlot_free : SameSlot (v.icache ip) { v.icache ip with type := 0 } := ⟨rfl, rfl, rfl⟩

theorem release_sb : (v.release ip).sb = v.sb := by
  show (v.store ip fun inode => { inode with type := 0 }).sb = v.sb
  exact store_sb sameSlot_free

theorem release_data {z : Nat} (h : z ≠ iblock (v.icache ip).inum) :
    (v.release ip).data z = v.data z := store_data sameSlot_free h

theorem release_dnode_other {i : Nat} (ne : i ≠ (v.icache ip).inum) :
    (v.release ip).dnode i = v.dnode i := store_dnode_other sameSlot_free ne

theorem InUse.apart (h : v.InUse top ip) (ip' : InodePtr) (ne : ip' ≠ ip)
    (href : 0 < (v.icache ip').ref) : (v.icache ip').inum ≠ (v.icache ip).inum :=
  fun e => ne (h.coherent.uniq ip' ip href h.held.ref e)

/-- An inode that is marked as free is free, and the others are as they were. -/
theorem InUse.release_current (h : v.InUse top ip) (i : Nat) :
    (v.release ip).current i = if i = (v.icache ip).inum then
      { (v.icache ip).toDinode with type := 0 } else v.current i := by
  split
  · rename_i e
    have old := h.coherent.fits ip h.held.ref h.held.valid
    have fits : ({ v.icache ip with type := 0 } : Inode).toDinode.Fits :=
      ⟨short_zero, old.major, old.minor, old.nlink, old.size, old.addrs⟩
    have disk : (v.release ip).dnode i = { (v.icache ip).toDinode with type := 0 } := by
      rw [e]
      exact store_dnode_self sameSlot_free fits
    rw [← disk]
    refine current_of_disk ?_
    intro ip' hr hv hi
    by_cases e' : ip' = ip
    · rw [e'] at hr hv
      exact release_not_held ⟨hr, hv⟩
    · rw [release_icache_other e'] at hr hi
      exact h.apart ip' e' hr (hi.trans e)
  · rename_i ne
    exact current_of_slot (fun _ => release_icache_other) (fun _ => Ne.symm ne)
      (fun held => absurd held release_not_held) (release_dnode_other ne)

theorem InUse.release (h : v.InUse top ip) (start : v.dataStart ≤ top) :
    Keeps top v (v.release ip) := by
  have lt := h.coherent.inum ip h.held.ref
  have sb : (v.release ip).sb = v.sb := release_sb
  refine ⟨⟨dataStart_congr sb ▸ start, ?_, ?_⟩, sb, ?_⟩
  · refine h.owned.shrink sb ?_ ?_
    · intro z hz
      have := iblock_lt lt
      exact release_data (by omega)
    · intro i k
      simp only [vol, sb, h.release_current]
      split
      · split
        · exact fun type _ => absurd rfl type
        · exact fun type _ => ⟨type, rfl⟩
      · exact fun type _ => absurd rfl type
  · refine h.coherent.update ip sb (fun _ => release_icache_other) ?_ ?_ ?_ ?_
    · intro ip' ne href
      exact release_dnode_other (h.apart ip' ne href)
    · rw [release_icache]
      exact h.coherent.nonneg ip
    · rw [release_icache]
      exact fun _ => ⟨lt, h.apart⟩
    · exact fun held => absurd held release_not_held
  · intro z hz
    have hz : z ∈ (v.store ip fun inode => { inode with type := 0 }).logged := hz
    rw [store_logged sameSlot_free] at hz
    obtain rfl | hz := Finset.mem_insert.mp hz
    · exact .inr ((iblock_lt_dataStart lt).trans_le start)
    · exact .inl hz

end View

/-- The last `iput` of an inode without links. -/
def View.Freed (v : View) (ip : InodePtr) (w : View) : Prop :=
  ∃ u, (v.setInode ip fun inode => { inode with busy := true }).Truncated ip u ∧ w = u.release ip

/-- A file in use is locked. -/
theorem View.InUse.lock {v : View} (h : v.InUse top ip) (start : v.dataStart ≤ top) :
    (v.setInode ip fun inode => { inode with busy := true }).InUse top ip := by
  have good : v.Good top := ⟨start, h.owned, h.coherent⟩
  refine (good.setSlot (·.ref) (fun _ => true) h.held.ref h.held.ref).good.inUse ⟨?_, ?_⟩
  · rw [View.setInode_icache]
    exact h.held.ref
  · rw [View.setInode_icache]
    exact h.held.valid

theorem View.Freed.keeps {v w : View} (h : v.InUse top ip) (start : v.dataStart ≤ top)
    (freed : v.Freed ip w) : View.Keeps top v w ∧ 0 < (w.icache ip).ref := by
  obtain ⟨u, trunc, rfl⟩ := freed
  have good : v.Good top := ⟨start, h.owned, h.coherent⟩
  have locked := good.setSlot (·.ref) (fun _ => true) h.held.ref h.held.ref
  have inUse := h.lock start
  have truncated := View.Truncated.keeps inUse start trunc
  have held := View.Truncated.held inUse trunc
  refine ⟨(locked.trans truncated).trans
    ((truncated.good.inUse held).release truncated.good.start), ?_⟩
  rw [View.release_icache]
  exact held.ref

section

open Effect

variable {v : View} {J : Log → Prop} {S : Nat → Prop} {E : Halt → Prop}
  (contract : LogContract J S E) (bits : ∀ b < v.sb.size, S (bblock b v.sb.ninodes))
  (inode : S (iblock (v.icache ip).inum))

include contract bits inode

/-- `ifree` truncates the file and marks its inode as free. -/
theorem ifree_triple (h : v.InUse top ip) (start : v.dataStart ≤ top) :
    Triple (Fs.At v J) (ifree ip) (fun _ t => v.Freed ip t.view ∧ J t.log.log) E := by
  have inUse := h.lock start
  have block : S (iblock ((v.setInode ip fun inode => { inode with busy := true }).icache ip).inum) := by
    rw [View.setInode_icache]
    exact inode
  refine Triple.bind (setInode_triple _) fun _ => ?_
  refine Triple.bind (itrunc_triple contract bits inUse.addrsOwned inUse.entriesOwned block)
    fun _ => ?_
  rintro s ⟨trunc, hJ⟩
  have same : S (iblock ((s.view.setInode ip fun inode => { inode with type := 0 }).icache ip).inum) := by
    rw [View.setInode_icache, View.Truncated.icache trunc]
    exact block
  refine (Triple.bind (setInode_triple _) fun _ => Triple.bind (iupdate_triple contract same)
    fun _ => setInode_triple _).post ?_ s ⟨rfl, hJ⟩
  rintro _ t ⟨view, hJ⟩
  exact ⟨⟨s.view, trunc, view⟩, hJ⟩

/-- The last reference to a file without links is dropped. -/
theorem iput_last (h : v.InUse top ip) (start : v.dataStart ≤ top) (ref : (v.icache ip).ref = 1)
    (nlink : (v.icache ip).nlink = 0) :
    Triple (Fs.At v J) (iput ip)
      (fun _ t => ∃ u, v.Freed ip u ∧ t.view = u.drop ip ∧ J t.log.log)
      (fun e => E e ∨ e = .panic "iput busy") := by
  refine Triple.get_bind ?_
  rintro s ⟨rfl, hJ⟩
  dsimp only
  rw [if_pos ⟨ref, h.held.valid, nlink⟩]
  split
  · exact fun t ht => .inr rfl
  · have freed := ifree_triple contract bits inode h start
    refine Triple.bind ((freed.weaken fun _ => .inl).pre ?_) fun _ => Triple.modify ?_
    · rintro _ rfl
      exact ⟨rfl, hJ⟩
    · rintro u ⟨freed, hJ⟩
      exact ⟨u.view, freed, rfl, hJ⟩

end

open Effect in
/-- `iput` does not meet a block that is free. -/
theorem iput_triple (h : s.view.Good top) (href : 0 < (s.icache ip).ref) :
    Triple (· = s) (iput ip) (fun _ t => View.Keeps top s.view t.view)
      (fun e => LogPanic e ∨ e = .panic "iput busy") := by
  by_cases last : (s.icache ip).ref = 1 ∧ (s.icache ip).valid ∧ (s.icache ip).nlink = 0
  · obtain ⟨ref, valid, nlink⟩ := last
    have inUse := h.inUse ⟨href, valid⟩
    refine (iput_last (logContract_any fun _ => True) (fun _ _ => trivial) trivial inUse h.start
      ref nlink).conseq ?_ ?_
    · rintro _ rfl
      exact ⟨rfl, trivial⟩
    · rintro _ t ⟨u, freed, view, _⟩
      obtain ⟨keeps, hr⟩ := View.Freed.keeps inUse h.start freed
      rw [view]
      exact keeps.trans (keeps.good.drop hr)
  · refine Triple.get_bind ?_
    rintro s rfl
    dsimp only
    rw [if_neg last]
    rintro _ rfl
    exact h.drop href

theorem iput_keeps (h : s.view.Good top) (href : 0 < (s.icache ip).ref)
    (run : (iput ip).run s = .ok ((), t)) : View.Keeps top s.view t.view :=
  (iput_triple h href).ok rfl run

/-! ## `readi` and `writei` -/

/-- The loop of `readi` demands the places on the way to the data. -/
theorem readiLoop_ok {v : View} {n rounds tot off : Nat} {bytes : List UInt8}
    {ps : List (List Nat)} {ls : Finset (List Nat)} (h : v.Written ip ps ls s.view)
    (enough : n - tot ≤ rounds) (run : (readiLoop ip n rounds tot off).run s = .ok (bytes, t)) :
    v.Written ip (ps ++ paths (blockRange off (n - tot))) ls t.view := by
  induction rounds generalizing s tot off ps bytes with
  | zero =>
    cases run
    have done : n - tot = 0 := by omega
    rw [done, blockRange, if_pos rfl]
    simpa [paths] using h
  | succ rounds ih =>
    simp only [readiLoop] at run
    split at run
    · rename_i more
      obtain ⟨a, u, hmap, run⟩ := bind_ok.mp run
      obtain ⟨bp, u₁, hread, run⟩ := bind_ok.mp run
      obtain ⟨rest, u₂, hrest, run⟩ := bind_ok.mp run
      cases run
      obtain ⟨mapped, _⟩ := bmap_ok h hmap
      rw [← (bread_ok hread).2] at mapped
      have progress : 0 < min (n - tot) (bsize - off % bsize) := by
        have : off % bsize < bsize := Nat.mod_lt _ (by decide)
        omega
      have done := ih mapped (by omega) hrest
      have left : n - (tot + min (n - tot) (bsize - off % bsize)) =
          n - tot - min (n - tot) (bsize - off % bsize) := by omega
      rw [left] at done
      rw [blockRange_cons (by omega)]
      simpa [paths] using done
    · cases run
      have done : n - tot = 0 := by omega
      rw [done, blockRange, if_pos rfl]
      simpa [paths] using h

/-- The blocks `writei` takes lie below `top`. -/
def WritesBelow (v : View) (top : Nat) (ip : InodePtr) (off n : Nat) : Prop :=
  (v.icache ip).type ≠ tDev → Accepts (v.icache ip) off n →
    ∀ b ∈ Demand.taken (v.blocks ip) (paths (blockRange off n)), b < top

/-- The blocks `readi` takes lie below `top`. -/
def ReadsBelow (v : View) (top : Nat) (ip : InodePtr) (off n : Nat) : Prop :=
  (v.icache ip).type ≠ tDev → off ≤ (v.icache ip).size → off + n < 2 ^ 32 →
    ∀ b ∈ Demand.taken (v.blocks ip)
      (paths (blockRange off (min n ((v.icache ip).size - off)))), b < top

instance (v : View) (top : Nat) (ip : InodePtr) (off n : Nat) :
    Decidable (WritesBelow v top ip off n) :=
  inferInstanceAs (Decidable (_ → (_ ∧ _ ∧ _) → _))

instance (v : View) (top : Nat) (ip : InodePtr) (off n : Nat) :
    Decidable (ReadsBelow v top ip off n) :=
  inferInstanceAs (Decidable (_ → _ → _ → _))

/-- The lock and the count of references do not matter for the blocks that are taken. -/
theorem WritesBelow.congr {v w : View} {off n : Nat} (h : WritesBelow v top ip off n)
    (data : w.data = v.data) (inode : (w.icache ip).toDinode = (v.icache ip).toDinode) :
    WritesBelow w top ip off n := by
  have child : w.child ip = v.child ip := by
    funext x k
    exact View.child_congr (fun _ => congrArg Dinode.addrs inode) fun _ => by rw [data]
  have free : w.free = v.free := by
    rw [View.free, View.free]
    simp only [View.used, View.sb, data]
  have blocks : w.blocks ip = v.blocks ip := by rw [View.blocks, View.blocks, child, free]
  have type := congrArg Dinode.type inode
  have size := congrArg Dinode.size inode
  intro htype accept
  rw [type] at htype
  rw [Accepts, size] at accept
  rw [blocks]
  exact h htype accept

/-- A device lets others use its inode while it waits. -/
theorem relock_keeps (h : s.view.Good top) {u : Fs} (unlock : (iunlock ip).run s = .ok ((), u))
    (lock : (ilock ip).run u = .ok ((), t)) : View.Keeps top s.view t.view := by
  have first := iunlock_keeps h unlock
  exact first.trans (ilock_keeps first.good lock).1

theorem View.Run.keeps {v w : View} {ls : List (Option Nat)} (h : v.Good top)
    (run : View.Run ip top v ls w) : View.Keeps top v w :=
  ⟨⟨View.dataStart_congr run.touched.sb ▸ h.start, run.inUse.owned, run.inUse.coherent⟩,
    run.touched.sb, run.logged h.start⟩

theorem View.InUse.whole {v : View} (h : v.InUse top ip) : v.InUse v.sb.size ip :=
  ⟨h.owned.mono h.owned.top_le le_rfl, h.coherent, h.held⟩

theorem writei_keeps {src : Nat → UInt8} {off n : Nat} {r : Int} (h : s.view.Good top)
    (held : s.view.Held ip) (hoff : off < 2 ^ 32) (hn : n < 2 ^ 32)
    (below : WritesBelow s.view top ip off n) (run : (writei ip src off n).run s = .ok (r, t)) :
    View.Keeps top s.view t.view := by
  by_cases type : (s.icache ip).type = tDev
  · simp only [writei, get_bind, if_pos type, writeiDev] at run
    split at run
    · cases run
      exact .refl h
    · split at run
      · cases run
        exact .refl h
      · rename_i write hwrite
        rw [devswWrite] at hwrite
        split at hwrite
        · cases hwrite
          obtain ⟨_, u, hunlock, run⟩ := bind_ok.mp run
          obtain ⟨_, u₁, hlock, run⟩ := bind_ok.mp run
          cases run
          exact relock_keeps h hunlock hlock
        · cases hwrite
  · obtain ⟨_, _, rfl⟩ | ⟨accept, run⟩ := writei_cases type run
    · exact .refl h
    · have inUse := h.inUse held
      obtain ⟨ls, u, writes, _, view⟩ := writeiData_run inUse.whole run
      have touched := View.Run.of_written inUse writes.steps writes.written (below type accept)
      have first := touched.keeps h
      rw [view]
      split
      · have small : off + n < 2 ^ 32 := by
          have := (accept.bound hoff hn).2
          have : maxFile * bsize = 8459776 := by decide
          omega
        obtain ⟨grown, _, _, _⟩ := touched.inUse.resize small
        have same : View.SameSlot (u.icache ip) { u.icache ip with size := off + n } :=
          ⟨rfl, rfl, rfl⟩
        have sb := View.store_sb (f := fun inode => { inode with size := off + n }) same
        refine first.trans ⟨⟨?_, grown.owned, grown.coherent⟩, sb, ?_⟩
        · rw [View.dataStart_congr sb]
          exact first.good.start
        · intro z hz
          rw [View.store_logged same] at hz
          obtain rfl | hz := Finset.mem_insert.mp hz
          · have lt := first.good.coherent.inum ip touched.inUse.held.ref
            exact .inr ((View.iblock_lt_dataStart lt).trans_le first.good.start)
          · exact .inl hz
      · exact first

theorem readi_keeps {input a : Option (List UInt8)} {off n : Nat} (h : s.view.Good top)
    (held : s.view.Held ip) (hoff : off < 2 ^ 32) (hn : n < 2 ^ 32)
    (below : ReadsBelow s.view top ip off n) (run : (readi input ip off n).run s = .ok (a, t)) :
    View.Keeps top s.view t.view := by
  by_cases type : (s.icache ip).type = tDev
  · simp only [readi, get_bind, if_pos type, readiDev] at run
    split at run
    · cases run
      exact .refl h
    · split at run
      · obtain ⟨_, u, hunlock, run⟩ := bind_ok.mp run
        obtain ⟨_, u₁, hlock, run⟩ := bind_ok.mp run
        cases run
        exact relock_keeps h hunlock hlock
      · cases run
        exact .refl h
  · by_cases accept : off ≤ (s.icache ip).size ∧ off + n < 2 ^ 32
    · rw [readi_eq type accept.1 accept.2] at run
      obtain ⟨bytes, u, hloop, run⟩ := bind_ok.mp run
      cases run
      have inUse := h.inUse held
      obtain ⟨ls, _, steps, _⟩ := readiLoop_run inUse.whole (by omega) hloop
      have written := readiLoop_ok (.start (inUse.owned.wellFormed inUse.coherent held))
        (by omega) hloop
      rw [Nat.sub_zero, List.nil_append] at written
      exact (View.Run.of_written inUse steps written (below type accept.1 accept.2)).keeps h
    · rw [readi_reject type hoff hn accept] at run
      cases run
      exact .refl h

end Xv6Gui
