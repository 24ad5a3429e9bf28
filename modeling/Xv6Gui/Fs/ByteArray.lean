import Xv6Gui.Fs.Access

/-!
# A file is an array of bytes

What a file is for its users is a list of bytes.  `readi` returns a part of the list
and `writei` overwrites a part of it, which may extend it.  How the bytes lie in
blocks, and how these are found, does not show.

`readi` returns if no block is missing below the size of the file.  Then it changes
nothing but the buffers.
-/

namespace Xv6Gui

variable {s t : Fs} {ip : InodePtr}

/-! ## Reading without allocation -/

/-- Only buffers change. -/
structure Fs.Reads (s t : Fs) : Prop where
  view : t.view = s.view
  log : t.log.log = s.log.log
  disk : t.log.bio.disk = s.log.bio.disk

theorem Fs.Reads.refl (s : Fs) : s.Reads s := ⟨rfl, rfl, rfl⟩

theorem Fs.Reads.trans {u : Fs} (h : s.Reads t) (k : t.Reads u) : s.Reads u :=
  ⟨k.view.trans h.view, k.log.trans h.log, k.disk.trans h.disk⟩

theorem bread_reads (s : Fs) (b : Nat) :
    ∃ t, (bread b).run s = .ok (s.view.data b, t) ∧ s.Reads t := by
  have run : (bread b).run s = .ok ((s.log.bio.bread b).1,
      { s with log := { s.log with bio := (s.log.bio.bread b).2 } }) := rfl
  refine ⟨_, ?_, (bread_ok run).2, rfl, Bio.bread_disk ..⟩
  rw [run, (bread_ok run).1]

theorem bmapAddr_reads {k : Fin (ndirect + 2)} {a : Nat}
    (h : pointer ((s.icache ip).addrs k) = some a) : (bmapAddr ip k).run s = .ok (a, s) := by
  rw [pointer] at h
  split at h
  · cases h
  · rename_i ne
    cases h
    simp only [bmapAddr, FsM.get_bind, if_neg ne]
    rfl

theorem bmapEntry_reads {x j a : Nat} (h : pointer ((s.view.data x).word j) = some a) :
    ∃ t, (bmapEntry x j).run s = .ok (a, t) ∧ s.Reads t := by
  obtain ⟨t, hread, reads⟩ := bread_reads s x
  refine ⟨t, FsM.bind_ok.mpr ⟨_, t, hread, ?_⟩, reads⟩
  rw [pointer] at h
  split at h
  · cases h
  · rename_i ne
    cases h
    simp only [if_neg ne]
    rfl

theorem val_snoc {v : View} {p : List Nat} {k a : Nat}
    (h : (v.blocks ip).val (p ++ [k]) = some a) :
    ∃ x, (v.blocks ip).val p = some x ∧ v.child ip x k = some a := by
  have place := View.place_of_val h
  rw [View.val_of_place place, Trie.walk_snoc, ← View.val_of_place (place_closed p k place)] at h
  exact Runs.bind_some.mp h

theorem val_addr {v : View} {k a : Nat} (hk : k < ndirect + 2)
    (h : (v.blocks ip).val [k] = some a) : pointer ((v.icache ip).addrs ⟨k, hk⟩) = some a := by
  obtain ⟨x, root, child⟩ := val_snoc (p := []) h
  cases root
  rwa [← View.child_inode ⟨k, hk⟩]

theorem val_entry {v : View} {p : List Nat} {k a : Nat} (hp : p ≠ [])
    (h : (v.blocks ip).val (p ++ [k]) = some a) :
    ∃ x, (v.blocks ip).val p = some x ∧ pointer ((v.data x).word k) = some a := by
  obtain ⟨x, above, child⟩ := val_snoc h
  rw [View.child_block (View.val_ne_zero hp above)] at child
  exact ⟨x, above, child⟩

/-- `bmap` finds a block that is there. -/
theorem bmap_reads {bn a : Nat} (h : (s.view.blocks ip).val (leaf bn) = some a) :
    ∃ t, (bmap ip bn).run s = .ok (a, t) ∧ s.Reads t := by
  have place := View.place_of_val h
  rw [leaf, path] at h place
  rw [bmap]
  split
  · rename_i direct
    rw [if_pos direct] at h
    exact ⟨s, bmapAddr_reads (val_addr _ h), .refl s⟩
  · rename_i direct
    rw [if_neg direct] at h place
    split
    · rename_i single
      rw [if_pos single] at h
      obtain ⟨x, above, entry⟩ := val_entry (p := [ndirect]) (by simp) h
      obtain ⟨t, run, reads⟩ := bmapEntry_reads entry
      refine ⟨t, FsM.bind_ok.mpr ⟨x, s, bmapAddr_reads (val_addr _ above), run⟩, reads⟩
    · rename_i single
      rw [if_neg single] at h place
      obtain ⟨_, first, _⟩ := place
      have double : bn - ndirect - nindirect < nindirect * nindirect :=
        Nat.lt_mul_of_div_lt first (by decide)
      rw [if_pos double]
      obtain ⟨x, middle, entry⟩ :=
        val_entry (p := [ndirect + 1, (bn - ndirect - nindirect) / nindirect]) (by simp) h
      obtain ⟨y, above, index⟩ := val_entry (p := [ndirect + 1]) (by simp) middle
      obtain ⟨u, run, reads⟩ := bmapEntry_reads index
      rw [← reads.view] at entry
      obtain ⟨t, run', reads'⟩ := bmapEntry_reads entry
      refine ⟨t, FsM.bind_ok.mpr ⟨y, s, bmapAddr_reads (val_addr _ above), ?_⟩, reads.trans reads'⟩
      exact FsM.bind_ok.mpr ⟨x, u, run, run'⟩

/-- The loop of `readi` where no block is missing. -/
theorem readiLoop_reads {n rounds tot off : Nat}
    (there : ∀ o, off ≤ o → o < off + (n - tot) →
      ∃ b, (s.view.blocks ip).val (leaf (o / bsize)) = some b) :
    ∃ bytes t, (readiLoop ip n rounds tot off).run s = .ok (bytes, t) ∧ s.Reads t := by
  induction rounds generalizing s tot off with
  | zero => exact ⟨[], s, rfl, .refl s⟩
  | succ rounds ih =>
    rw [readiLoop]
    split
    · rename_i more
      obtain ⟨b, val⟩ := there off le_rfl (by omega)
      obtain ⟨u, hmap, reads⟩ := bmap_reads val
      obtain ⟨u₁, hread, reads₁⟩ := bread_reads u b
      have both := reads.trans reads₁
      generalize hm : min (n - tot) (bsize - off % bsize) = m
      have rest : ∀ o, off + m ≤ o → o < off + m + (n - (tot + m)) →
          ∃ b, (u₁.view.blocks ip).val (leaf (o / bsize)) = some b := by
        intro o low high
        rw [both.view]
        exact there o (by omega) (by omega)
      obtain ⟨bytes, t, hrest, reads₂⟩ := ih rest
      refine ⟨(u.view.data b).slice (off % bsize) m ++ bytes, t, ?_, both.trans reads₂⟩
      refine FsM.bind_ok.mpr ⟨b, u, hmap, FsM.bind_ok.mpr ⟨_, u₁, hread, ?_⟩⟩
      exact FsM.bind_ok.mpr ⟨bytes, t, hrest, rfl⟩
    · exact ⟨[], s, rfl, .refl s⟩

/-! ## The bytes of a file -/

namespace Volume

/-- The bytes of a file. -/
def file (v : Volume) (i : Nat) : List UInt8 := (List.range (v.inode i).size).map (v.content i)

/-- No block below the size is missing. -/
def Whole (v : Volume) (i : Nat) : Prop :=
  ∀ bn, bn * bsize < (v.inode i).size → v.node (i :: leaf bn) ≠ none

theorem file_length (v : Volume) (i : Nat) : (v.file i).length = (v.inode i).size := by
  rw [file, List.length_map, List.length_range]

/-- A part of a file. -/
theorem file_slice (v : Volume) (i off n : Nat) :
    ((v.file i).drop off).take n =
      (List.range (min n ((v.inode i).size - off))).map fun k => v.content i (off + k) := by
  refine List.ext_getElem ?_ ?_
  · simp [file_length]
  · intro k _ _
    simp [file]

theorem file_congr {v w : Volume} {i : Nat} (size : (w.inode i).size = (v.inode i).size)
    (content : w.content i = v.content i) : w.file i = v.file i := by
  rw [file, file, size, content]

end Volume

variable {off n : Nat} {input : Option (List UInt8)}

/-- Bytes are stored in an array from `off` on. -/
def overwrite (bytes : List UInt8) (off : Nat) (data : List UInt8) : List UInt8 :=
  bytes.take off ++ data ++ bytes.drop (off + data.length)

/-- The bytes after a write are the bytes before it, overwritten. -/
theorem file_overwrite {v w : Volume} {i : Nat} {src : Nat → UInt8}
    (inside : off ≤ (v.inode i).size) (size : (w.inode i).size = max (v.inode i).size (off + n))
    (content : ∀ o, w.content i o =
      if off ≤ o ∧ o < off + n then src (o - off) else v.content i o) :
    w.file i = overwrite (v.file i) off ((List.range n).map src) := by
  refine List.ext_getElem ?_ ?_
  · simp only [overwrite, List.length_append, List.length_take, List.length_drop, List.length_map,
      List.length_range, Volume.file_length, size]
    omega
  · intro k hk _
    have byte : (w.file i)[k] = w.content i k := by simp [Volume.file]
    rw [byte, content]
    simp only [overwrite, Volume.file, List.getElem_append, List.length_append, List.length_take,
      List.length_map, List.length_range, List.getElem_take, List.getElem_drop, List.getElem_map,
      List.getElem_range, Nat.min_eq_left inside]
    split
    · rename_i new
      rw [dif_pos (by omega), dif_neg (by omega)]
    · rename_i old
      split
      · rename_i below
        rw [dif_pos (by omega)]
      · congr 1
        omega

/-! ## `readi` -/

/-- What `readi` returns. -/
def readResult (v : View) (input : Option (List UInt8)) (ip : InodePtr) (off n : Nat) :
    Option (List UInt8) :=
  if (v.icache ip).type = tDev then
    if (v.icache ip).major = console then input else none
  else if off ≤ (v.icache ip).size ∧ off + n < 2 ^ 32 then
    some (((v.vol.file (v.icache ip).inum).drop off).take n)
  else
    none

theorem consoleread_run {a : Option (List UInt8)}
    (run : (consoleread input ip).run s = .ok (a, t)) : a = input := by
  obtain ⟨_, u, _, run⟩ := FsM.bind_ok.mp run
  obtain ⟨_, u', _, run⟩ := FsM.bind_ok.mp run
  cases run
  rfl

/-- `readi` where it does not return `-1`, with the number of bytes that are there. -/
theorem readi_eq (type : (s.icache ip).type ≠ tDev)
    (hoff : off ≤ (s.icache ip).size) (small : off + n < 2 ^ 32) :
    (readi input ip off n).run s =
      ((readiLoop ip (min n ((s.icache ip).size - off)) (min n ((s.icache ip).size - off)) 0 off)
        >>= fun bytes => pure (some bytes)).run s := by
  have count : (if off + n > (s.icache ip).size then (s.icache ip).size - off else n) =
      min n ((s.icache ip).size - off) := by
    split <;> omega
  simp only [readi, FsM.get_bind, if_neg type, Nat.mod_eq_of_lt small]
  rw [if_neg (by omega), count]

theorem readi_reject
    (type : (s.icache ip).type ≠ tDev) (hoff : off < 2 ^ 32) (hn : n < 2 ^ 32)
    (reject : ¬ (off ≤ (s.icache ip).size ∧ off + n < 2 ^ 32)) :
    (readi input ip off n).run s = .ok (none, s) := by
  simp only [readi, FsM.get_bind, if_neg type]
  rw [if_pos (by omega)]
  rfl

/-- `readi` returns the bytes that are there, if it returns. -/
theorem readi_run {a : Option (List UInt8)}
    (h : s.view.InUse s.view.sb.size ip) (hoff : off < 2 ^ 32) (hn : n < 2 ^ 32)
    (run : (readi input ip off n).run s = .ok (a, t)) : a = readResult s.view input ip off n := by
  rw [readResult]
  split
  · rename_i device
    have device : (s.icache ip).type = tDev := device
    simp only [readi, FsM.get_bind, if_pos device, readiDev] at run
    split at run
    · rename_i range
      cases run
      rw [if_neg]
      intro e
      have e : (s.icache ip).major = 1 := e
      rw [e] at range
      exact absurd range (by decide)
    · split at run
      · rename_i yes
        rw [consoleread_run run]
        exact (if_pos yes).symm
      · rename_i no
        cases run
        exact (if_neg no).symm
  · rename_i type
    have inode := h.coherent.vol_inode h.held
    split
    · rename_i accept
      rw [readi_eq type accept.1 accept.2] at run
      obtain ⟨bytes, u, hloop, run⟩ := FsM.bind_ok.mp run
      cases run
      obtain ⟨_, _, _, rfl⟩ := readiLoop_run h (by omega) hloop
      rw [Volume.file_slice, inode]
      rfl
    · rename_i reject
      rw [readi_reject type hoff hn reject] at run
      cases run
      rfl

/-- Where no block it reads is missing `readi` returns and changes only buffers. -/
theorem readi_reads_part (input : Option (List UInt8)) (off n : Nat)
    (h : s.view.InUse s.view.sb.size ip) (type : (s.icache ip).type ≠ tDev)
    (there : ∀ o, off ≤ o → o < off + n → o < (s.icache ip).size →
      s.view.vol.node ((s.icache ip).inum :: leaf (o / bsize)) ≠ none)
    (hoff : off < 2 ^ 32) (hn : n < 2 ^ 32) :
    ∃ t, (readi input ip off n).run s = .ok (readResult s.view input ip off n, t) ∧
      s.Reads t := by
  suffices returns : ∃ a t, (readi input ip off n).run s = .ok (a, t) ∧ s.Reads t by
    obtain ⟨a, t, run, reads⟩ := returns
    rw [readi_run h hoff hn run] at run
    exact ⟨t, run, reads⟩
  by_cases accept : off ≤ (s.icache ip).size ∧ off + n < 2 ^ 32
  · rw [readi_eq type accept.1 accept.2]
    have present : ∀ o, off ≤ o → o < off + (min n ((s.icache ip).size - off) - 0) →
        ∃ b, (s.view.blocks ip).val (leaf (o / bsize)) = some b := by
      intro o low high
      have node := there o low (by omega) (by omega)
      rw [show (s.icache ip).inum = (s.view.icache ip).inum from rfl,
        View.node_of_blocks h.coherent h.held] at node
      refine Option.ne_none_iff_exists'.mp ?_
      intro none
      rw [none] at node
      exact node rfl
    obtain ⟨bytes, t, run, reads⟩ := readiLoop_reads present
    exact ⟨some bytes, t, FsM.bind_ok.mpr ⟨bytes, t, run, rfl⟩, reads⟩
  · exact ⟨none, s, readi_reject type hoff hn accept, .refl s⟩

/-- Where no block is missing `readi` returns and changes only buffers. -/
theorem readi_reads (input : Option (List UInt8))
    (h : s.view.InUse s.view.sb.size ip) (type : (s.icache ip).type ≠ tDev)
    (whole : s.view.vol.Whole (s.icache ip).inum) (hoff : off < 2 ^ 32) (hn : n < 2 ^ 32) :
    ∃ t, (readi input ip off n).run s = .ok (readResult s.view input ip off n, t) ∧
      s.Reads t := by
  refine readi_reads_part input off n h type ?_ hoff hn
  intro o _ _ inside
  refine whole _ ?_
  have size : (s.view.vol.inode (s.icache ip).inum).size = (s.icache ip).size :=
    congrArg Dinode.size (h.coherent.vol_inode h.held)
  have := Nat.div_mul_le_self o bsize
  omega

/-! ## `readi` and `writei` -/

/-- A regular file or a directory in memory whose block map is well formed: no block
below its size is missing, and blocks are not shared. -/
structure FileAt (s : Fs) (ip : InodePtr) : Prop where
  inUse : s.view.InUse s.view.sb.size ip
  type : (s.icache ip).type ≠ tDev
  whole : s.view.vol.Whole (s.icache ip).inum

/-- The bytes of an inode in memory. -/
def Fs.file (s : Fs) (ip : InodePtr) : List UInt8 := s.view.vol.file (s.icache ip).inum

/-- `readi` returns any part of `bytes` it is asked for, and changes neither the disk
nor what the kernel sees of it.  It returns `-1` behind the end, and where the sum of
its arguments is not a `uint`. -/
def ReadsAs (s : Fs) (ip : InodePtr) (bytes : List UInt8) : Prop :=
  ∀ input off n, off < 2 ^ 32 → n < 2 ^ 32 →
    ∃ t, (readi input ip off n).run s = .ok (if off ≤ bytes.length ∧ off + n < 2 ^ 32 then
      some ((bytes.drop off).take n) else none, t) ∧ s.Reads t

theorem FileAt.size (h : FileAt s ip) :
    (s.view.vol.inode (s.icache ip).inum).size = (s.icache ip).size :=
  congrArg Dinode.size (h.inUse.coherent.vol_inode h.inUse.held)

theorem FileAt.readsAs (h : FileAt s ip) : ReadsAs s ip (s.file ip) := by
  intro input off n hoff hn
  obtain ⟨t, run, reads⟩ := readi_reads input h.inUse h.type h.whole hoff hn
  refine ⟨t, ?_, reads⟩
  have type : ¬ (s.view.icache ip).type = tDev := h.type
  rw [run, readResult, if_neg type, Fs.file, Volume.file_length, h.size]
  rfl

/-- What `writei` does to the inodes and their bytes. -/
structure Wrote (s : Fs) (ip : InodePtr) (src : Nat → UInt8) (off n : Nat) (t : Fs) : Prop where
  inUse : t.view.InUse t.view.sb.size ip
  inum : (t.icache ip).inum = (s.icache ip).inum
  type : (t.icache ip).type = (s.icache ip).type
  other : ∀ ip' ≠ ip, t.icache ip' = s.icache ip'
  node : ∀ q x, s.view.vol.node q = some x → t.view.vol.node q = some x
  filled : ∀ o, off ≤ o → o < off + n →
    t.view.vol.node ((s.icache ip).inum :: leaf (o / bsize)) ≠ none
  size : ∀ i, (t.view.vol.inode i).size = if i = (s.icache ip).inum then
    max (s.icache ip).size (off + n) else (s.view.vol.inode i).size
  content : ∀ j o, t.view.vol.content j o = if j = (s.icache ip).inum ∧ off ≤ o ∧ o < off + n then
    src (o - off) else s.view.vol.content j o

namespace View

variable {v w : View}

/-- The steps that touch a file keep the sizes of all files. -/
theorem Touched.vol_size (hv : v.Coherent) (held : v.Held ip) (hw : w.Coherent)
    (t : Touched ip v w) (i : Nat) : (w.vol.inode i).size = (v.vol.inode i).size := by
  obtain ⟨inum, size, held'⟩ := t.same
  by_cases e : i = (v.icache ip).inum
  · rw [e, hv.vol_inode held, ← inum, hw.vol_inode (held' held)]
    exact size
  · simp only [vol, t.sb]
    split
    · rename_i lt
      rw [current_of_slot t.other (fun _ => Ne.symm e) (fun _ => by rw [inum]; exact Ne.symm e)
        (t.dnode i lt)]
    · rfl

end View

theorem mem_blockRange {off n o : Nat} (low : off ≤ o) (high : o < off + n) :
    o / bsize ∈ blockRange off n := by
  have first := Nat.div_le_div_right (c := bsize) low
  have last : o / bsize ≤ (off + n - 1) / bsize := Nat.div_le_div_right (by omega)
  rw [blockRange, if_neg (by omega), List.mem_range'_1]
  omega

/-- A write that is not rejected. -/
theorem writeiData_wrote {src : Nat → UInt8} {off n : Nat} {r : Int}
    (h : s.view.InUse s.view.sb.size ip) (small : off + n < 2 ^ 32) (inside : off ≤ (s.icache ip).size)
    (run : (writeiData ip src off n).run s = .ok (r, t)) : Wrote s ip src off n t := by
  obtain ⟨ls, u, writes, _, view⟩ := writeiData_run h run
  obtain ⟨inUse, touched, _, node, _, _⟩ := View.Run.of_written h writes.steps writes.written (by
    intro a ha
    exact (View.mem_free.mp (List.mem_of_mem_take ha)).1)
  obtain ⟨inum, size, _⟩ := touched.same
  have sizes := touched.vol_size h.coherent h.held inUse.coherent
  have inode := h.coherent.vol_inode h.held
  have filled : ∀ o, off ≤ o → o < off + n →
      u.vol.node ((s.icache ip).inum :: leaf (o / bsize)) ≠ none := by
    intro o low high
    obtain ⟨a, ha⟩ := writes.written.filled (List.mem_flatMap.mpr
      ⟨_, mem_blockRange low high, leaf_mem_path _⟩)
    have block := View.node_of_val inUse.coherent inUse.held (leaf_ne_nil _) ha
    have inum : (u.icache ip).inum = (s.icache ip).inum := inum
    rw [← inum, block]
    exact Option.some_ne_none _
  have type : (u.icache ip).type = (s.icache ip).type := by
    obtain ⟨addrs, e⟩ := touched.inode
    rw [e]
    rfl
  have top : u.sb.size = s.view.sb.size := by rw [touched.sb]
  split at view
  · rename_i grows
    obtain ⟨resized, _, content, node'⟩ := inUse.resize small
    have same : View.SameSlot (u.icache ip) { u.icache ip with size := off + n } := ⟨rfl, rfl, rfl⟩
    have hsb := View.store_sb (f := fun inode => { inode with size := off + n }) same
    have hinode : t.icache ip = { u.icache ip with size := off + n } :=
      (congrFun (congrArg View.icache view) ip).trans View.store_icache
    refine ⟨?_, ?_, ?_, ?_, ?_, ?_, ?_, ?_⟩
    · rw [view, hsb, top]
      exact resized
    · rw [hinode]
      exact inum
    · rw [hinode]
      exact type
    · intro ip' ne
      have slot : t.icache ip' = _ := congrFun (congrArg View.icache view) ip'
      rw [slot, View.store_icache_other ne, touched.other ip' ne]
      rfl
    · intro q x hq
      rw [view, node']
      exact node q x hq
    · rw [view, node']
      exact filled
    · intro i
      rw [view, View.vol_store inUse.coherent inUse.held same, inum]
      by_cases e : i = (s.icache ip).inum
      · have e' : i = (s.view.icache ip).inum := e
        rw [if_pos e, if_pos e']
        show off + n = max (s.icache ip).size (off + n)
        omega
      · have e' : ¬ i = (s.view.icache ip).inum := e
        rw [if_neg e, if_neg e', sizes]
    · intro j o
      rw [view, content]
      exact writes.content j o
  · rename_i stays
    rw [← view] at touched node filled sizes top
    refine ⟨?_, inum ▸ congrArg (fun v => (View.icache v ip).inum) view,
      type ▸ congrArg (fun v => (View.icache v ip).type) view, touched.other, node, filled, ?_, ?_⟩
    · rw [top, view]
      exact inUse
    · intro i
      rw [sizes]
      split
      · rename_i e
        rw [e]
        refine (congrArg Dinode.size inode).trans (Nat.max_eq_left ?_).symm
        show off + n ≤ (s.icache ip).size
        omega
      · rfl
    · rw [view]
      exact writes.content

namespace Wrote

variable {src : Nat → UInt8} {off n : Nat}

variable {ip' : InodePtr}

/-- The file that is written has the new bytes. -/
theorem fileAt_self (h : Wrote s ip src off n t) (file : FileAt s ip)
    (inside : off ≤ (s.icache ip).size) :
    FileAt t ip ∧ t.file ip = overwrite (s.file ip) off ((List.range n).map src) ∧
      (t.icache ip).size = max (s.icache ip).size (off + n) := by
  have size := h.size (s.icache ip).inum
  rw [if_pos rfl] at size
  have fileAt : FileAt t ip := by
    refine ⟨h.inUse, by rw [h.type]; exact file.type, ?_⟩
    rw [h.inum]
    intro bn below
    rw [size] at below
    by_cases old : bn * bsize < (s.icache ip).size
    · obtain ⟨x, hx⟩ := Option.ne_none_iff_exists'.mp (file.whole bn (by rwa [file.size]))
      rw [h.node _ x hx]
      exact Option.some_ne_none x
    · have filled := h.filled (bn * bsize) (by omega) (by omega)
      rwa [Nat.mul_div_cancel _ (by decide)] at filled
  refine ⟨fileAt, ?_, by rw [← fileAt.size, h.inum, size]⟩
  rw [Fs.file, Fs.file, h.inum]
  refine file_overwrite (by rwa [file.size]) (by rw [size, file.size]) ?_
  intro o
  rw [h.content]
  simp only [true_and]

/-- The other files have the bytes they had. -/
theorem file_other (h : Wrote s ip src off n t) {j : Nat} (ne : j ≠ (s.icache ip).inum) :
    t.view.vol.file j = s.view.vol.file j := by
  refine Volume.file_congr (by rw [h.size, if_neg ne]) ?_
  funext o
  rw [h.content, if_neg fun e => ne e.1]

theorem inum_ne (file : FileAt s ip) (ne : ip' ≠ ip) (held : s.view.Held ip') :
    (s.icache ip').inum ≠ (s.icache ip).inum :=
  fun e => ne (file.inUse.coherent.uniq ip' ip held.ref file.inUse.held.ref e)

theorem inUse_other (h : Wrote s ip src off n t) (ne : ip' ≠ ip)
    (held : s.view.Held ip') : t.view.InUse t.view.sb.size ip' := by
  have slot : t.view.icache ip' = s.view.icache ip' := h.other ip' ne
  exact ⟨h.inUse.owned, h.inUse.coherent, ⟨by rw [slot]; exact held.ref,
    by rw [slot]; exact held.valid⟩⟩

theorem fileAt_other (h : Wrote s ip src off n t) (file : FileAt s ip)
    (ne : ip' ≠ ip) (other : FileAt s ip') : FileAt t ip' ∧ t.file ip' = s.file ip' := by
  have slot := h.other ip' ne
  have apart := inum_ne file ne other.inUse.held
  refine ⟨⟨h.inUse_other ne other.inUse.held, by rw [slot]; exact other.type, ?_⟩, ?_⟩
  · rw [slot]
    intro bn below
    rw [h.size, if_neg apart] at below
    obtain ⟨x, hx⟩ := Option.ne_none_iff_exists'.mp (other.whole bn below)
    rw [h.node _ x hx]
    exact Option.some_ne_none x
  · rw [Fs.file, Fs.file, slot]
    exact h.file_other apart

end Wrote

/-- A file in memory is an array of bytes.  `readi` reads it, `writei` overwrites it
or does nothing, and what is read of the other inodes stays. -/
theorem readi_writei_bytes {src : Nat → UInt8} {off n : Nat} (file : FileAt s ip)
    (hoff : off < 2 ^ 32) (hn : n < 2 ^ 32) :
    ReadsAs s ip (s.file ip) ∧
      ∀ r t, (writei ip src off n).run s = .ok (r, t) →
        (r = n ∨ r = -1) ∧ (r = -1 → t = s) ∧
          (r = n →
            (t.icache ip).size = max (s.icache ip).size (off + n) ∧
            FileAt t ip ∧ ReadsAs t ip (overwrite (s.file ip) off ((List.range n).map src)) ∧
            (∀ j ≠ (s.icache ip).inum, t.view.vol.file j = s.view.vol.file j) ∧
            (∀ ip' ≠ ip, FileAt s ip' → FileAt t ip' ∧ ReadsAs t ip' (s.file ip')) ∧
            ∀ ip' ≠ ip, s.view.Held ip' → ∀ input off' n' a u a' u', off' < 2 ^ 32 →
              n' < 2 ^ 32 → (readi input ip' off' n').run s = .ok (a, u) →
                (readi input ip' off' n').run t = .ok (a', u') → a' = a) := by
  refine ⟨file.readsAs, ?_⟩
  intro r t run
  obtain ⟨reject, rfl, rfl⟩ | ⟨accept, run⟩ := writei_cases file.type run
  · refine ⟨.inr rfl, fun _ => rfl, ?_⟩
    intro count
    omega
  · obtain ⟨wrap, max⟩ := accept.bound hoff hn
    have small : off + n ≤ 8459776 := max
    obtain ⟨_, _, _, hr, _⟩ := writeiData_run file.inUse run
    have count : r = n := by
      rw [hr, toInt, if_pos (by omega)]
    have wrote := writeiData_wrote file.inUse (by omega) accept.1 run
    obtain ⟨fileAt, bytes, size⟩ := wrote.fileAt_self file accept.1
    refine ⟨.inl count, by omega, fun _ => ⟨size, fileAt, ?_, ?_, ?_, ?_⟩⟩
    · rw [← bytes]
      exact fileAt.readsAs
    · exact fun j ne => wrote.file_other ne
    · intro ip' ne other
      obtain ⟨fileAt', same⟩ := wrote.fileAt_other file ne other
      rw [← same]
      exact ⟨fileAt', fileAt'.readsAs⟩
    · intro ip' ne held input off' n' a u a' u' hoff' hn' before after
      have inUse : s.view.InUse s.view.sb.size ip' :=
        ⟨file.inUse.owned, file.inUse.coherent, held⟩
      have slot : t.view.icache ip' = s.view.icache ip' := wrote.other ip' ne
      have same : t.view.vol.file (s.view.icache ip').inum = s.view.vol.file _ :=
        wrote.file_other (Wrote.inum_ne file ne held)
      rw [readi_run inUse hoff' hn' before, readi_run (wrote.inUse_other ne held) hoff' hn' after,
        readResult, readResult, slot, same]

/-- An empty file on a disk without other files, in a transaction. -/
def openFile : Fs where
  log :=
    ⟨⟨Function.update emptyDisk 2 (Block.zero.setDinode 5 { newDinode 2 with nlink := 1 }),
      fun _ => none, []⟩, ⟨20450, logSize, 1, false, ⟨0, fun _ => 0⟩⟩⟩
  icache ip :=
    { newDinode 2 with nlink := 1, inum := 5, ref := if ip.val = 0 then 1 else 0, busy := true,
                       valid := true }
  ftable _ := ⟨.inode, true, ⟨0, ninode_pos⟩, 0⟩
  logged := ∅
  ops := []

theorem openFile_fileAt : FileAt openFile ⟨0, by decide⟩ := by
  have fits : Dinode.Fits { newDinode 2 with nlink := 1 } :=
    ⟨by decide, by decide, by decide, by decide, by decide, by decide⟩
  have direct : openFile.view.Direct 208 34 20480 fun b => (b, 0) := by
    constructor <;> decide +kernel
  have size : openFile.view.sb.size = 20480 := by decide +kernel
  have coherent : openFile.view.Coherent := by
    refine ⟨by decide, ?_, by decide, fun _ _ _ => fits, by decide, ?_⟩
    · rw [direct.slots]
      decide
    · intro _ _ _
      have disk : openFile.view.dnode 5 = { newDinode 2 with nlink := 1 } :=
        Block.dinode_setDinode_self (by decide) fits
      rw [show (openFile.view.icache _).inum = 5 from rfl, disk]
      exact .refl _
  have empty : (openFile.view.vol.inode 5).size = 0 := by decide +kernel
  refine ⟨⟨size ▸ direct.owned, coherent, by decide, rfl⟩, by decide, ?_⟩
  intro bn below
  have below : bn * bsize < (openFile.view.vol.inode 5).size := below
  omega

/-- Two bytes are written to an empty file. -/
theorem readi_writei_bytes_two :
    ∃ t, (writei ⟨0, by decide⟩ (fun k => UInt8.ofNat (k + 7)) 0 2).run openFile = .ok (2, t) ∧
      (t.icache ⟨0, by decide⟩).size = 2 ∧ ReadsAs t ⟨0, by decide⟩ [7, 8] := by
  have run : ((writei ⟨0, by decide⟩ (fun k => UInt8.ofNat (k + 7)) 0 2).run
      openFile).toOption.map Prod.fst = some 2 := by decide +kernel
  obtain ⟨⟨r, t⟩, hrun, rfl⟩ := ok_of_toOption run
  have result := (readi_writei_bytes openFile_fileAt (by decide) (by decide)).2 _ t hrun
  obtain ⟨size, _, bytes, _⟩ := result.2.2 rfl
  refine ⟨t, hrun, size, ?_⟩
  have old : openFile.file ⟨0, by decide⟩ = [] := by
    rw [Fs.file, Volume.file]
    have empty : (openFile.view.vol.inode (openFile.icache ⟨0, by decide⟩).inum).size = 0 := by
      decide +kernel
    rw [empty]
    rfl
  rw [old] at bytes
  exact bytes

/-- After the write of two bytes `readi` is asked for all from the second one on, with
a number that wraps, and returns `-1`. -/
theorem readi_wraps :
    ∃ t u, (writei ⟨0, by decide⟩ (fun k => UInt8.ofNat (k + 7)) 0 2).run openFile = .ok (2, t) ∧
      FileAt openFile ⟨0, by decide⟩ ∧ (t.icache ⟨0, by decide⟩).size = 2 ∧
        (readi none ⟨0, by decide⟩ 1 (2 ^ 32 - 1)).run t = .ok (none, u) ∧
          min (2 ^ 32 - 1) ((t.icache ⟨0, by decide⟩).size - 1) = 1 := by
  have run : ((writei ⟨0, by decide⟩ (fun k => UInt8.ofNat (k + 7)) 0 2).run
      openFile).toOption.map (fun r => (r.1, (r.2.icache ⟨0, by decide⟩).size,
        ((r.2.icache ⟨0, by decide⟩).type))) = some (2, 2, 2) := by decide +kernel
  obtain ⟨⟨r, t⟩, hrun, e⟩ := ok_of_toOption run
  simp only [Prod.mk.injEq] at e
  obtain ⟨rfl, size, type⟩ := e
  refine ⟨t, t, hrun, openFile_fileAt, size, ?_, by rw [size]; decide⟩
  exact readi_reject (by rw [type]; decide) (by decide) (by decide) (by omega)

end Xv6Gui
