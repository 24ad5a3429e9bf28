import Xv6Gui.Fs.OpSize
import Xv6Gui.Fs.Ownership

/-!
# Reading and writing the bytes of a file

The loops of `readi` and `writei` are runs of the steps that touch a file.  A round
of `writei` changes the bytes it copies, and nothing else changes a byte of any
file.  A round of `readi` returns the bytes as they are; if it meets a missing block
it allocates one, which is zeroed.
-/

namespace Xv6Gui

open Runs

variable {s t : Fs} {ip : InodePtr} {a : Nat}

variable {n off : Nat} {src : Nat → UInt8}

/-! ## `bmap` -/

theorem bmapAddr_steps {k : Fin (ndirect + 2)} (run : (bmapAddr ip k).run s = .ok (a, t)) :
    ∃ ls, none ∉ ls ∧ Steps (View.Touch ip) s.view ls t.view := by
  simp only [bmapAddr, FsM.get_bind] at run
  split at run
  · rename_i zero
    obtain ⟨b, u, hb, run⟩ := FsM.bind_ok.mp run
    obtain ⟨_, u', hset, run⟩ := FsM.bind_ok.mp run
    cases run
    obtain ⟨hu, size, clear, least⟩ := balloc_ok hb
    have view := setInode_ok hset
    rw [hu] at view
    refine ⟨[some a], by simp, .single ?_⟩
    rw [view]
    exact .addr ⟨size, clear, least⟩ zero
  · cases run
    exact ⟨[], by simp, .nil⟩

theorem bmapEntry_steps {p : List Nat} {block j : Nat} (hp : p ≠ []) (place : Place (p ++ [j]))
    (parent : (s.view.blocks ip).val p = some block)
    (run : (bmapEntry block j).run s = .ok (a, t)) :
    ∃ ls, none ∉ ls ∧ Steps (View.Touch ip) s.view ls t.view := by
  obtain ⟨bp, u, hread, run⟩ := FsM.bind_ok.mp run
  obtain ⟨rfl, hu⟩ := bread_ok hread
  dsimp only at run
  split at run
  · rename_i zero
    obtain ⟨b, u₁, hb, run⟩ := FsM.bind_ok.mp run
    obtain ⟨_, u₂, hwrite, run⟩ := FsM.bind_ok.mp run
    cases run
    obtain ⟨hu₁, size, clear, least⟩ := balloc_ok hb
    rw [hu] at hu₁ size clear least
    have view := logWrite_ok hwrite
    rw [hu₁] at view
    refine ⟨[some a], by simp, .single ?_⟩
    rw [view]
    exact .entry ⟨size, clear, least⟩ hp place parent zero
  · cases run
    rw [hu]
    exact ⟨[], by simp, .nil⟩

/-- `bmap` allocates what is missing on the way to a block. -/
theorem bmap_steps {bn : Nat} (wf : s.view.WellFormed ip) (run : (bmap ip bn).run s = .ok (a, t)) :
    ∃ ls, none ∉ ls ∧ Steps (View.Touch ip) s.view ls t.view := by
  have join : ∀ {u v w : View} {ks ls : List (Option Nat)}, none ∉ ks → none ∉ ls →
      Steps (View.Touch ip) u ks v → Steps (View.Touch ip) v ls w →
        ∃ ls, none ∉ ls ∧ Steps (View.Touch ip) u ls w := by
    intro u v w ks ls hk hl first second
    exact ⟨ks ++ ls, by simp [hk, hl], first.trans second⟩
  rw [bmap] at run
  split at run
  · exact bmapAddr_steps run
  · split at run
    · rename_i single
      obtain ⟨addr, u, hu, run⟩ := FsM.bind_ok.mp run
      obtain ⟨_, val⟩ := bmapAddr_ok (.start wf) hu
      obtain ⟨ks, hk, first⟩ := bmapAddr_steps hu
      have place : Place ([ndirect] ++ [bn - ndirect]) := ⟨le_rfl, by decide, single⟩
      obtain ⟨ls, hl, second⟩ := bmapEntry_steps (by simp) place val run
      exact join hk hl first second
    · split at run
      · rename_i double
        obtain ⟨addr, u, hu, run⟩ := FsM.bind_ok.mp run
        obtain ⟨addr', u', hu', run⟩ := FsM.bind_ok.mp run
        have first : (bn - ndirect - nindirect) / nindirect < nindirect :=
          Nat.div_lt_of_lt_mul double
        have second : (bn - ndirect - nindirect) % nindirect < nindirect :=
          Nat.mod_lt _ (by decide)
        have place : Place ([ndirect + 1] ++ [(bn - ndirect - nindirect) / nindirect]) :=
          ⟨by decide, by decide, first⟩
        have place' : Place ([ndirect + 1, (bn - ndirect - nindirect) / nindirect] ++
            [(bn - ndirect - nindirect) % nindirect]) := ⟨rfl, first, second⟩
        obtain ⟨written, val⟩ := bmapAddr_ok (.start wf) hu
        obtain ⟨_, val'⟩ := bmapEntry_ok written (by simp) place val hu'
        obtain ⟨ks, hk, one⟩ := bmapAddr_steps hu
        obtain ⟨ls, hl, two⟩ := bmapEntry_steps (by simp) place val hu'
        obtain ⟨ms, hm, three⟩ := bmapEntry_steps (by simp) place' val' run
        obtain ⟨_, hkl, both⟩ := join hk hl one two
        exact join hkl hm both three
      · cases run

/-- What `bmap` does for a file in use. -/
theorem bmap_run {bn : Nat} (h : s.view.InUse s.view.sb.size ip)
    (run : (bmap ip bn).run s = .ok (a, t)) :
    ∃ ls, none ∉ ls ∧ Steps (View.Touch ip) s.view ls t.view ∧
      View.Run ip s.view.sb.size s.view ls t.view ∧
        (t.view.blocks ip).val (leaf bn) = some a := by
  have wf := h.owned.wellFormed h.coherent h.held
  obtain ⟨ls, hl, steps⟩ := bmap_steps wf run
  obtain ⟨written, val⟩ := bmap_ok (.start wf) run
  refine ⟨ls, hl, steps, .of_written h steps written ?_, val⟩
  intro b hb
  exact (View.mem_free.mp (List.mem_of_mem_take hb)).1

/-! ## The loops -/

/-- The bytes of a file in a round that starts at `o`. -/
theorem round_div_mod {o k : Nat} (hk : k < bsize - o % bsize) :
    (o + k) / bsize = o / bsize ∧ (o + k) % bsize = o % bsize + k := by
  have size : bsize = 512 := rfl
  rw [size] at hk ⊢
  omega

theorem Block.slice_eq {b : Block} {start m : Nat} {f : Nat → UInt8}
    (h : ∀ k < m, ∃ inside : start + k < bsize, b ⟨start + k, inside⟩ = f k) :
    b.slice start m = (List.range m).map f := by
  refine List.map_congr_left ?_
  intro k hk
  obtain ⟨inside, e⟩ := h k (List.mem_range.mp hk)
  rw [Block.byte, dif_pos inside, UInt8.ofNat_toNat, e]

theorem InUse.next {u : View} {ls : List (Option Nat)} {v : View}
    (h : View.Run ip v.sb.size v ls u) : u.InUse u.sb.size ip := by
  rw [h.touched.sb]
  exact h.inUse

/-- `readi` returns the bytes of the file and changes none. -/
theorem readiLoop_run {rounds tot : Nat} {bytes : List UInt8}
    (h : s.view.InUse s.view.sb.size ip) (enough : n - tot ≤ rounds)
    (run : (readiLoop ip n rounds tot off).run s = .ok (bytes, t)) :
    ∃ ls, none ∉ ls ∧ Steps (View.Touch ip) s.view ls t.view ∧
      bytes = (List.range (n - tot)).map fun k =>
        s.view.vol.content (s.icache ip).inum (off + k) := by
  induction rounds generalizing s tot off bytes with
  | zero =>
    cases run
    have done : n - tot = 0 := by omega
    rw [done]
    exact ⟨[], by simp, .nil, rfl⟩
  | succ rounds ih =>
    simp only [readiLoop] at run
    split at run
    · rename_i more
      obtain ⟨b, u, hmap, run⟩ := FsM.bind_ok.mp run
      obtain ⟨bp, u₁, hread, run⟩ := FsM.bind_ok.mp run
      obtain ⟨rest, u₂, hrest, run⟩ := FsM.bind_ok.mp run
      cases run
      obtain ⟨rfl, hu₁⟩ := bread_ok hread
      obtain ⟨ks, hk, first, result, val⟩ := bmap_run h hmap
      have inUse := InUse.next result
      have content := result.content hk
      have inum : (u.view.icache ip).inum = (s.view.icache ip).inum := result.touched.same.1
      rw [← hu₁] at inUse content inum first
      generalize hm : min (n - tot) (bsize - off % bsize) = m at hrest
      have left : n - tot = m + (n - (tot + m)) := by omega
      have progress : 0 < m := by
        have : off % bsize < bsize := Nat.mod_lt _ (by decide)
        omega
      obtain ⟨ls, hl, second, bytes⟩ := ih inUse (by omega) hrest
      refine ⟨ks ++ ls, by simp [hk, hl], first.trans second, ?_⟩
      have block : u.view.vol.node ((s.view.icache ip).inum :: leaf (off / bsize)) =
          some (.block b) := by
        have node := View.node_of_val result.inUse.coherent result.inUse.held (leaf_ne_nil _) val
        rw [← hu₁, inum] at node
        rwa [← hu₁]
      have slice : (u.view.data b).slice (off % bsize) m = (List.range m).map fun k =>
          s.view.vol.content (s.icache ip).inum (off + k) := by
        refine Block.slice_eq ?_
        intro k hk
        obtain ⟨div, mod⟩ := round_div_mod (o := off) (k := k) (by omega)
        have inside : off % bsize + k < bsize := mod ▸ Nat.mod_lt _ (by decide)
        refine ⟨inside, ?_⟩
        have byte := Volume.content_of_block (v := u.view.vol) (o := off + k)
          (by rw [div]; exact block)
        rw [← hu₁, content] at byte
        refine Eq.trans ?_ byte.symm
        rw [hu₁]
        exact congrArg (u.view.data b) (Fin.ext mod.symm)
      rw [slice, bytes, left, List.range_add, List.map_append, List.map_map]
      congr 1
      refine List.map_congr_left ?_
      intro k _
      have inum : (u₁.icache ip).inum = (s.icache ip).inum := inum
      rw [content, inum]
      exact congrArg _ (Nat.add_assoc off m k)
    · cases run
      have done : n - tot = 0 := by omega
      rw [done]
      exact ⟨[], by simp, .nil, rfl⟩

/-- Which bytes of a block a round that starts at `off` writes. -/
theorem round_iff {o m : Nat} (div : o / bsize = off / bsize) :
    (off % bsize ≤ o % bsize ∧ o % bsize < off % bsize + m ↔ off ≤ o ∧ o < off + m) ∧
      o % bsize - off % bsize = o - off := by
  have size : bsize = 512 := rfl
  rw [size] at div ⊢
  omega

/-- A byte of a block that was written in a round. -/
theorem Block.copy_eq {b : Block} {start m : Nat} {j : Fin bsize} :
    b.copy start m src j =
      if start ≤ j.val ∧ j.val < start + m then src (j.val - start) else b j := rfl

/-- `writei` changes the bytes that are written, and no others. -/
theorem writeiLoop_run {rounds tot off' : Nat}
    (h : s.view.InUse s.view.sb.size ip) (enough : n - tot ≤ rounds)
    (run : (writeiLoop ip src n rounds tot off).run s = .ok (off', t)) :
    ∃ ls, Steps (View.Touch ip) s.view ls t.view ∧ ∀ j o, t.view.vol.content j o =
      if j = (s.icache ip).inum ∧ off ≤ o ∧ o < off + (n - tot) then src (tot + (o - off))
      else s.view.vol.content j o := by
  induction rounds generalizing s tot off with
  | zero =>
    cases run
    refine ⟨[], .nil, ?_⟩
    intro j o
    rw [if_neg (by omega)]
  | succ rounds ih =>
    simp only [writeiLoop] at run
    split at run
    · rename_i more
      obtain ⟨b, u, hmap, run⟩ := FsM.bind_ok.mp run
      obtain ⟨bp, u₁, hread, run⟩ := FsM.bind_ok.mp run
      obtain ⟨_, u₂, hwrite, hrest⟩ := FsM.bind_ok.mp run
      obtain ⟨rfl, hu₁⟩ := bread_ok hread
      obtain ⟨ks, hk, first, result, val⟩ := bmap_run h hmap
      have view := logWrite_ok hwrite
      rw [hu₁] at view
      generalize hm : min (n - tot) (bsize - off % bsize) = m at view hrest
      have progress : 0 < m := by
        have : off % bsize < bsize := Nat.mod_lt _ (by decide)
        omega
      have inum : (u.view.icache ip).inum = (s.view.icache ip).inum := result.touched.same.1
      obtain ⟨inUse, touched, _, _, put, node⟩ := View.Touch.data_spec
        (d := (u.view.data b).copy (off % bsize) m fun i => src (tot + i)) result.inUse val
      have step : View.Touch ip u.view none u₂.view := view ▸ .data _ val
      rw [← view] at inUse touched put
      have inUse : u₂.view.InUse u₂.view.sb.size ip := by
        rw [touched.sb, result.touched.sb]
        exact inUse
      have inum₂ : (u₂.view.icache ip).inum = (s.view.icache ip).inum :=
        touched.same.1.trans inum
      have content : ∀ j o, u₂.view.vol.content j o =
          if j = (s.icache ip).inum ∧ off ≤ o ∧ o < off + m then src (tot + (o - off))
          else s.view.vol.content j o := by
        intro j o
        rw [put, Volume.content_put result.inUse.owned.separate node, inum]
        by_cases here : j = (s.view.icache ip).inum ∧ o / bsize = off / bsize
        · obtain ⟨rfl, div⟩ := here
          have byte := Volume.content_of_block (v := u.view.vol) (o := o)
            (i := (s.view.icache ip).inum) (b := b) (by rw [div, ← inum]; exact node)
          obtain ⟨range, index⟩ := round_iff (m := m) div
          rw [if_pos ⟨rfl, div⟩, Block.copy_eq]
          by_cases inside : off ≤ o ∧ o < off + m
          · rw [if_pos (range.mpr inside), if_pos ⟨rfl, inside⟩, index]
          · rw [if_neg fun h => inside (range.mp h), if_neg fun h => inside h.2,
              ← result.content hk, byte]
            rfl
        · rw [if_neg here, if_neg, result.content hk]
          rintro ⟨e, low, high⟩
          have round := round_div_mod (o := off) (k := o - off) (by omega)
          rw [Nat.add_sub_cancel' low] at round
          exact here ⟨e, round.1⟩
      obtain ⟨ls, second, rest⟩ := ih inUse (by omega) hrest
      refine ⟨ks ++ [none] ++ ls, (first.trans (.single step)).trans second, ?_⟩
      intro j o
      rw [rest, content]
      have inum : (u₂.icache ip).inum = (s.icache ip).inum := inum₂
      rw [inum]
      by_cases e : j = (s.icache ip).inum
      · by_cases low : off ≤ o ∧ o < off + m
        · rw [if_neg (by omega), if_pos ⟨e, low⟩, if_pos (by omega)]
        · by_cases high : off + m ≤ o ∧ o < off + m + (n - (tot + m))
          · rw [if_pos ⟨e, high⟩, if_pos (by omega)]
            congr 1
            omega
          · rw [if_neg (by omega), if_neg (by omega), if_neg (by omega)]
      · rw [if_neg (fun h => e h.1), if_neg (fun h => e h.1), if_neg (fun h => e h.1)]
    · cases run
      refine ⟨[], .nil, ?_⟩
      intro j o
      rw [if_neg (by omega)]

/-! ## `writei` -/

theorem iupdate_view (run : (iupdate ip).run s = .ok ((), t)) : t.view = s.view.sync ip := by
  rw [iupdate, FsM.get_bind] at run
  obtain ⟨bp, u, hread, run⟩ := FsM.bind_ok.mp run
  obtain ⟨rfl, hu⟩ := bread_ok hread
  rw [logWrite_ok run, hu]
  rfl

/-- What a write that is not rejected does: the places on the way to the data are
demanded, the data is written, and then the file may grow. -/
structure View.Writes (ip : InodePtr) (src : Nat → UInt8) (off n : Nat) (v w : View)
    (ls : List (Option Nat)) : Prop where
  steps : Steps (View.Touch ip) v ls w
  written : v.Written ip (paths (blockRange off n)) (leaves (blockRange off n)) w
  content : ∀ j o, w.vol.content j o =
    if j = (v.icache ip).inum ∧ off ≤ o ∧ o < off + n then src (o - off) else v.vol.content j o

theorem writeiData_run {r : Int}
    (h : s.view.InUse s.view.sb.size ip) (run : (writeiData ip src off n).run s = .ok (r, t)) :
    ∃ ls u, View.Writes ip src off n s.view u ls ∧ r = toInt n ∧
      t.view = if 0 < n ∧ off + n > (s.icache ip).size then
        u.store ip fun inode => { inode with size := off + n } else u := by
  obtain ⟨off', u, hloop, run⟩ := FsM.bind_ok.mp run
  obtain ⟨ls, steps, content⟩ := writeiLoop_run h (by omega) hloop
  obtain ⟨rfl, written⟩ :=
    writeiLoop_ok (.start (h.owned.wellFormed h.coherent h.held)) (by omega) hloop
  rw [Nat.sub_zero, List.nil_append, Finset.empty_union] at written
  simp only [Nat.sub_zero, Nat.zero_add] at content run
  refine ⟨ls, u.view, ⟨steps, written, content⟩, ?_⟩
  have size : (u.icache ip).size = (s.icache ip).size := written.frame.size
  rw [FsM.get_bind, size] at run
  split at run
  · rename_i grows
    obtain ⟨_, u₁, hset, run⟩ := FsM.bind_ok.mp run
    obtain ⟨_, u₂, hupdate, run⟩ := FsM.bind_ok.mp run
    cases run
    rw [if_pos grows, iupdate_view hupdate, setInode_ok hset]
    exact ⟨rfl, rfl⟩
  · rename_i same
    cases run
    rw [if_neg same]
    exact ⟨rfl, rfl⟩

/-- `writei` does not return `-1`. -/
def Accepts (inode : Inode) (off n : Nat) : Prop :=
  off ≤ inode.size ∧ off ≤ (off + n) % 2 ^ 32 ∧ (off + n) % 2 ^ 32 ≤ maxFile * bsize

theorem Accepts.bound {inode : Inode} (h : Accepts inode off n) (hoff : off < 2 ^ 32)
    (hn : n < 2 ^ 32) : (off + n) % 2 ^ 32 = off + n ∧ off + n ≤ maxFile * bsize := by
  obtain ⟨_, wrap, max⟩ := h
  have : maxFile * bsize = 8459776 := by decide
  omega

/-- `writei` returns `-1` and does nothing, or it writes. -/
theorem writei_cases {r : Int} (type : (s.icache ip).type ≠ tDev)
    (run : (writei ip src off n).run s = .ok (r, t)) :
    (¬ Accepts (s.icache ip) off n ∧ r = -1 ∧ t = s) ∨
      (Accepts (s.icache ip) off n ∧ (writeiData ip src off n).run s = .ok (r, t)) := by
  simp only [writei, FsM.get_bind, if_neg type] at run
  split at run
  · rename_i range
    cases run
    refine .inl ⟨?_, rfl, rfl⟩
    rintro ⟨size, wrap, _⟩
    omega
  · split at run
    · rename_i big
      cases run
      refine .inl ⟨?_, rfl, rfl⟩
      rintro ⟨_, _, max⟩
      omega
    · rename_i range big
      exact .inr ⟨⟨by omega, by omega, by omega⟩, run⟩

/-- The size of a file in use changes. -/
theorem View.InUse.resize {v : View} {top size : Nat} (h : v.InUse top ip) (small : size < 2 ^ 32) :
    (v.store ip fun inode => { inode with size := size }).InUse top ip ∧
      (v.store ip fun inode => { inode with size := size }).free = v.free ∧
        (v.store ip fun inode => { inode with size := size }).vol.content = v.vol.content ∧
          (v.store ip fun inode => { inode with size := size }).vol.node = v.vol.node := by
  have fits := h.coherent.fits ip h.held.ref h.held.valid
  exact h.store ⟨rfl, rfl, rfl⟩
    ⟨fits.type, fits.major, fits.minor, fits.nlink, small, fits.addrs⟩
    (h.coherent.type ip h.held.ref h.held.valid) rfl

end Xv6Gui
