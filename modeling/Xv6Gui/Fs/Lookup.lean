import Xv6Gui.Fs.CacheSteps
import Xv6Gui.Fs.Dir

/-!
# Looking up names

A directory is an array of entries.  `dirlookup` reads it from the start and stops at the
first entry that is in use and has the name.  Where no block of the directory is missing
it changes only buffers, up to the reference to the inode it has found.
-/

namespace Xv6Gui

open Effect

variable {p : List UInt8} {ip : InodePtr}

/-! ## Names -/

/-- A C string in an array: behind a zero there are only zeros. -/
def Padded (p : List UInt8) : Prop := ∀ i j, i ≤ j → p.getD i 0 = 0 → p.getD j 0 = 0

theorem padded_of_nonzero (h : (0 : UInt8) ∉ p) : Padded p := by
  intro i j le zero
  by_cases inside : i < p.length
  · rw [List.getD_eq_getElem p 0 inside] at zero
    exact absurd (zero ▸ List.getElem_mem inside) h
  · exact List.getD_eq_default p 0 (by omega)

theorem getD_strncpy (t : List UInt8) (i : Nat) :
    (strncpy t).getD i 0 = if i < dirsiz then t.getD i 0 else 0 := by
  split
  · rename_i inside
    rw [List.getD_eq_getElem _ _ (by rwa [strncpy, List.length_map, List.length_range])]
    simp [strncpy]
  · rename_i outside
    refine List.getD_eq_default _ _ ?_
    rw [strncpy, List.length_map, List.length_range]
    omega

theorem padded_strncpy {t : List UInt8} (h : Padded t) : Padded (strncpy t) := by
  intro i j le zero
  rw [getD_strncpy] at zero ⊢
  split
  · rename_i inside
    rw [if_pos (by omega)] at zero
    exact h i j le zero
  · rfl

theorem Padded.tail (h : Padded p) : Padded p.tail := by
  intro i j le zero
  simp only [List.getD_eq_getElem?_getD, List.getElem?_tail] at zero ⊢
  have := h (i + 1) (j + 1) (by omega)
  simp only [List.getD_eq_getElem?_getD] at this
  exact this zero

theorem headD_eq (p : List UInt8) : p.headD 0 = p.getD 0 0 := by
  cases p <;> rfl

/-- `strncmp` is zero where the arrays agree. -/
theorem strncmp_eq_zero {n : Nat} {q : List UInt8} (hp : Padded p) (hq : Padded q) :
    strncmp n p q = 0 ↔ ∀ i < n, p.getD i 0 = q.getD i 0 := by
  induction n generalizing p q with
  | zero => simp [strncmp]
  | succ n ih =>
    have rest : (∀ i < n + 1, p.getD i 0 = q.getD i 0) ↔
        p.getD 0 0 = q.getD 0 0 ∧ ∀ i < n, p.tail.getD i 0 = q.tail.getD i 0 := by
      simp only [List.getD_eq_getElem?_getD, List.getElem?_tail]
      constructor
      · intro h
        exact ⟨h 0 (by omega), fun i hi => h (i + 1) (by omega)⟩
      · rintro ⟨first, rest⟩ i hi
        cases i with
        | zero => exact first
        | succ i => exact rest i (by omega)
    rw [strncmp, rest, headD_eq, headD_eq]
    split
    · rename_i same
      rw [ih hp.tail hq.tail]
      exact ⟨fun h => ⟨same.2, h⟩, fun h => h.2⟩
    · rename_i differ
      constructor
      · intro zero
        have first : p.getD 0 0 = q.getD 0 0 := UInt8.toNat.inj (by omega)
        have stop : p.getD 0 0 = 0 := by
          by_contra more
          exact differ ⟨more, first⟩
        refine ⟨first, fun i _ => ?_⟩
        simp only [List.getD_eq_getElem?_getD, List.getElem?_tail] at *
        have hp := hp 0 (i + 1) (Nat.zero_le _)
        have hq := hq 0 (i + 1) (Nat.zero_le _)
        simp only [List.getD_eq_getElem?_getD] at hp hq
        rw [hp stop, hq (first ▸ stop)]
      · rintro ⟨first, _⟩
        rw [first]
        omega

/-- Names agree if the arrays with them do. -/
theorem namecmp_eq_zero {a b : List UInt8} (ha : Padded a) (hb : Padded b) :
    namecmp a (strncpy b) = 0 ↔ strncpy a = strncpy b := by
  rw [namecmp, strncmp_eq_zero ha (padded_strncpy hb)]
  constructor
  · intro h
    refine List.map_congr_left ?_
    intro i hi
    have inside := List.mem_range.mp hi
    have := h i inside
    rwa [getD_strncpy, if_pos inside] at this
  · intro h i hi
    rw [← h, getD_strncpy, if_pos hi]

/-! ## Inodes in memory -/

/-- Only buffers, inodes in memory and open files change. -/
structure Fs.Peeks (s t : Fs) : Prop where
  data : t.view.data = s.view.data
  logged : t.logged = s.logged
  log : t.log.log = s.log.log
  disk : t.log.bio.disk = s.log.bio.disk

theorem Fs.Peeks.trans {s t u : Fs} (h : s.Peeks t) (k : t.Peeks u) : s.Peeks u :=
  ⟨k.data.trans h.data, k.logged.trans h.logged, k.log.trans h.log, k.disk.trans h.disk⟩

theorem Fs.Reads.peeks {s t : Fs} (h : s.Reads t) : s.Peeks t :=
  ⟨congrArg View.data h.view, congrArg View.logged h.view, h.log, h.disk⟩

/-- `iget` returns if an inode in memory is not in use. -/
theorem iget_returns {s : Fs} {ip₀ : InodePtr} (inum : Nat) (free : (s.icache ip₀).ref = 0) :
    ∃ ip t, (iget inum).run s = .ok (ip, t) ∧ s.Peeks t := by
  rw [iget, FsM.get_bind]
  split
  · exact ⟨_, _, rfl, rfl, rfl, rfl, rfl⟩
  · split
    · exact ⟨_, _, rfl, rfl, rfl, rfl, rfl⟩
    · rename_i none
      have := List.find?_eq_none.mp none ip₀ (List.mem_finRange ip₀)
      simp [free] at this

/-- `ilock` returns if nobody has locked the inode and it is not free. -/
theorem ilock_returns {s : Fs} (href : 0 < (s.icache ip).ref)
    (busy : (s.icache ip).busy = false)
    (type : (s.icache ip).valid = false → (s.view.dnode (s.icache ip).inum).type ≠ 0) :
    ∃ t, (ilock ip).run s = .ok ((), t) ∧ t.view = s.view.lock ip ∧ s.Peeks t := by
  suffices returns : ∃ t, (ilock ip).run s = .ok ((), t) ∧ s.Peeks t by
    obtain ⟨t, run, peeks⟩ := returns
    exact ⟨t, run, ilock_ok run, peeks⟩
  obtain ⟨u, hu⟩ : ∃ u, (setInode ip fun inode => { inode with busy := true }).run s = .ok ((), u) :=
    ⟨_, rfl⟩
  have slot : u.icache ip = { s.icache ip with busy := true } := by
    cases hu
    exact Function.update_self ..
  have peeks : s.Peeks u := by
    cases hu
    exact ⟨rfl, rfl, rfl, rfl⟩
  have enter : (ilock ip).run s = (iload ip).run u := by
    rw [ilock, FsM.get_bind, if_neg (by omega), if_neg (by rw [busy]; decide), run_bind hu]
  rw [enter, iload, FsM.get_bind, slot]
  cases valid : (s.icache ip).valid with
  | true => exact ⟨u, by simp only [valid]; rfl, peeks⟩
  | false =>
    obtain ⟨w, read, reads⟩ := bread_reads u (iblock (s.icache ip).inum)
    have some : ((u.view.data (iblock (s.icache ip).inum)).dinode
        ((s.icache ip).inum % ipb)).type ≠ 0 := by
      rw [peeks.data]
      exact type valid
    obtain ⟨t, ht⟩ : ∃ t, (setInode ip fun inode => { inode with
        toDinode := (u.view.data (iblock (s.icache ip).inum)).dinode ((s.icache ip).inum % ipb),
        valid := true }).run w = .ok ((), t) := ⟨_, rfl⟩
    have last : w.Peeks t := by
      cases ht
      exact ⟨rfl, rfl, rfl, rfl⟩
    refine ⟨t, ?_, (peeks.trans reads.peeks).trans last⟩
    simp only [valid]
    rw [if_neg (by decide), run_bind read, if_neg some, run_bind ht]
    rfl

theorem ilock_other {s t : Fs} {ip' : InodePtr} (run : (ilock ip).run s = .ok ((), t))
    (ne : ip' ≠ ip) : t.icache ip' = s.icache ip' :=
  (congrFun (congrArg View.icache (ilock_ok run)) ip').trans (View.setInode_icache_of_ne ne _)

/-- `iunlock` returns for an inode that is locked. -/
theorem iunlock_returns {s : Fs} (href : 0 < (s.icache ip).ref)
    (busy : (s.icache ip).busy = true) :
    ∃ t, (iunlock ip).run s = .ok ((), t) ∧
      t.view = s.view.setInode ip (fun inode => { inode with busy := false }) ∧ s.Peeks t := by
  have run : (iunlock ip).run s =
      (setInode ip fun inode => { inode with busy := false }).run s := by
    rw [iunlock, FsM.get_bind, if_neg (by rw [busy]; simp; omega)]
  exact ⟨_, run.trans rfl, rfl, rfl, rfl, rfl, rfl⟩

theorem iget_other {s t : Fs} {ip' : InodePtr} {inum : Nat}
    (run : (iget inum).run s = .ok (ip, t)) (ne : ip' ≠ ip) : t.icache ip' = s.icache ip' := by
  obtain ⟨_, _, view⟩ | ⟨_, _, view⟩ := iget_ok run
  · exact (congrFun (congrArg View.icache view) ip').trans (View.setInode_icache_of_ne ne _)
  · exact (congrFun (congrArg View.icache view) ip').trans (View.setInode_icache_of_ne ne _)

/-- If no inode is locked then `iget` does not return one that is. -/
theorem iget_idle {s t : Fs} {inum : Nat} (run : (iget inum).run s = .ok (ip, t))
    (idle : 0 < (s.icache ip).ref → (s.icache ip).busy = false) : (t.icache ip).busy = false := by
  obtain ⟨href, _, view⟩ | ⟨_, _, view⟩ := iget_ok run
  · have slot : t.icache ip = _ :=
      (congrFun (congrArg View.icache view) ip).trans (View.setInode_icache _)
    rw [slot]
    exact idle href
  · have slot : t.icache ip = _ :=
      (congrFun (congrArg View.icache view) ip).trans (View.setInode_icache _)
    rw [slot]

/-! ## Entries -/

theorem length_strncpy (t : List UInt8) : (strncpy t).length = dirsiz := by
  rw [strncpy, List.length_map, List.length_range]

/-- What is read as an entry is what was written. -/
theorem Dirent.ofBytes_bytes {de : Dirent} (small : de.inum < 2 ^ 16)
    (length : de.name.length = dirsiz) : Dirent.ofBytes de.bytes = de := by
  have inum : (Dirent.ofBytes de.bytes).inum = de.inum := by
    show (UInt8.ofNat de.inum).toNat + 2 ^ 8 * (UInt8.ofNat (de.inum / 2 ^ 8)).toNat = de.inum
    rw [UInt8.toNat_ofNat', UInt8.toNat_ofNat']
    omega
  have name : (Dirent.ofBytes de.bytes).name = de.name := by
    refine List.ext_getElem (by simp [Dirent.ofBytes, length]) ?_
    intro i hi hi'
    have get : de.bytes.getD (2 + i) 0 = de.name.getD i 0 := by
      rw [Dirent.bytes, List.getD_append_right _ _ _ _ (Nat.le_add_right 2 i),
        List.getD_eq_getElem _ _ (by simp; omega)]
      simp
    simp only [Dirent.ofBytes, List.getElem_map, List.getElem_range, get]
    exact List.getD_eq_getElem _ _ hi'
  exact congrArg₂ Dirent.mk inum name

/-- Entry `k` of a directory. -/
def Volume.entry (v : Volume) (i k : Nat) : Dirent :=
  .ofBytes ((List.range direntSize).map fun j => v.content i (direntSize * k + j))

/-- `dirlookup` takes this entry. -/
def Dirent.Matches (de : Dirent) (name : List UInt8) : Prop :=
  de.inum ≠ 0 ∧ namecmp name de.name = 0
  deriving Decidable

variable {s t : Fs} {dp : InodePtr} {name : List UInt8}

/-- A directory that can be searched. -/
structure DirAt (s : Fs) (dp : InodePtr) : Prop where
  inUse : s.view.InUse s.view.sb.size dp
  type : (s.icache dp).type = tDir

theorem DirAt.reads (h : DirAt s dp) (reads : s.Reads t) : DirAt t dp := by
  have icache : t.icache = s.icache := congrArg View.icache reads.view
  refine ⟨?_, ?_⟩
  · rw [reads.view]
    exact h.inUse
  · rw [icache]
    exact h.type

/-- `readi` of an entry. -/
theorem DirAt.read_entry (h : DirAt s dp) {k : Nat}
    (inside : direntSize * (k + 1) ≤ (s.icache dp).size)
    (there : ∀ o < direntSize * (k + 1),
      s.view.vol.node ((s.icache dp).inum :: leaf (o / bsize)) ≠ none) :
    ∃ bytes t, (readi none dp (direntSize * k) direntSize).run s = .ok (some bytes, t) ∧
      s.Reads t ∧ bytes.length = direntSize ∧
      Dirent.ofBytes bytes = s.view.vol.entry (s.icache dp).inum k := by
  have type : (s.icache dp).type ≠ tDev := by
    rw [h.type]
    decide
  have small : (s.icache dp).size < 2 ^ 32 :=
    (h.inUse.coherent.fits dp h.inUse.held.ref h.inUse.held.valid).size
  have succ : direntSize * (k + 1) = direntSize * k + direntSize := Nat.mul_succ ..
  have size : direntSize = 32 := rfl
  obtain ⟨t, run, reads⟩ := readi_reads_part none (direntSize * k) direntSize h.inUse
    type (fun o _ high _ => there o (by omega)) (by omega) (by decide)
  have inode : (s.view.vol.inode (s.icache dp).inum).size = (s.icache dp).size :=
    congrArg Dinode.size (h.inUse.coherent.vol_inode h.inUse.held)
  have result : readResult s.view none dp (direntSize * k) direntSize =
      some ((List.range direntSize).map fun j =>
        s.view.vol.content (s.icache dp).inum (direntSize * k + j)) := by
    have type : ¬ (s.view.icache dp).type = tDev := type
    have accept : direntSize * k ≤ (s.view.icache dp).size ∧ direntSize * k + direntSize < 2 ^ 32 := by
      have : (s.view.icache dp).size = (s.icache dp).size := rfl
      omega
    have count : min direntSize ((s.view.vol.inode (s.icache dp).inum).size - direntSize * k) =
        direntSize := by
      omega
    rw [readResult, if_neg type, if_pos accept, Volume.file_slice]
    exact congrArg (fun n => some ((List.range n).map _)) count
  rw [result] at run
  exact ⟨_, t, run, reads, by rw [List.length_map, List.length_range], rfl⟩

/-- A round of `dirlookup`. -/
theorem DirAt.lookup_round (h : DirAt s dp) {k : Nat} (name : List UInt8) (rounds : Nat)
    (inside : direntSize * (k + 1) ≤ (s.icache dp).size)
    (there : ∀ o < direntSize * (k + 1),
      s.view.vol.node ((s.icache dp).inum :: leaf (o / bsize)) ≠ none) :
    ∃ u, s.Reads u ∧ (dirlookupLoop dp name (rounds + 1) (direntSize * k)).run s =
      (if (s.view.vol.entry (s.icache dp).inum k).Matches name then
        iget (s.view.vol.entry (s.icache dp).inum k).inum >>= fun ip =>
          pure (some (ip, direntSize * k))
      else
        dirlookupLoop dp name rounds (direntSize * (k + 1))).run u := by
  have succ : direntSize * (k + 1) = direntSize * k + direntSize := Nat.mul_succ ..
  have size : direntSize = 32 := rfl
  obtain ⟨bytes, u, run, reads, length, entry⟩ := h.read_entry inside there
  refine ⟨u, reads, ?_⟩
  have step : (dirlookupLoop dp name (rounds + 1) (direntSize * k)).run s =
      (if bytes.length ≠ direntSize then panic "dirlink read"
      else if (Dirent.ofBytes bytes).inum = 0 then
        dirlookupLoop dp name rounds (direntSize * k + direntSize)
      else if namecmp name (Dirent.ofBytes bytes).name = 0 then
        iget (Dirent.ofBytes bytes).inum >>= fun ip => pure (some (ip, direntSize * k))
      else dirlookupLoop dp name rounds (direntSize * k + direntSize)).run u := by
    rw [dirlookupLoop, FsM.get_bind, if_pos (by omega), run_bind run]
    rfl
  rw [step, if_neg (fun ne => ne length), entry, succ]
  by_cases hit : (s.view.vol.entry (s.icache dp).inum k).Matches name
  · rw [if_pos hit, if_neg hit.1, if_pos hit.2]
  · rw [if_neg hit]
    split
    · rfl
    · rename_i used
      rw [if_neg fun same => hit ⟨used, same⟩]

/-- `dirlookup` stops at the first entry with the name. -/
theorem dirlookupLoop_found (name : List UInt8) {rounds k m : Nat} (h : DirAt s dp) (le : k ≤ m)
    (enough : m < k + rounds) (inside : direntSize * (m + 1) ≤ (s.icache dp).size)
    (there : ∀ o < direntSize * (m + 1),
      s.view.vol.node ((s.icache dp).inum :: leaf (o / bsize)) ≠ none)
    (before : ∀ j, k ≤ j → j < m → ¬ (s.view.vol.entry (s.icache dp).inum j).Matches name)
    (hit : (s.view.vol.entry (s.icache dp).inum m).Matches name) :
    ∃ t, s.Reads t ∧ (dirlookupLoop dp name rounds (direntSize * k)).run s =
      (iget (s.view.vol.entry (s.icache dp).inum m).inum >>= fun ip =>
        pure (some (ip, direntSize * m))).run t := by
  induction rounds generalizing s k with
  | zero => omega
  | succ rounds ih =>
    have mono : direntSize * (k + 1) ≤ direntSize * (m + 1) := Nat.mul_le_mul_left _ (by omega)
    obtain ⟨u, reads, step⟩ := h.lookup_round name rounds (mono.trans inside)
      fun o ho => there o (ho.trans_le mono)
    have icache : u.icache = s.icache := congrArg View.icache reads.view
    by_cases here : k = m
    · subst here
      exact ⟨u, reads, by rw [step, if_pos hit]⟩
    · rw [if_neg (before k le_rfl (by omega))] at step
      rw [← reads.view, ← icache] at before hit there
      rw [← icache] at inside
      obtain ⟨t, reads', run⟩ := ih (k := k + 1) (h.reads reads) (by omega) (by omega) inside there
        (fun j hj hj' => before j (by omega) hj') hit
      refine ⟨t, reads.trans reads', ?_⟩
      rw [step, run, reads.view, icache]

end Xv6Gui
