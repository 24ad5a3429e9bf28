import Xv6Gui.Mkfs.Layout

/-!
# The image of some files

`mkfs` puts the files of the host into an image: the bytes of the file `k` are those of
the inode `k + 2`, and the root directory has an entry for it.

`mkfs` succeeds exactly if the files fit, as long as there are inodes for all of them.
It does not look whether there are: an inode number is given out without a check.  For
blocks there is a check only at the end of the image, where a sector cannot be read, but
the last sectors are the log.
-/

namespace Xv6Gui

open Function (update update_eq_self update_eq_self_iff update_idem update_of_ne update_self)

theorem Dirent.length_bytes (de : Dirent) : de.bytes.length = direntSize := by
  rw [Dirent.bytes, List.length_append, List.length_map, List.length_range]
  rfl

theorem Dirent.length_flatMap_bytes (l : List Dirent) :
    (l.flatMap Dirent.bytes).length = l.length * direntSize := by
  induction l with
  | nil => rw [List.flatMap_nil, List.length_nil, List.length_nil, Nat.zero_mul]
  | cons de l ih =>
    rw [List.flatMap_cons, List.length_append, ih, Dirent.length_bytes, List.length_cons,
      Nat.succ_mul, Nat.add_comm]

namespace Mkfs

open Effect

variable {root n : Nat}

/-! ## The files -/

/-- The bytes of a file, if it opens. -/
def HostFile.bytes (file : HostFile) : List UInt8 := file.data.getD []

/-- The entry of the root directory for the file `k`. -/
def entry (k : Nat) (file : HostFile) : Dirent := ⟨k + 2, strncpy (skipUnderscore file.name)⟩

/-- The entries of the root directory. -/
def rootEntries (files : List HostFile) : List Dirent :=
  ⟨rootino, strncpy [46]⟩ :: ⟨rootino, strncpy [46, 46]⟩ :: files.mapIdx entry

/-- The bytes of the file with inode `i`. -/
def fileBytes (files : List HostFile) (i : Nat) : List UInt8 :=
  if i = rootino then (rootEntries files).flatMap Dirent.bytes
  else (files[i - 2]?.map HostFile.bytes).getD []

/-- The blocks that the root directory and the files need, with their index blocks. -/
def neededBlocks (files : List HostFile) : Nat :=
  mapBlocks (dataBlocks ((files.length + 2) * direntSize)) +
    (files.map fun file => mapBlocks (dataBlocks file.bytes.length)).sum

/-- `mkfs` finds nothing wrong with the files. -/
structure Accepts (files : List HostFile) : Prop where
  names : ∀ file ∈ files, slash ∉ file.name
  opens : ∀ file ∈ files, file.data ≠ none
  lengths : ∀ file ∈ files, file.bytes.length ≤ maxFile * bsize
  blocks : firstBlock + neededBlocks files ≤ size

variable {count i : Nat} {bytes bytes' : Nat → List UInt8} {s t : State} {E : Stop → Prop}
  {files done rest : List HostFile} {file : HostFile}

theorem length_root (files : List HostFile) :
    (fileBytes files 1).length = (files.length + 2) * direntSize := by
  have root : fileBytes files 1 = (rootEntries files).flatMap Dirent.bytes := if_pos rfl
  rw [root, Dirent.length_flatMap_bytes, rootEntries, List.length_cons, List.length_cons,
    List.length_mapIdx]

theorem fileBytes_snoc_root :
    fileBytes (done ++ [file]) 1 = fileBytes done 1 ++ (entry done.length file).bytes := by
  simp [fileBytes, rootEntries, rootino, List.mapIdx_append]

theorem fileBytes_snoc_last : fileBytes (done ++ [file]) (done.length + 2) = file.bytes := by
  simp [fileBytes, rootino]

theorem fileBytes_append (low : 1 < i) (high : i ≤ done.length + 1) :
    fileBytes (done ++ rest) i = fileBytes done i := by
  have ne : i ≠ rootino := low.ne'
  rw [fileBytes, fileBytes, if_neg ne, if_neg ne, List.getElem?_append_left (by omega)]

theorem length_fileBytes_le (low : 1 ≤ i) (high : i ≤ done.length + 1) :
    (fileBytes done i).length ≤ (fileBytes (done ++ rest) i).length := by
  by_cases root : i = 1
  · rw [root, length_root, length_root, List.length_append]
    exact Nat.mul_le_mul_right _ (by omega)
  · rw [fileBytes_append (by omega) high]

theorem totalBlocks_mono {count' : Nat} (le : count ≤ count')
    (lengths : ∀ i, 1 ≤ i → i ≤ count → (bytes i).length ≤ (bytes' i).length) :
    totalBlocks count bytes ≤ totalBlocks count' bytes' := by
  calc totalBlocks count bytes ≤ totalBlocks count bytes' := by
        refine Finset.sum_le_sum ?_
        intro i hi
        obtain ⟨low, high⟩ := Finset.mem_Icc.mp hi
        exact mapBlocks_mono (dataBlocks_mono (lengths i low high))
    _ ≤ totalBlocks count' bytes' :=
        Finset.sum_le_sum_of_subset (Finset.Icc_subset_Icc_right le)

theorem totalBlocks_fileBytes (files : List HostFile) :
    totalBlocks (files.length + 1) (fileBytes files) = neededBlocks files := by
  have shift : Finset.Icc 1 (files.length + 1) = Finset.Ico 1 (files.length + 2) := rfl
  have count : files.length + 2 - 1 = files.length + 1 := rfl
  rw [neededBlocks, totalBlocks, shift, Finset.sum_Ico_eq_sum_range, count,
    Finset.sum_range_succ', Finset.sum_range, ← Fin.sum_univ_fun_getElem, Nat.add_comm, length_root]
  congr 1
  refine Finset.sum_congr rfl ?_
  intro i _
  have ne : 1 + (i.val + 1) ≠ rootino := by
    rw [rootino]
    omega
  have index : 1 + (i.val + 1) - 2 = i.val := by omega
  rw [fileBytes, if_neg ne, index, List.getElem?_eq_getElem i.isLt, Option.map_some,
    Option.getD_some]

theorem totalBlocks_prefix_le (done rest : List HostFile) :
    totalBlocks (done.length + 1) (fileBytes done) ≤ neededBlocks (done ++ rest) := by
  rw [← totalBlocks_fileBytes]
  refine totalBlocks_mono ?_ fun i low high => length_fileBytes_le low high
  rw [List.length_append]
  omega

/-- What the files hold after a round of the loop over the arguments. -/
theorem fileBytes_snoc (file : HostFile)
    (start : update (fileBytes done) (done.length + 1 + 1) [] = bytes) (i : Nat)
    (low : 1 ≤ i) (high : i ≤ done.length + 1 + 1) :
    fileBytes (done ++ [file]) i =
      update (update bytes 1 (bytes 1 ++ (entry done.length file).bytes))
        (done.length + 1 + 1) file.bytes i := by
  by_cases last : i = done.length + 1 + 1
  · rw [last, update_self, fileBytes_snoc_last]
  · rw [update_of_ne last]
    by_cases root : i = 1
    · rw [root, update_self, fileBytes_snoc_root, ← start,
        update_of_ne (by omega)]
    · rw [update_of_ne root, ← start, update_of_ne last,
        fileBytes_append (by omega) (by omega)]

/-! ## Copying a file -/

theorem copyLoop_triple {rounds : Nat} (bytes : Nat → List UInt8) (marked : Nat)
    (data : List UInt8) (hi : 1 ≤ i) (hi' : i ≤ count)
    (enough : data.length ≤ rounds)
    (long : maxFile * bsize < (bytes i).length + data.length → E (.assert "fbn < MAXFILE"))
    (full : size < firstBlock + totalBlocks count (update bytes i (bytes i ++ data)) →
      E (.exit "read")) :
    Triple (Holds count bytes (bytes 1).length marked) (copyLoop i rounds data)
      (fun _ => Holds count (update bytes i (bytes i ++ data))
        (update bytes i (bytes i ++ data) 1).length marked) E := by
  induction rounds generalizing bytes data with
  | zero =>
    obtain rfl : data = [] := List.eq_nil_of_length_eq_zero (by omega)
    rw [List.append_nil, update_eq_self]
    exact Triple.pure fun s h => h
  | succ rounds ih =>
    rw [copyLoop]
    split
    · rename_i more
      have total : update (update bytes i (bytes i ++ data.take 512)) i
          (update bytes i (bytes i ++ data.take 512) i ++ data.drop 512) =
            update bytes i (bytes i ++ data) := by
        rw [update_self, update_idem, List.append_assoc, List.take_append_drop]
      have le : totalBlocks count (update bytes i (bytes i ++ data.take 512)) ≤
          totalBlocks count (update bytes i (bytes i ++ data)) := by
        refine totalBlocks_mono le_rfl ?_
        intro j _ _
        by_cases e : j = i
        · rw [e, update_self, update_self, List.length_append,
            List.length_append, List.length_take]
          omega
        · rw [update_of_ne e, update_of_ne e]
      have next := ih (update bytes i (bytes i ++ data.take 512)) (data.drop 512)
        (by rw [List.length_drop]; omega)
      rw [total] at next
      refine Triple.bind (iappend_triple bytes marked _ hi hi' ?_ ?_) fun _ => next ?_ full
      · intro beyond
        rw [List.length_take] at beyond
        exact long (by omega)
      · intro beyond
        exact full (by omega)
      · intro beyond
        rw [update_self, List.length_append, List.length_take, List.length_drop] at beyond
        exact long (by omega)
    · obtain rfl : data = [] := List.eq_nil_of_length_eq_zero (by omega)
      rw [List.append_nil, update_eq_self]
      exact Triple.pure fun s h => h

/-- A round of the loop over the arguments. -/
theorem addFile_triple (few : files.length + 1 < inodeSlots) (stop : ¬ Accepts files → ∀ e, E e)
    (here : files = done ++ file :: rest) :
    Triple (Holds (done.length + 1) (fileBytes done) (fileBytes done 1).length 0) (addFile file)
      (fun _ => Holds ((done ++ [file]).length + 1) (fileBytes (done ++ [file]))
        (fileBytes (done ++ [file]) 1).length 0) E := by
  have mem : file ∈ files := by
    rw [here]
    exact List.mem_append_right _ List.mem_cons_self
  have room : done.length + 1 + 1 < inodeSlots := by
    rw [here, List.length_append, List.length_cons] at few
    omega
  have needed : totalBlocks ((done ++ [file]).length + 1) (fileBytes (done ++ [file])) ≤
      neededBlocks files := by
    have le := totalBlocks_prefix_le (done ++ [file]) rest
    rwa [List.append_assoc, List.singleton_append, ← here] at le
  intro s h
  refine (Triple.bind (assert_triple ?_) fun _ => Triple.known fun _ => ?_) s rfl
  · exact fun bad => stop (fun ok => bad (ok.names file mem)) _
  cases open_ : file.data with
  | none =>
    rintro s rfl
    exact stop (fun ok => ok.opens file mem open_) _
  | some data =>
    have data' : file.bytes = data := by rw [HostFile.bytes, open_, Option.getD_some]
    have count : (done ++ [file]).length + 1 = done.length + 1 + 1 := by
      rw [List.length_append, List.length_singleton]
    have type : typeOf (done.length + 1 + 1) = tFile := rfl
    generalize hbytes : update (fileBytes done) (done.length + 1 + 1) [] = bytes
    have final := fileBytes_snoc file hbytes
    have alloc := ialloc_triple (E := E) (fileBytes done) 0 room
    rw [type, hbytes] at alloc
    generalize hwith : update bytes 1 (bytes 1 ++ (entry done.length file).bytes) =
      bytes' at final
    have new : bytes' (done.length + 1 + 1) = [] := by
      rw [← hwith, update_of_ne (by omega), ← hbytes, update_self]
    have whole : update bytes' (done.length + 1 + 1)
        (bytes' (done.length + 1 + 1) ++ data) =
          update bytes' (done.length + 1 + 1) file.bytes := by
      rw [new, data', List.nil_append]
    have total : totalBlocks (done.length + 1 + 1)
        (update bytes' (done.length + 1 + 1) file.bytes) ≤ neededBlocks files := by
      refine le_trans (totalBlocks_mono le_rfl ?_) (count ▸ needed)
      intro i low high
      rw [final i low high]
    have total' : totalBlocks (done.length + 1 + 1) bytes' ≤ neededBlocks files := by
      refine le_trans (totalBlocks_mono le_rfl ?_) total
      intro i low high
      by_cases last : i = done.length + 1 + 1
      · rw [last, new]
        exact Nat.zero_le _
      · rw [update_of_ne last]
    refine (Triple.bind alloc fun inum => Triple.known ?_).pre ?_
    · rintro rfl
      have link := iappend_triple (E := E) bytes 0 (entry done.length file).bytes le_rfl
        (Nat.le_add_left 1 (done.length + 1)) ?_ ?_
      · rw [hwith] at link
        have copy := copyLoop_triple (E := E) bytes' 0 data
          (Nat.le_add_left 1 (done.length + 1)) le_rfl le_rfl ?_ ?_
        · rw [whole] at copy
          refine Triple.bind link fun _ => copy.post ?_
          intro _ t h
          rw [count, final 1 le_rfl (by omega)]
          exact h.congr final
        · intro beyond
          rw [new, List.length_nil, Nat.zero_add, ← data'] at beyond
          exact stop (fun ok => absurd (ok.lengths file mem) (by omega)) _
        · intro beyond
          rw [whole] at beyond
          exact stop (fun ok => absurd ok.blocks (by omega)) _
      · intro beyond
        rw [← hbytes, update_of_ne (by omega), length_root, Dirent.length_bytes] at beyond
        have max : 10000 ≤ maxFile * bsize := by decide
        have inodes : inodeSlots = 208 := rfl
        rw [show direntSize = 32 from rfl] at beyond
        omega
      · intro beyond
        rw [hwith] at beyond
        exact stop (fun ok => absurd ok.blocks (by omega)) _
    · rintro s rfl
      exact h

/-! ## The empty image -/

theorem Block.dinode_zero (k : Nat) : Block.dinode .zero k = newDinode 0 := by
  simp only [Block.dinode, Block.word_zero]
  rfl

/-- The state when the sectors below `n` have been written. -/
def blank (n : Nat) : State := ⟨fun _ => .zero, n, firstBlock, firstBlock, 1⟩

theorem blank_triple (n : Nat) :
    Triple (· = blank 0) ((List.range n).forM fun i => wsect i .zero)
      (fun _ t => t = blank n) E := by
  have loop := Triple.forM (E := E) (l := List.range n) (g := fun i => wsect i .zero)
    (I := fun done t => t = blank done.length) ?_
  · rwa [List.length_range] at loop
  · rintro done i rest e _ rfl
    have index : (List.range n)[done.length]? = some i := by
      rw [e, List.getElem?_append_right le_rfl, Nat.sub_self, List.getElem?_cons_zero]
    obtain ⟨_, rfl⟩ := List.getElem?_eq_some_iff.mp index
    rw [List.getElem_range]
    show State.mk (update (fun _ => .zero) done.length .zero)
      (max done.length (done.length + 1)) _ _ _ = _
    rw [update_eq_self_iff.mpr rfl, max_eq_right (Nat.le_succ _), List.length_append]
    rfl

theorem holds_formatted :
    Holds 0 (fun _ => []) 0 0
      { blank size with image := update (blank size).image 1 superblock } := by
  generalize hs : ({ blank size with
    image := update (blank size).image 1 superblock } : State) = s
  have image : ∀ z ≠ 1, s.image z = .zero := by
    rintro z ne
    rw [← hs]
    exact update_of_ne ne ..
  have inode : ∀ i, s.vol.inode i = newDinode 0 := by
    intro i
    simp only [State.vol]
    split
    · have : i2b i ≠ 1 := (Nat.lt_of_lt_of_le Nat.one_lt_two (Nat.le_add_left 2 _)).ne'
      rw [image _ this, Block.dinode_zero]
    · rfl
  have node : ∀ q b, s.vol.node q ≠ some (.block b) := by
    intro q b hq
    cases q with
    | nil => simp [Volume.node_nil] at hq
    | cons i p => exact Volume.type_of_node hq (by rw [inode]; rfl)
  have counters : s.sectors = size ∧ s.freeinode = 1 ∧ s.usedblocks = firstBlock ∧
      s.freeblock = firstBlock := by
    rw [← hs]
    exact ⟨rfl, rfl, rfl, rfl⟩
  obtain ⟨sectors, freeinode, used, freeblock⟩ := counters
  have first : firstBlock = 34 := rfl
  refine ⟨sectors, freeinode, by decide, used.trans freeblock.symm, freeblock, ?_, ?_, ?_,
    fun i _ => inode i, ?_, ?_, ?_, ?_⟩
  · rw [freeblock]
    decide
  · rw [freeblock]
    refine ⟨Volume.separate_of_blocks ?_, fun q b hq => absurd hq (node q b), ?_, le_rfl, by decide⟩
    · exact fun q r b hq => absurd hq (node q b)
    · exact fun b hb => image b (by omega)
  · intro i low high
    omega
  · intro i low high
    omega
  · intro i low high
    omega
  · rw [← hs]
    show update (blank size).image 1 superblock 1 = superblock
    rw [update_self]
  · intro z low high
    have : 3 ≤ z := (Nat.le_add_left 3 _).trans low
    rw [image z (by omega), bitmapBlock, Nat.zero_sub, Nat.zero_min]
    rfl

theorem format_triple :
    Triple (· = start) format (fun _ => Holds 0 (fun _ => []) 0 0) E := by
  have first : ninodes / ipb + 3 + (size / (512 * 8) + 1) = firstBlock := rfl
  have total : nblocks + firstBlock + nlog = size := rfl
  -- the number of rounds is a variable, so that the loop is not unfolded
  obtain ⟨n, hn⟩ : ∃ n, n = size := ⟨_, rfl⟩
  have final := holds_formatted
  rw [format, first, total, ← hn]
  rw [superblock, ← hn] at final
  refine Triple.bind (Triple.modify (Q := fun _ t => t = blank 0) ?_) fun _ =>
    Triple.bind (assert_triple fun bad => absurd rfl bad) fun _ => Triple.known fun _ =>
      Triple.bind (blank_triple n) fun _ => Triple.modify ?_
  · rintro _ rfl
    rfl
  · rintro _ rfl
    have last : max (blank n).sectors (1 + 1) = (blank n).sectors := by
      refine max_eq_left ?_
      show 2 ≤ n
      rw [hn]
      decide
    rw [last]
    exact final

-- the rounds of `format` are not unfolded from here on
attribute [local irreducible] format

/-- The root directory with its first entries. -/
theorem makeRoot_triple :
    Triple (Holds 0 (fun _ => []) 0 0) makeRoot
      (fun _ => Holds 1 (fileBytes []) (fileBytes [] 1).length 0) E := by
  have alloc := ialloc_triple (E := E) (fun _ => []) 0 (show 0 + 1 < inodeSlots by decide)
  have start : update (fun _ => []) (0 + 1) [] = fun _ : Nat => ([] : List UInt8) :=
    update_eq_self_iff.mpr rfl
  rw [start] at alloc
  have append : ∀ (bytes : Nat → List UInt8) (de : Dirent), (bytes 1).length ≤ direntSize →
      Triple (Holds 1 bytes (bytes 1).length 0) (iappend 1 de.bytes)
        (fun _ => Holds 1 (update bytes 1 (bytes 1 ++ de.bytes))
          (update bytes 1 (bytes 1 ++ de.bytes) 1).length 0) E := by
    intro bytes de le
    have length : (bytes 1 ++ de.bytes).length ≤ 2 * direntSize := by
      rw [List.length_append, Dirent.length_bytes]
      omega
    refine iappend_triple bytes 0 _ le_rfl le_rfl ?_ ?_
    · intro long
      have : 2 * direntSize ≤ maxFile * bsize := by decide
      rw [List.length_append] at length
      omega
    · intro beyond
      have one : mapBlocks (dataBlocks (bytes 1 ++ de.bytes).length) ≤ 1 :=
        mapBlocks_mono (dataBlocks_mono length)
      have first : firstBlock + 1 ≤ size := by decide
      rw [totalBlocks, Finset.Icc_self, Finset.sum_singleton, update_self] at beyond
      omega
  refine Triple.bind alloc fun root => Triple.known ?_
  rintro rfl
  intro s h
  refine (Triple.bind (assert_triple fun bad => absurd rfl bad) fun _ => Triple.known fun _ =>
    (Triple.bind (append (fun _ => []) ⟨1, strncpy [46]⟩ (Nat.zero_le _)) fun _ =>
      append _ ⟨1, strncpy [46, 46]⟩ ?_).conseq ?_ ?_) s rfl
  · rw [update_self, List.nil_append, Dirent.length_bytes]
  · rintro s rfl
    exact h
  · intro _ t h
    have root : fileBytes [] 1 = Dirent.bytes ⟨1, strncpy [46]⟩ ++
        Dirent.bytes ⟨1, strncpy [46, 46]⟩ := by
      simp [fileBytes, rootEntries, rootino]
    rw [update_idem, update_self, update_self, List.nil_append,
      ← root] at h
    refine h.congr ?_
    intro i low high
    rw [le_antisymm high low, update_self]

/-! ## The end of `main` -/

/-- The size of the root directory is rounded up. -/
theorem fixRoot_triple {marked : Nat} (pos : 1 ≤ count) (small : root + bsize < 2 ^ 32) :
    Triple (Holds count bytes root marked) fixRoot
      (fun _ => Holds count bytes ((root / bsize + 1) * bsize) marked) E := by
  intro s h
  have lt : rootino < inodeSlots := by decide
  obtain ⟨addrs, inode⟩ := h.inode 1 le_rfl pos
  refine (Triple.bind (rinode_triple lt h.sectors) fun din => Triple.known ?_) s rfl
  rintro rfl
  refine (winode_triple _ lt h.sectors).post ?_
  rintro _ t rfl
  have size : (s.vol.inode rootino).size = root := by
    have root : 1 = rootino := rfl
    rw [← root, inode, if_pos root]
  rw [size]
  generalize hdin : ({ s.vol.inode rootino with size := (root / bsize + 1) * bsize } : Dinode) = din
  have type := typeOf_short rootino
  have fits : din.Fits := by
    have old : (s.vol.inode rootino).Fits := by
      simp only [State.vol, if_pos lt]
      exact Block.dinode_fits ..
    rw [← hdin]
    refine ⟨old.type, old.major, old.minor, old.nlink, ?_, old.addrs⟩
    show (root / bsize + 1) * bsize < 2 ^ 32
    rw [Nat.succ_mul]
    exact lt_of_le_of_lt (Nat.add_le_add_right (Nat.div_mul_le_self root bsize) _) small
  have new := setInode_vol (s := s) lt fits
  obtain ⟨low, high⟩ := i2b_bounds lt
  have other : ∀ z ≠ i2b rootino, (s.setInode rootino din).image z = s.image z :=
    fun z hz => update_of_ne hz ..
  have counters : (s.setInode rootino din).sectors = s.sectors ∧
      (s.setInode rootino din).freeinode = s.freeinode ∧
      (s.setInode rootino din).usedblocks = s.usedblocks ∧
      (s.setInode rootino din).freeblock = s.freeblock := ⟨rfl, rfl, rfl, rfl⟩
  generalize s.setInode rootino din = t at new other counters
  obtain ⟨sectors, freeinode, used, freeblock⟩ := counters
  have inodes : ∀ i ≠ rootino, t.vol.inode i = s.vol.inode i := by
    intro i ne
    rw [new, update_of_ne ne]
  obtain ⟨tree, node, content⟩ := Tree.congr (W := t.vol) h.tree (by
    intro i
    by_cases e : i = rootino
    · rw [new, e, update_self, ← hdin]
      exact ⟨rfl, rfl⟩
    · rw [inodes i e]
      exact ⟨rfl, rfl⟩) (by
    intro b hb
    have := i2b_lt lt
    exact other b (by omega))
  refine ⟨sectors.trans h.sectors, freeinode.trans h.freeinode, h.few, ?_, ?_, ?_, ?_, ?_, ?_, ?_,
    ?_, ?_, ?_⟩
  · rw [used, freeblock, h.used]
  · rw [freeblock, h.blocks]
  · rw [freeblock]
    exact h.bound
  · rw [freeblock]
    exact tree
  · intro i low high
    by_cases e : i = rootino
    · refine ⟨addrs, ?_⟩
      rw [new, e, update_self, ← hdin, show rootino = 1 from rfl, inode, if_pos rfl]
    · rw [inodes i e, if_neg e]
      obtain ⟨old, hold⟩ := h.inode i low high
      exact ⟨old, by rw [hold, if_neg e]⟩
  · intro i free
    have ne : i ≠ rootino := by
      rintro rfl
      rw [rootino] at free
      omega
    rw [inodes i ne, h.free i free]
  · intro i low high q hq
    rw [node]
    exact h.exact i low high q hq
  · intro i low high o
    rw [content, h.content i low high]
  · rw [other 1 (by omega), h.super]
  · intro z hz hz'
    rw [other z (by omega), h.bitmap z hz hz']

/-- The rounds of `balloc` write the blocks of the bitmap from `j` on. -/
theorem ballocLoop_triple {rounds : Nat} (used j : Nat) (enough : used ≤ rounds)
    (room : ninodes / ipb + 3 + j + (used + 4095) / 4096 ≤ firstBlock) (hs : s.sectors = size)
    (zero : ∀ z, ninodes / ipb + 3 + j ≤ z → z < firstBlock → s.image z = .zero) :
    Triple (· = s) (ballocLoop rounds used j)
      (fun _ t => (∃ image, t = { s with image := image }) ∧
        (∀ z, z < ninodes / ipb + 3 + j ∨ firstBlock ≤ z → t.image z = s.image z) ∧
        ∀ z, ninodes / ipb + 3 + j ≤ z → z < firstBlock →
          t.image z = bits (min (used - 4096 * (z - (ninodes / ipb + 3 + j))) 4096)) E := by
  induction rounds generalizing used j s with
  | zero =>
    obtain rfl : used = 0 := by omega
    refine Triple.pure ?_
    rintro s rfl
    refine ⟨⟨_, rfl⟩, fun _ _ => rfl, ?_⟩
    intro z low high
    rw [zero z low high, Nat.zero_sub, Nat.zero_min]
    rfl
  | succ rounds ih =>
    rw [ballocLoop]
    split
    · rename_i pos
      generalize hblock : bits (if used > 4096 then 4096 else used) = block
      have inside : ninodes / ipb + 3 + j < firstBlock := by omega
      have first : firstBlock ≤ size := by decide
      have sectors : max s.sectors (ninodes / ipb + 3 + j + 1) = s.sectors :=
        max_eq_left (by omega)
      have write : Triple (· = s) (wsect (ninodes / ipb + 3 + j) block) (fun _ t => t =
          { s with image := update s.image (ninodes / ipb + 3 + j) block }) E := by
        refine Triple.modify ?_
        rintro s rfl
        rw [sectors]
      refine Triple.bind write fun _ => ?_
      generalize hu : ({ s with
        image := update s.image (ninodes / ipb + 3 + j) block } : State) = u
      have here : u.image (ninodes / ipb + 3 + j) = block := by
        rw [← hu]
        exact update_self ..
      have other : ∀ z ≠ ninodes / ipb + 3 + j, u.image z = s.image z := by
        intro z ne
        rw [← hu]
        exact update_of_ne ne ..
      have next := ih (s := u) (used - 4096) (j + 1) (by omega) (by omega)
        (by rw [← hu]; exact hs) (by
          intro z low high
          rw [other z (by omega), zero z (by omega) high])
      refine next.post ?_
      rintro _ t ⟨⟨image, rfl⟩, same, new⟩
      refine ⟨⟨image, by rw [← hu]⟩, ?_, ?_⟩
      · intro z hz
        rw [same z (by omega), other z (by omega)]
      · intro z low high
        by_cases e : z = ninodes / ipb + 3 + j
        · rw [same z (by omega), e, here, ← hblock, Nat.sub_self, Nat.mul_zero, Nat.sub_zero]
          congr 1
          split <;> omega
        · have left : used - 4096 - 4096 * (z - (ninodes / ipb + 3 + (j + 1))) =
              used - 4096 * (z - (ninodes / ipb + 3 + j)) := by omega
          rw [new z (by omega) high, left]
    · obtain rfl : used = 0 := by omega
      refine Triple.pure ?_
      rintro s rfl
      refine ⟨⟨_, rfl⟩, fun _ _ => rfl, ?_⟩
      intro z low high
      rw [zero z low high, Nat.zero_sub, Nat.zero_min]
      rfl

/-- `balloc` writes the bitmap. -/
theorem balloc_triple :
    Triple (Holds count bytes root 0) (do balloc (← get).usedblocks)
      (fun _ s => Holds count bytes root s.freeblock s) E := by
  refine Triple.get_bind ?_
  intro s h
  have blank : ∀ z, ninodes / ipb + 3 + 0 ≤ z → z < firstBlock → s.image z = .zero := by
    intro z low high
    rw [h.bitmap z low high, bitmapBlock, Nat.zero_sub, Nat.zero_min]
    rfl
  have room : ninodes / ipb + 3 + 0 + (s.usedblocks + 4095) / 4096 ≤ firstBlock := by
    have := h.bound
    rw [h.used]
    rw [size] at this
    have start : ninodes / ipb + 3 + 0 + 6 = firstBlock := rfl
    omega
  refine (ballocLoop_triple _ 0 le_rfl room h.sectors blank).post ?_
  rintro _ t ⟨⟨image, rfl⟩, same, new⟩
  have inode : ∀ i, (State.vol { s with image := image }).inode i = s.vol.inode i := by
    intro i
    simp only [State.vol]
    split
    · rename_i lt
      have block := same (i2b i) (.inl (i2b_bounds lt).2)
      rw [← block]
    · rfl
  obtain ⟨tree, node, content⟩ := Tree.congr (W := State.vol { s with image := image }) h.tree
    (fun i => by rw [inode]; exact ⟨rfl, rfl⟩) (fun b hb => same b (.inr hb))
  refine ⟨h.sectors, h.freeinode, h.few, h.used, h.blocks, h.bound, tree, ?_, ?_, ?_, ?_, ?_, ?_⟩
  · intro i low high
    rw [inode]
    exact h.inode i low high
  · intro i free
    rw [inode, h.free i free]
  · intro i low high q hq
    rw [node]
    exact h.exact i low high q hq
  · intro i low high o
    rw [content, h.content i low high]
  · rw [same 1 (.inl (by decide)), h.super]
  · intro z low high
    rw [new z low high, h.used]
    rfl

/-- The state is that after `mkfs` for the files. -/
abbrev ImageOf (files : List HostFile) (s : State) : Prop :=
  Holds (files.length + 1) (fileBytes files)
    (((files.length + 2) * direntSize / bsize + 1) * bsize) s.freeblock s

/-- `mkfs` writes the image of the files.  It fails only if it does not accept them. -/
theorem main_triple (few : files.length + 1 < inodeSlots) (stop : ¬ Accepts files → ∀ e, E e) :
    Triple (· = start) (main files) (fun _ => ImageOf files) E := by
  have loop := Triple.forM (E := E) (l := files) (g := addFile)
    (I := fun done => Holds (done.length + 1) (fileBytes done) (fileBytes done 1).length 0)
    fun done file rest here => addFile_triple few stop here
  simp only [length_root] at loop
  have dots := @makeRoot_triple E
  rw [length_root] at dots
  refine Triple.bind format_triple fun _ => Triple.bind dots fun _ => Triple.bind loop fun _ =>
    Triple.bind (fixRoot_triple (Nat.le_add_left 1 _) ?_) fun _ => balloc_triple
  have inodes : inodeSlots = 208 := rfl
  rw [show direntSize = 32 from rfl, show bsize = 512 from rfl]
  omega

theorem main_image (few : files.length + 1 < inodeSlots)
    (run : (main files).run start = .ok ((), s)) : ImageOf files s :=
  (main_triple (E := fun _ => True) few fun _ _ => trivial).ok rfl run

theorem main_ok (files : List HostFile) (few : files.length + 1 < inodeSlots) (accepts : Accepts files) :
    ∃ s, (main files).run start = .ok ((), s) ∧ ImageOf files s := by
  obtain ⟨_, s, run, holds⟩ := (main_triple few fun no => absurd accepts no).returns rfl
  exact ⟨s, run, holds⟩

/-! ## What is given out -/

/-- Every block up to `freeblock` is the block of a file or an index block. -/
theorem Holds.reached {marked b : Nat} (h : Holds count bytes root marked s)
    (low : firstBlock ≤ b) (high : b < s.freeblock) : ∃ q, s.vol.node q = some (.block b) := by
  classical
  -- the positions that are filled, as many as there are blocks
  let filled := (Finset.Icc 1 count).sigma
    fun i => (paths (List.range (dataBlocks (bytes i).length))).toFinset
  have block : ∀ x ∈ filled, ∃ b, s.vol.node (x.1 :: x.2) = some (.block b) := by
    rintro ⟨i, p⟩ hx
    obtain ⟨hi, hp⟩ := Finset.mem_sigma.mp hx
    obtain ⟨one, last⟩ := Finset.mem_Icc.mp hi
    rw [List.mem_toFinset] at hp
    obtain ⟨_, _, place⟩ := mem_paths_range.mp hp
    have ne := ne_nil_of_mem_path place
    obtain ⟨x, node⟩ := Option.ne_none_iff_exists'.mp ((h.exact i one last p ne).mpr hp)
    obtain ⟨e, _⟩ | ⟨_, e, _⟩ | ⟨_, _, b, _, _, rfl⟩ := Volume.node_cases node
    · cases e
    · exact absurd (List.cons.inj e).2 ne
    · exact ⟨b, node⟩
  choose f hf using block
  have card : (Finset.Ico firstBlock s.freeblock).card ≤ filled.card := by
    rw [Nat.card_Ico, h.blocks, Finset.card_sigma, totalBlocks]
    simp only [card_paths]
    omega
  obtain ⟨x, hx, e⟩ := Finset.surj_on_of_inj_on_of_card_le f
    (fun x hx => Finset.mem_Ico.mpr (h.tree.range _ _ (hf x hx)))
    (fun x y hx hy e => by
      obtain ⟨first, second⟩ := List.cons.inj (h.tree.separate _ _ _ (hf x hx) (e ▸ hf y hy))
      exact Sigma.ext first (heq_of_eq second))
    card b (Finset.mem_Ico.mpr ⟨low, high⟩)
  exact ⟨_, e ▸ hf x hx⟩

/-- The code gives out no inode number. -/
def inodeFrame : Frame State where
  rel s t := t.freeinode = s.freeinode
  refl _ := rfl
  trans h h' := h'.trans h

theorem wsect_inode (z : Nat) (b : Block) : Respects inodeFrame (wsect z b) :=
  .modify fun _ => rfl

theorem rsect_inode (z : Nat) : Respects inodeFrame (rsect z) :=
  .get_bind fun _ => .ite (fun _ => .pure _) fun _ => .throw _

theorem assert_inode (p : Prop) [Decidable p] (text : String) :
    Respects inodeFrame (assert p text) :=
  .ite (fun _ => .pure _) fun _ => .throw _

theorem winode_inode (i : Nat) (d : Dinode) : Respects inodeFrame (winode i d) :=
  .bind (rsect_inode _) fun _ => wsect_inode _ _

theorem rinode_inode (i : Nat) : Respects inodeFrame (rinode i) :=
  .bind (rsect_inode _) fun _ => .pure _

theorem nextBlock_inode : Respects inodeFrame nextBlock :=
  .get_bind fun _ => .bind (.modify fun _ => rfl) fun _ => .pure _

theorem mapAddr_inode (d : Dinode) (k : Fin (ndirect + 2)) : Respects inodeFrame (mapAddr d k) :=
  .ite (fun _ => .bind nextBlock_inode fun _ => .pure _) fun _ => .pure _

theorem mapEntry_inode (z k : Nat) : Respects inodeFrame (mapEntry z k) :=
  .bind (rsect_inode _) fun _ => .ite
    (fun _ => .bind nextBlock_inode fun _ => .bind (wsect_inode _ _) fun _ => .pure _)
    fun _ => .pure _

theorem mapBlock_inode (d : Dinode) (bn : Nat) : Respects inodeFrame (mapBlock d bn) := by
  rw [mapBlock]
  split
  · exact .bind (mapAddr_inode _ _) fun _ => .pure _
  · refine .ite (fun _ => ?_) fun _ => ?_
    · exact .bind (mapAddr_inode _ _) fun _ => .bind (mapEntry_inode _ _) fun _ => .pure _
    · exact .bind (mapAddr_inode _ _) fun _ => .bind (mapEntry_inode _ _) fun _ =>
        .bind (mapEntry_inode _ _) fun _ => .pure _

theorem iappend_inode (i : Nat) (p : List UInt8) : Respects inodeFrame (iappend i p) := by
  have loop : ∀ rounds d off p, Respects inodeFrame (iappendLoop rounds d off p) := by
    intro rounds
    induction rounds with
    | zero => exact fun d off p => .pure _
    | succ rounds ih =>
      intro d off p
      refine .ite (fun _ => ?_) fun _ => .pure _
      exact .bind (assert_inode _ _) fun _ => .bind (mapBlock_inode _ _) fun _ =>
        .bind (rsect_inode _) fun _ => .bind (wsect_inode _ _) fun _ => ih _ _ _
  exact .bind (rinode_inode _) fun _ => .bind (loop _ _ _ _) fun _ => winode_inode _ _

theorem copyLoop_inode (i rounds : Nat) (data : List UInt8) :
    Respects inodeFrame (copyLoop i rounds data) := by
  induction rounds generalizing data with
  | zero => exact .pure _
  | succ rounds ih =>
    exact .ite (fun _ => .bind (iappend_inode _ _) fun _ => ih _) fun _ => .pure _

theorem balloc_inode (used : Nat) : Respects inodeFrame (balloc used) := by
  have loop : ∀ rounds used j, Respects inodeFrame (ballocLoop rounds used j) := by
    intro rounds
    induction rounds with
    | zero => exact fun used j => .pure _
    | succ rounds ih =>
      exact fun used j => .ite (fun _ => .bind (wsect_inode _ _) fun _ => ih _ _) fun _ => .pure _
  exact loop used used 0

theorem format_inode : Respects inodeFrame format := by
  rw [format]
  exact .bind (.modify fun _ => rfl) fun _ => .bind (assert_inode _ _) fun _ =>
    .bind (.forM fun _ _ => wsect_inode _ _) fun _ => wsect_inode _ _

theorem keeps_inode {α : Type} {x : MkfsM α} (h : Respects inodeFrame x) :
    Triple (fun s => s.freeinode = n) x (fun _ t => t.freeinode = n) fun _ => True := by
  intro s hs
  cases run : x.run s with
  | error e => trivial
  | ok r => exact (h.rel run).trans hs

theorem ialloc_inode (type : Int) :
    Triple (fun s => s.freeinode = n) (ialloc type) (fun _ t => t.freeinode = n + 1)
      fun _ => True := by
  refine Triple.get_bind ?_
  rintro s rfl
  refine Triple.bind (Triple.modify (Q := fun _ t => t.freeinode = s.freeinode + 1) ?_) fun _ =>
    Triple.bind (keeps_inode (winode_inode _ _)) fun _ => Triple.pure fun _ h => h
  rintro s rfl
  rfl

theorem addFile_inode (file : HostFile) :
    Triple (fun s => s.freeinode = n) (addFile file) (fun _ t => t.freeinode = n + 1)
      fun _ => True := by
  refine Triple.bind (keeps_inode (assert_inode _ _)) fun _ => ?_
  split
  · exact fun _ _ => trivial
  · exact Triple.bind (ialloc_inode _) fun _ => Triple.bind (keeps_inode (iappend_inode _ _))
      fun _ => keeps_inode (copyLoop_inode _ _ _)

/-- Every file gets an inode number. -/
theorem main_inode (files : List HostFile) :
    Triple (· = start) (main files) (fun _ t => t.freeinode = files.length + 2)
      fun _ => True := by
  have empty := keeps_inode (n := 1) format_inode
  have dots : Triple (fun s => s.freeinode = 1) makeRoot (fun _ t => t.freeinode = 2)
      fun _ => True :=
    Triple.bind (ialloc_inode _) fun _ => Triple.bind (keeps_inode (assert_inode _ _)) fun _ =>
      Triple.bind (keeps_inode (iappend_inode _ _)) fun _ => keeps_inode (iappend_inode _ _)
  have loop := Triple.forM (E := fun _ => True) (l := files) (g := addFile)
    (I := fun done s => s.freeinode = done.length + 2) (by
      intro done file rest _
      rw [List.length_append]
      exact (addFile_inode file).post fun _ s h => by rw [h]; rfl)
  have round : Respects inodeFrame fixRoot :=
    .bind (rinode_inode _) fun _ => winode_inode _ _
  refine Triple.bind (empty.pre ?_) fun _ => Triple.bind dots fun _ => Triple.bind loop fun _ =>
    Triple.bind (keeps_inode round) fun _ => keeps_inode (.get_bind fun _ => balloc_inode _)
  rintro s rfl
  rfl

/-- Inodes and blocks that `mkfs` gave out are at places for them. -/
structure Inside (s : State) : Prop where
  inodes : ∀ i, 1 ≤ i → i < s.freeinode → i < ninodes
  blocks : ∀ q b, s.vol.node q = some (.block b) → firstBlock ≤ b ∧ b < size - nlog

/-- An image of `mkfs` has its inodes and blocks at places for them exactly if there are not
too many files and they do not need too many blocks. -/
theorem inside_iff (run : (main files).run start = .ok ((), s)) :
    Inside s ↔ files.length ≤ ninodes - 2 ∧ neededBlocks files ≤ nblocks := by
  have freeinode : s.freeinode = files.length + 2 := (main_inode files).ok rfl run
  have room : firstBlock + nblocks = size - nlog := by decide
  have inodes : ninodes = 200 := rfl
  have slots : inodeSlots = 208 := rfl
  by_cases few : files.length + 1 < ninodes
  · have holds := main_image (by omega) run
    constructor
    · intro inside
      refine ⟨by omega, ?_⟩
      by_contra beyond
      have blocks := holds.blocks
      rw [totalBlocks_fileBytes] at blocks
      obtain ⟨q, hq⟩ := holds.reached (b := size - nlog) (by omega) (by omega)
      exact absurd (inside.blocks q _ hq).2 (lt_irrefl _)
    · rintro ⟨_, enough⟩
      refine ⟨fun i _ hi => by omega, ?_⟩
      intro q b hq
      have range := holds.tree.range q b hq
      rw [holds.blocks, totalBlocks_fileBytes] at range
      omega
  · constructor
    · intro inside
      have := inside.inodes (files.length + 1) (by omega) (by omega)
      omega
    · rintro ⟨le, _⟩
      omega

theorem inside_iff_one_file :
    ∃ s, (main [⟨[97], some [1, 2, 3]⟩]).run start = .ok ((), s) ∧ Inside s := by
  obtain ⟨s, run, _⟩ := main_ok [⟨[97], some [1, 2, 3]⟩] (by decide)
    ⟨by decide, by decide, by decide, by decide⟩
  exact ⟨s, run, (inside_iff run).mpr (by decide)⟩

/-- The files `a` and `b`. -/
def twoFiles (a b : List UInt8) : List HostFile := [⟨[97], some a⟩, ⟨[98], some b⟩]

/-- Two files fill the image up to any block. -/
theorem twoFiles_ok {a b : List UInt8} {m : Nat} (ha : a.length = m * bsize)
    (hb : b.length = n * bsize) (hm : m ≤ maxFile) (hn : n ≤ maxFile)
    (fits : firstBlock + (1 + mapBlocks m + mapBlocks n) ≤ size) :
    ∃ s, (main (twoFiles a b)).run start = .ok ((), s) ∧
      s.freeblock = firstBlock + (1 + mapBlocks m + mapBlocks n) ∧ ImageOf (twoFiles a b) s := by
  have whole : ∀ k, dataBlocks (k * bsize) = k := by
    intro k
    rw [dataBlocks, show bsize = 512 from rfl]
    omega
  have root : mapBlocks (dataBlocks ((2 + 2) * direntSize)) = 1 := by decide
  have needed : neededBlocks (twoFiles a b) = 1 + mapBlocks m + mapBlocks n := by
    simp only [neededBlocks, twoFiles, HostFile.bytes, List.map_cons, List.map_nil,
      Option.getD_some, List.length_cons, List.length_nil, List.sum_cons, List.sum_nil, ha, hb,
      whole, root]
    omega
  have accepts : Accepts (twoFiles a b) := by
    refine ⟨?_, ?_, ?_, by rwa [needed]⟩
    · simp [twoFiles, slash]
    · simp [twoFiles]
    · simp only [twoFiles, HostFile.bytes, List.mem_cons, List.not_mem_nil, or_false,
        forall_eq_or_imp, forall_eq, Option.getD_some, ha, hb]
      exact ⟨Nat.mul_le_mul_right _ hm, Nat.mul_le_mul_right _ hn⟩
  obtain ⟨s, run, holds⟩ := main_ok (twoFiles a b) (show 2 + 1 < inodeSlots by decide) accepts
  refine ⟨s, run, ?_, holds⟩
  rw [← needed, ← totalBlocks_fileBytes]
  exact holds.blocks

/-- `mkfs` takes files that do not fit before the log. -/
theorem mkfs_writes_over_log :
    ∃ s, (main (twoFiles (.replicate (16523 * bsize) 0) (.replicate (3732 * bsize) 0))).run start =
        .ok ((), s) ∧
      ∃ q b, s.vol.node q = some (.block b) ∧ size - nlog ≤ b := by
  obtain ⟨s, run, blocks, holds⟩ := twoFiles_ok (m := 16523) (n := 3732) List.length_replicate
    List.length_replicate (by decide) (by decide) (by decide)
  have last : firstBlock + (1 + mapBlocks 16523 + mapBlocks 3732) = size - nlog + 1 := by decide
  have low : firstBlock ≤ size - nlog := by decide
  obtain ⟨q, hq⟩ := holds.reached low (by omega)
  exact ⟨s, run, q, _, hq, le_rfl⟩

end Mkfs

end Xv6Gui
