import Xv6Gui.Fs.Pipe
import Xv6Gui.Fs.SharedFile
import Xv6Gui.Vm.PageTable

/-!
# Buffers of user programs

`read`, `write`, `fstat` and `pipe` take a pointer into the memory of the
process, and `argptr` checks it together with the length the caller gives, or
the size of the structure.  The length is an `int`, and `readi` and `writei`
take it as a `uint`.

A call that stores bytes is modelled with the bytes it stores, from the pointer
on.  A call that loads bytes takes the memory as a function, and it loads
nothing but what its outcome depends on.

A size is one that `allocuvm` accepts, so it is at most `KERNBASE`.  Then
`argptr` is right about lengths that are not negative.  A negative one passes as
well, if the pointer is high enough, and `readi` takes it for a large one.
-/

namespace Xv6Gui

/-- The size of a process, a pointer argument and the length given with it. -/
structure UserBuffer where
  sz : Nat
  ptr : Nat
  size : Int
  user : sz ≤ kernbase
  low : -2 ^ 31 ≤ size
  high : size < 2 ^ 31

namespace UserBuffer

/-- `argptr` accepts the buffer. -/
def Accepted (b : UserBuffer) : Prop :=
  ¬ (b.ptr ≥ b.sz ∨ (b.ptr + ofInt b.size) % 2 ^ 32 > b.sz)
  deriving Decidable

/-- The byte `j` from the pointer on. -/
def address (b : UserBuffer) (j : Nat) : Nat := (b.ptr + j) % 2 ^ 32

/-- An address in the buffer and in the process. -/
def Has (b : UserBuffer) (a : Nat) : Prop := b.ptr ≤ a ∧ (a : Int) < b.ptr + b.size ∧ a < b.sz

/-- Every one of these bytes is in the buffer. -/
def Confined (b : UserBuffer) (js : List Nat) : Prop := ∀ j ∈ js, b.Has (b.address j)

end UserBuffer

/-! ## Reading -/

/-- The loop of `consoleread`, with what is left of `n`, for the characters that
come in.  It returns what it stores, and whether it was killed, waiting for
another one. -/
def consolereadLoop : Nat → List UInt8 → List UInt8 × Bool
  | 0, _ => ([], false)
  | _ + 1, [] => ([], true)
  | n + 1, c :: chars =>
    if c = 4 then ([], false)
    else if c = 10 then ([c], false)
    else
      let (bytes, killed) := consolereadLoop n chars
      (c :: bytes, killed)

/-- `readi`, with the bytes it stores at `dst`, for a device also when it returns
-1 after that. -/
def readiStores (chars : List UInt8) (ip : InodePtr) (off : Nat) (n : Int) :
    FsM (List UInt8 × Int) := do
  let inode := (← get).icache ip
  if inode.type = tDev then
    if inode.major < 0 ∨ inode.major ≥ ndev ∨ inode.major ≠ console then
      return ([], -1)
    else
      iunlock ip
      let (bytes, killed) := consolereadLoop n.toNat chars
      ilock ip
      return (bytes, if killed then -1 else bytes.length)
  else
    match ← readi none ip off (ofInt n) with
    | some bytes => return (bytes, bytes.length)
    | none => return ([], -1)

/-- `fileread`, with the bytes it stores at `addr`.  The pipe is that of the file,
and `piperead` is in the segment in which it returns. -/
def fileread (readable : Bool) (pipe : Pipe) (killed : Bool) (chars : List UInt8) (f : FilePtr)
    (n : Int) : FsM (List UInt8 × Int) := do
  if ¬ readable then
    return ([], -1)
  else
    match ((← get).ftable f).type with
    | .pipe =>
      let (_, bytes, r) := pipe.piperead n killed
      match r with
      | some r => return (bytes, r)
      | none => throw .sleep
    | .inode =>
      ilock ((← get).ftable f).ip
      let file := (← get).ftable f
      let (bytes, r) ← readiStores chars file.ip file.off n
      advance f r
      iunlock file.ip
      return (bytes, r)
    | .none => panic "fileread"

/-- The state after the `ilock` of `fileread`. -/
def Locked (s : Fs) (f : FilePtr) (u : Fs) : Prop := (ilock (s.ftable f).ip).run s = .ok ((), u)

/-- A negative length that `readi` takes for the rest of the file: it is a file or
directory with bytes behind the offset, and the offset does not reach the length. -/
def ReadsPast (s : Fs) (f : FilePtr) (n : Int) : Prop :=
  (s.ftable f).type = .inode ∧ n < 0 ∧ ∃ u, Locked s f u ∧
    (u.icache (u.ftable f).ip).type ≠ tDev ∧ ((u.ftable f).off : Int) < -n ∧
      (u.ftable f).off < (u.icache (u.ftable f).ip).size

variable {b : UserBuffer} {s t : Fs} {ip : InodePtr} {f : FilePtr}

theorem UserBuffer.Accepted.nonneg (h : b.Accepted) (nonneg : 0 ≤ b.size) :
    (b.ptr : Int) + b.size ≤ b.sz := by
  have user := b.user
  have high := b.high
  unfold UserBuffer.Accepted kernbase ofInt at *
  omega

/-- Bytes from the pointer on are in the buffer if there are no more than the length. -/
theorem UserBuffer.Accepted.confined (h : b.Accepted) {js : List Nat}
    (few : ∀ j ∈ js, (j : Int) < b.size) : b.Confined js := by
  intro j hj
  have less := few j hj
  have inside := h.nonneg (by omega)
  have user := b.user
  unfold UserBuffer.Has UserBuffer.address kernbase at *
  omega

theorem UserBuffer.Accepted.confined_range (h : b.Accepted) {k : Nat} (few : (k : Int) ≤ max b.size 0) :
    b.Confined (List.range k) := by
  refine h.confined ?_
  intro j hj
  have := List.mem_range.mp hj
  omega

/-- No byte is in a buffer with a negative length. -/
theorem UserBuffer.not_confined {k : Nat} (negative : b.size < 0) (some : 0 < k) :
    ¬ b.Confined (List.range k) := by
  intro all
  obtain ⟨low, high, _⟩ := all 0 (List.mem_range.mpr some)
  omega

theorem consolereadLoop_length : ∀ (n : Nat) (chars : List UInt8),
    (consolereadLoop n chars).1.length ≤ n
  | 0, _ => Nat.zero_le _
  | _ + 1, [] => Nat.zero_le _
  | n + 1, c :: chars => by
    rw [consolereadLoop]
    split
    · exact Nat.zero_le _
    · split
      · simp
      · have := consolereadLoop_length n chars
        simpa using this

theorem pipereadLoop_length : ∀ (n : Nat) (p : Pipe), (Pipe.pipereadLoop n p).2.length ≤ n
  | 0, _ => Nat.zero_le _
  | n + 1, p => by
    rw [Pipe.pipereadLoop]
    split
    · exact Nat.zero_le _
    · have := pipereadLoop_length n p.skip
      simpa using this

theorem piperead_length (p : Pipe) (n : Int) (killed : Bool) :
    (p.piperead n killed).2.1.length ≤ n.toNat := by
  rw [Pipe.piperead]
  split
  · exact Nat.zero_le _
  · exact pipereadLoop_length n.toNat p

theorem slice_length (bp : Block) (start m : Nat) : (bp.slice start m).length = m := by
  simp [Block.slice]

/-- The loop of `readi` copies all it is asked for. -/
theorem readiLoop_length {n rounds tot off : Nat} {bytes : List UInt8} (enough : n - tot ≤ rounds)
    (run : (readiLoop ip n rounds tot off).run s = .ok (bytes, t)) : bytes.length = n - tot := by
  induction rounds generalizing s tot off bytes with
  | zero =>
    cases run
    simp
    omega
  | succ rounds ih =>
    simp only [readiLoop] at run
    split at run
    · obtain ⟨b, u, _, run⟩ := FsM.bind_ok.mp run
      obtain ⟨bp, u₁, _, run⟩ := FsM.bind_ok.mp run
      obtain ⟨rest, u₂, hrest, run⟩ := FsM.bind_ok.mp run
      cases run
      have progress : off % bsize < bsize := Nat.mod_lt _ (by decide)
      rw [List.length_append, slice_length, ih (by omega) hrest]
      omega
    · cases run
      simp
      omega

/-- How many bytes `readi` copies from a file. -/
theorem readi_length {off n : Nat} {bytes : List UInt8} (type : (s.icache ip).type ≠ tDev)
    (run : (readi none ip off n).run s = .ok (some bytes, t)) :
    off ≤ (s.icache ip).size ∧ off ≤ (off + n) % 2 ^ 32 ∧ bytes.length =
      if (off + n) % 2 ^ 32 > (s.icache ip).size then (s.icache ip).size - off else n := by
  simp only [readi, FsM.get_bind, if_neg type] at run
  split at run
  · cases run
  · rename_i inside
    obtain ⟨bytes, u, loop, run⟩ := FsM.bind_ok.mp run
    cases run
    rw [readiLoop_length (by omega) loop]
    omega

/-- `readi` rejects what it does not copy. -/
theorem readi_none {off n : Nat} (type : (s.icache ip).type ≠ tDev)
    (run : (readi none ip off n).run s = .ok (none, t)) :
    off > (s.icache ip).size ∨ (off + n) % 2 ^ 32 < off := by
  simp only [readi, FsM.get_bind, if_neg type] at run
  split at run
  · rename_i outside
    exact outside
  · obtain ⟨bytes, u, _, run⟩ := FsM.bind_ok.mp run
    cases run

/-- What `readi` stores: no more than a length that is not negative, and for a
negative one something if the file has bytes at the offset and the sum with the
length does not wrap. -/
structure Stored (s : Fs) (ip : InodePtr) (off : Nat) (n : Int) (k : Nat) : Prop where
  few : 0 ≤ n → (k : Int) ≤ n
  negative : n < 0 → (0 < k ↔ (s.icache ip).type ≠ tDev ∧ (off : Int) < -n ∧
    off < (s.icache ip).size)

theorem readi_stored {off : Nat} {n : Int} (low : -2 ^ 31 ≤ n) (high : n < 2 ^ 31)
    (type : (s.icache ip).type ≠ tDev) {bytes : Option (List UInt8)}
    (run : (readi none ip off (ofInt n)).run s = .ok (bytes, t)) :
    Stored s ip off n (bytes.getD []).length := by
  cases bytes with
  | none =>
    have reject := readi_none type run
    refine ⟨fun nonneg => nonneg, ?_⟩
    intro negative
    simp only [Option.getD_none, List.length_nil, lt_irrefl, false_iff, not_and]
    intro _ below
    unfold ofInt at reject
    omega
  | some bytes =>
    obtain ⟨inside, wraps, count⟩ := readi_length type run
    have word := ofInt_lt n
    constructor
    · intro nonneg
      have same : (ofInt n : Int) = n := by
        unfold ofInt
        omega
      rw [Option.getD_some, count]
      split <;> omega
    · intro negative
      have large : (ofInt n : Int) = 2 ^ 32 + n := by
        unfold ofInt
        omega
      rw [Option.getD_some, count]
      constructor
      · intro some
        refine ⟨type, by omega, ?_⟩
        split at some <;> omega
      · rintro ⟨_, below, before⟩
        split <;> omega

theorem readiStores_stored {chars : List UInt8} {off : Nat} {n r : Int} {bytes : List UInt8}
    (low : -2 ^ 31 ≤ n) (high : n < 2 ^ 31)
    (run : (readiStores chars ip off n).run s = .ok ((bytes, r), t)) :
    Stored s ip off n bytes.length := by
  simp only [readiStores, FsM.get_bind] at run
  split at run
  · rename_i device
    have dev : ∀ k : Nat, (k : Int) ≤ max n 0 → Stored s ip off n k := by
      intro k few
      refine ⟨fun nonneg => by omega, fun negative => ?_⟩
      simp only [device, ne_eq, not_true_eq_false, false_and, iff_false]
      omega
    split at run
    · cases run
      exact dev 0 (by simp)
    · obtain ⟨_, u, _, run⟩ := FsM.bind_ok.mp run
      obtain ⟨_, u, _, run⟩ := FsM.bind_ok.mp run
      cases run
      have := consolereadLoop_length n.toNat chars
      exact dev _ (by omega)
  · rename_i type
    obtain ⟨found, u, read, run⟩ := FsM.bind_ok.mp run
    have stored := readi_stored low high type read
    cases found with
    | some bytes | none =>
      cases run
      exact stored

/-- What `fileread` stores. -/
theorem fileread_stored {readable killed : Bool} {pipe : Pipe} {chars : List UInt8}
    {bytes : List UInt8} {n r : Int} (low : -2 ^ 31 ≤ n) (high : n < 2 ^ 31)
    (run : (fileread readable pipe killed chars f n).run s = .ok ((bytes, r), t)) :
    ((bytes.length : Int) ≤ max n 0 ↔ ¬ (readable = true ∧ ReadsPast s f n)) := by
  cases readable with
  | false =>
    cases run
    simp
  | true =>
    simp only [fileread, not_true_eq_false, if_false, FsM.get_bind] at run
    cases type : (s.ftable f).type with
    | pipe =>
      rw [type] at run
      dsimp only at run
      split at run
      · cases run
        have few := piperead_length pipe n killed
        have never : ¬ ReadsPast s f n := fun h => by
          rw [ReadsPast, type] at h
          cases h.1
        simp only [never, and_false, not_false_eq_true, iff_true]
        rw [← Int.ofNat_toNat]
        exact Int.ofNat_le.mpr few
      · cases run
    | inode =>
      rw [type] at run
      dsimp only at run
      rw [FsM.get_bind] at run
      obtain ⟨_, u, lock, run⟩ := FsM.bind_ok.mp run
      rw [FsM.get_bind] at run
      obtain ⟨⟨bytes', r'⟩, u', read, run⟩ := FsM.bind_ok.mp run
      obtain ⟨_, u₁, _, run⟩ := FsM.bind_ok.mp run
      obtain ⟨_, u₂, _, run⟩ := FsM.bind_ok.mp run
      cases run
      have stored := readiStores_stored low high read
      have past : ReadsPast s f n ↔ n < 0 ∧ (u.icache (u.ftable f).ip).type ≠ tDev ∧
          ((u.ftable f).off : Int) < -n ∧
            (u.ftable f).off < (u.icache (u.ftable f).ip).size := by
        rw [ReadsPast]
        constructor
        · rintro ⟨_, negative, u', lock', rest⟩
          have lock' : (ilock (s.ftable f).ip).run s = .ok ((), u') := lock'
          rw [lock] at lock'
          cases lock'
          exact ⟨negative, rest⟩
        · rintro ⟨negative, rest⟩
          exact ⟨type, negative, u, lock, rest⟩
      by_cases negative : n < 0
      · have some := stored.negative negative
        rw [past]
        simp only [negative, true_and]
        rw [← some]
        omega
      · have few := stored.few (by omega)
        rw [past]
        simp only [negative, false_and, and_false, not_false_eq_true, iff_true]
        omega
    | none =>
      rw [type] at run
      cases run

/-! ## Writing -/

/-- What `consolewrite` shows. -/
def consoleOutput (buf : Nat → UInt8) (n : Int) : List UInt8 := (List.range n.toNat).map buf

/-- The bytes of the buffer. -/
def UserBuffer.bytes (b : UserBuffer) (mem : Nat → UInt8) (j : Nat) : UInt8 := mem (b.address j)

/-- A `write` of these or of those bytes does the same. -/
structure SameWrite (n : Int) (addr addr' : Nat → UInt8) : Prop where
  file : ∀ pipewrite f, filewrite pipewrite f addr n = filewrite pipewrite f addr' n
  pipe : ∀ (p : Pipe) i killed, p.pipewrite addr n i killed = p.pipewrite addr' n i killed
  console : consoleOutput addr n = consoleOutput addr' n

variable {addr addr' src src' : Nat → UInt8}

theorem copy_congr (bp : Block) {start m : Nat} (same : ∀ j < m, src j = src' j) :
    bp.copy start m src = bp.copy start m src' := by
  funext j
  rw [Block.copy, Block.copy]
  split
  · rename_i inside
    exact same _ (by omega)
  · rfl

theorem writeiLoop_congr (ip : InodePtr) {n : Nat} (same : ∀ j < n, src j = src' j) :
    ∀ rounds tot off, writeiLoop ip src n rounds tot off = writeiLoop ip src' n rounds tot off
  | 0, _, _ => rfl
  | rounds + 1, tot, off => by
    rw [writeiLoop, writeiLoop]
    split
    · refine bind_congr fun addr => bind_congr fun bp => ?_
      have copied : (bp.copy (off % bsize) (min (n - tot) (bsize - off % bsize))
          fun i => src (tot + i)) = bp.copy (off % bsize) (min (n - tot) (bsize - off % bsize))
            fun i => src' (tot + i) :=
        copy_congr bp fun j hj => same _ (by omega)
      dsimp only
      rw [copied]
      exact bind_congr fun _ => writeiLoop_congr ip same rounds _ _
    · rfl

theorem writei_congr (ip : InodePtr) (off : Nat) {n : Nat} (same : ∀ j < n, src j = src' j) :
    writei ip src off n = writei ip src' off n := by
  have data : writeiData ip src off n = writeiData ip src' off n := by
    rw [writeiData, writeiData, writeiLoop_congr ip same]
  rw [writei, writei, data]

theorem filewriteOp_congr (f : FilePtr) {n1 : Int} (nonneg : 0 ≤ n1) (small : n1 ≤ maxWrite)
    (same : ∀ j < n1.toNat, src j = src' j) : filewriteOp f src n1 = filewriteOp f src' n1 := by
  have word : ofInt n1 = n1.toNat := by
    have : maxWrite = 6656 := by decide
    unfold ofInt
    omega
  rw [filewriteOp, filewriteOp]
  refine bind_congr fun _ => bind_congr fun s => bind_congr fun _ => bind_congr fun s => ?_
  dsimp only
  rw [writei_congr _ _ (word ▸ same)]

theorem filewriteLoop_congr (f : FilePtr) {n : Int} (same : ∀ j < n.toNat, addr j = addr' j) :
    ∀ rounds i, 0 ≤ i →
      filewriteLoop f addr n rounds i = filewriteLoop f addr' n rounds i
  | 0, _, _ => rfl
  | rounds + 1, i, nonneg => by
    rw [filewriteLoop, filewriteLoop]
    split
    · rename_i more
      have positive : 0 ≤ min (n - i) maxWrite := by
        have : maxWrite = 6656 := by decide
        omega
      have op : filewriteOp f (fun k => addr (i.toNat + k)) (min (n - i) maxWrite) =
          filewriteOp f (fun k => addr' (i.toNat + k)) (min (n - i) maxWrite) :=
        filewriteOp_congr f positive (Int.min_le_right _ _) fun j hj => same _ (by omega)
      dsimp only
      rw [op]
      refine bind_congr fun r => ?_
      split
      · rfl
      · split
        · rfl
        · exact filewriteLoop_congr f same rounds _ (by omega)
    · rfl

theorem filewrite_congr (pipewrite : Except Halt Int) (f : FilePtr) {n : Int}
    (same : ∀ j < n.toNat, addr j = addr' j) :
    filewrite pipewrite f addr n = filewrite pipewrite f addr' n := by
  rw [filewrite, filewrite, filewriteLoop_congr f same _ _ (Int.le_refl 0)]

theorem pipewriteLoop_congr (n : Int) (killed : Bool) :
    ∀ (rounds i : Nat) (p : Pipe), (∀ j < i + rounds, addr j = addr' j) →
      Pipe.pipewriteLoop addr n killed rounds i p = Pipe.pipewriteLoop addr' n killed rounds i p
  | 0, _, _, _ => rfl
  | rounds + 1, i, p, same => by
    rw [Pipe.pipewriteLoop, Pipe.pipewriteLoop, same i (by omega),
      pipewriteLoop_congr n killed rounds (i + 1) _ fun j hj => same j (by omega)]

theorem pipewrite_congr (p : Pipe) {n : Int} (i : Nat) (killed : Bool)
    (same : ∀ j < n.toNat, addr j = addr' j) :
    p.pipewrite addr n i killed = p.pipewrite addr' n i killed := by
  by_cases more : i < n.toNat
  · exact pipewriteLoop_congr n killed _ i p fun j hj => same j (by omega)
  · rw [Pipe.pipewrite, Pipe.pipewrite, Nat.sub_eq_zero_of_le (by omega)]
    rfl

/-- A `write` loads the bytes before the length only. -/
theorem sameWrite {n : Int} (same : ∀ j < n.toNat, addr j = addr' j) : SameWrite n addr addr' where
  file pipewrite f := filewrite_congr pipewrite f same
  pipe p i killed := pipewrite_congr p i killed same
  console := List.map_congr_left fun j hj => same j (List.mem_range.mp hj)

/-! ## System calls -/

/-- The bytes of `struct stat` that `stati` stores: its five fields, with a gap
behind each `short`. -/
def statBytes : List Nat :=
  List.range' 0 2 ++ List.range' 4 4 ++ List.range' 8 4 ++ List.range' 12 2 ++ List.range' 16 4

/-- `sizeof(struct stat)`. -/
def statSize : Int := 20

/-- The bytes of the two descriptors `sys_pipe` stores. -/
def pipeBytes : List Nat := List.range' 0 4 ++ List.range' 4 4

/-- What `argptr` accepts is used within its bounds by `write`, `fstat` and
`pipe`, and by `read` exactly if the length is not a negative one that `readi`
takes for the rest of a file. -/
theorem user_buffers_confined_iff (b : UserBuffer) (accepted : b.Accepted) :
    (∀ {readable pipe killed chars f s bytes r t},
      (fileread readable pipe killed chars f b.size).run s = .ok ((bytes, r), t) →
        ((b.Confined (List.range bytes.length) ∧ (bytes.length : Int) ≤ max b.size 0) ↔
          ¬ (readable = true ∧ ReadsPast s f b.size))) ∧
      (∀ mem mem' : Nat → UInt8, (∀ a, b.Has a → mem a = mem' a) →
        SameWrite b.size (b.bytes mem) (b.bytes mem')) ∧
      (b.size = statSize → b.Confined statBytes) ∧ (b.size = 2 * 4 → b.Confined pipeBytes) := by
  refine ⟨?_, ?_, ?_, ?_⟩
  · intro readable pipe killed chars f s bytes r t run
    rw [← fileread_stored b.low b.high run]
    exact ⟨fun h => h.2, fun few => ⟨accepted.confined_range few, few⟩⟩
  · intro mem mem' same
    refine sameWrite ?_
    intro j hj
    have confined := accepted.confined_range (k := b.size.toNat) (by omega)
    exact same _ (confined j (List.mem_range.mpr hj))
  · intro size
    refine accepted.confined ?_
    rw [size]
    decide
  · intro size
    refine accepted.confined ?_
    rw [size]
    decide

/-- A buffer at the address 100 of a process of one page. -/
def sampleBuffer (size : Int) (low : -2 ^ 31 ≤ size) (high : size < 2 ^ 31) : UserBuffer :=
  ⟨4096, 100, size, by decide, low, high⟩

/-- A `read` from the start of a file of ten blocks. -/
theorem smallImage_read {n r : Int} {k : Nat}
    (result : (((openFirst ⟨0, by decide⟩ 0).run (smallImage 10)).toOption.bind fun o =>
      ((fileread true (Pipe.init fun _ => 0) false [] ⟨0, by decide⟩ n).run o.2).toOption.map
        fun r => (o, r)).any (fun o => o.2.1.2 = r ∧ o.2.1.1.length = k) = true) :
    ∃ ip s bytes t, (openFirst ⟨0, by decide⟩ 0).run (smallImage 10) = .ok (ip, s) ∧
      (fileread true (Pipe.init fun _ => 0) false [] ⟨0, by decide⟩ n).run s = .ok ((bytes, r), t) ∧
        bytes.length = k := by
  obtain ⟨⟨⟨ip, s⟩, ⟨bytes, r⟩, t⟩, found, seen⟩ := (Option.any_eq_true _ _).mp result
  obtain ⟨o, opened, found⟩ := Runs.bind_some.mp found
  obtain ⟨_, read, e⟩ := Option.map_eq_some_iff.mp found
  cases e
  obtain ⟨rfl, length⟩ := of_decide_eq_true seen
  exact ⟨ip, s, bytes, t, Effect.eq_ok_of_toOption opened, Effect.eq_ok_of_toOption read, length⟩

theorem user_buffers_confined_iff_read :
    (∃ ip s bytes t, (openFirst ⟨0, by decide⟩ 0).run (smallImage 10) = .ok (ip, s) ∧
      (fileread true (Pipe.init fun _ => 0) false [] ⟨0, by decide⟩ 20).run s = .ok ((bytes, 20), t) ∧
        bytes.length = 20 ∧
        (sampleBuffer 20 (by decide) (by decide)).Confined (List.range bytes.length)) ∧
      (sampleBuffer 20 (by decide) (by decide)).Confined statBytes ∧
      ∀ mem mem' : Nat → UInt8,
        (∀ a, (sampleBuffer 20 (by decide) (by decide)).Has a → mem a = mem' a) →
          SameWrite 20 ((sampleBuffer 20 (by decide) (by decide)).bytes mem)
            ((sampleBuffer 20 (by decide) (by decide)).bytes mem') := by
  obtain ⟨read, write, stat, _⟩ :=
    user_buffers_confined_iff (sampleBuffer 20 (by decide) (by decide)) (by decide)
  obtain ⟨ip, s, bytes, t, opened, run, length⟩ := smallImage_read (n := 20) (r := 20) (k := 20)
    (by decide +kernel)
  refine ⟨⟨ip, s, bytes, t, opened, run, length, ((read run).mpr ?_).1⟩, stat rfl, write⟩
  rintro ⟨-, past⟩
  exact absurd past.2.1 (by decide)

/-- A file of ten blocks is read from its start with the length -1: all of it is
stored behind the pointer. -/
theorem negative_length_reads :
    (sampleBuffer (-1) (by decide) (by decide)).Accepted ∧
      ∃ ip s bytes r t, (openFirst ⟨0, by decide⟩ 0).run (smallImage 10) = .ok (ip, s) ∧
        (fileread true (Pipe.init fun _ => 0) false [] ⟨0, by decide⟩ (-1)).run s =
          .ok ((bytes, r), t) ∧ r = 5120 ∧
            ¬ (sampleBuffer (-1) (by decide) (by decide)).Confined (List.range bytes.length) := by
  obtain ⟨ip, s, bytes, t, opened, run, length⟩ := smallImage_read (n := -1) (r := 5120) (k := 5120)
    (by decide +kernel)
  exact ⟨by decide, ip, s, bytes, 5120, t, opened, run, rfl,
    UserBuffer.not_confined (by decide) (by omega)⟩

end Xv6Gui
