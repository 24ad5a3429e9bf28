import Mathlib.Data.List.DropRight
import Xv6Gui.Fs.Bitmap
import Xv6Gui.Fs.Dir

/-!
# Paths

`skipelem` cuts a path into its segments, whatever the slashes, and `namex` follows them: for each
it locks a directory, looks the segment up, and gives the directory back.

The name goes into a buffer of `DIRSIZ` characters.  A short name ends with a zero, and behind it
the buffer keeps what it had; the comparison of names does not get there.
-/

namespace Xv6Gui

/-! ## Segments -/

/-- The parts of a path between its slashes, except for empty ones. -/
def parts (path : List UInt8) : List (List UInt8) := (path.splitOn slash).filter (· ≠ [])

/-- The parts as far as a name goes. -/
def segments (path : List UInt8) : List (List UInt8) := (parts path).map (List.take dirsiz)

variable {path p q name : List UInt8} {c : UInt8}

theorem dropWhile_head {f : UInt8 → Bool} (h : p.dropWhile f = c :: q) : ¬ f c := by
  simpa [h] using List.head?_dropWhile_not f p

theorem segments_append : segments (p ++ slash :: q) = segments p ++ segments q := by
  have split : (p ++ slash :: q).splitOn slash = p.splitOn slash ++ q.splitOn slash :=
    List.splitOnP_append_cons p q (beq_self_eq_true slash)
  rw [segments, parts, split, List.filter_append, List.map_append]
  rfl

theorem segments_slash : segments (slash :: q) = segments q := segments_append (p := [])

theorem segments_single (some : p ≠ []) (none : slash ∉ p) : segments p = [p.take dirsiz] := by
  have one : p.splitOn slash = [p] := by
    refine List.splitOnP_eq_singleton fun x mem => ?_
    simpa using fun e : x = slash => none (e ▸ mem)
  simp [segments, parts, one, some]

theorem segments_dropWhile (p : List UInt8) : segments (p.dropWhile (· = slash)) = segments p := by
  induction p with
  | nil => rfl
  | cons c p ih =>
    rw [List.dropWhile_cons]
    split
    · rename_i e
      rw [of_decide_eq_true e, segments_slash, ih]
    · rfl

theorem segments_cons (start : c ≠ slash) : segments (c :: p) =
    ((c :: p).takeWhile (· ≠ slash)).take dirsiz :: segments ((c :: p).dropWhile (· ≠ slash)) := by
  have none : slash ∉ (c :: p).takeWhile (· ≠ slash) := fun mem => by
    simpa using List.mem_takeWhile_imp mem
  have some : (c :: p).takeWhile (· ≠ slash) ≠ [] := by simp [start]
  have parts := (List.takeWhile_append_dropWhile (p := (· ≠ slash)) (l := c :: p)).symm
  cases behind : (c :: p).dropWhile (· ≠ slash) with
  | nil =>
    rw [behind, List.append_nil] at parts
    rw [← parts, segments_single (List.cons_ne_nil c p) (parts ▸ none)]
    rfl
  | cons d q =>
    obtain rfl : d = slash := by simpa using dropWhile_head behind
    rw [behind] at parts
    conv_lhs => rw [parts, segments_append, segments_single some none]
    rw [segments_slash]
    rfl

/-! ## Names -/

theorem copyName_take (elem buffer : List UInt8) :
    copyName (elem.take dirsiz) buffer = copyName elem buffer := by
  by_cases long : elem.length ≥ dirsiz
  · simp [copyName, long]
  · rw [List.take_of_length_le (by omega)]

theorem strncmp_zero (n : Nat) (t r q : List UInt8) :
    strncmp n (t ++ 0 :: r) q = strncmp n t q := by
  induction n generalizing t q with
  | zero => rfl
  | succ n ih =>
    cases t with
    | nil => rfl
    | cons c t =>
      show (if c ≠ 0 ∧ c = q.headD 0 then strncmp n (t ++ 0 :: r) q.tail else _) = _
      rw [ih]
      rfl

theorem strncmp_take (n : Nat) (t q : List UInt8) : strncmp n (t.take n) q = strncmp n t q := by
  induction n generalizing t q with
  | zero => rfl
  | succ n ih =>
    cases t with
    | nil => rfl
    | cons c t =>
      show (if c ≠ 0 ∧ c = q.headD 0 then strncmp n (t.take n) q.tail else _) = _
      rw [ih]
      rfl

/-- The comparison of names ends with the name, and a long name is cut where it ends. -/
theorem namecmp_copyName (name buffer t : List UInt8) :
    namecmp (copyName name buffer) t = namecmp name t := by
  rw [copyName]
  split
  · exact strncmp_take dirsiz name t
  · exact strncmp_zero dirsiz name _ t

theorem dirlookupLoop_congr {dp : InodePtr} (same : ∀ t, namecmp p t = namecmp q t)
    (rounds off : Nat) : dirlookupLoop dp p rounds off = dirlookupLoop dp q rounds off := by
  induction rounds generalizing off with
  | zero => rfl
  | succ rounds ih => simp only [dirlookupLoop, same, ih]

/-- `dirlookup` does not see what the buffer has behind the name. -/
theorem dirlookup_copyName {dp : InodePtr} (name buffer : List UInt8) :
    dirlookup dp (copyName name buffer) = dirlookup dp name := by
  simp only [dirlookup, dirlookupLoop_congr (namecmp_copyName name buffer)]

/-! ## `skipelem` -/

/-- `name` after `skipelem` has copied some names into it, one over the other. -/
def copyNames (names : List (List UInt8)) (buffer : List UInt8) : List UInt8 :=
  names.foldl (fun buffer name => copyName name buffer) buffer

/-- `name` after each of these copies. -/
def copies : List (List UInt8) → List UInt8 → List (List UInt8)
  | [], _ => []
  | name :: names, buffer => copyName name buffer :: copies names (copyName name buffer)

/-- `name` after each call of `skipelem`, until it returns 0. -/
def pathElems : Nat → List UInt8 → List UInt8 → List (List UInt8)
  | 0, _, _ => []
  | rounds + 1, path, buffer =>
    match skipelem path buffer with
    | none => []
    | some (rest, buffer) => buffer :: pathElems rounds rest buffer

theorem skipelem_cases (path buffer : List UInt8) :
    (skipelem path buffer = none ∧ segments path = []) ∨
    ∃ name rest, skipelem path buffer = some (rest, copyName name buffer) ∧
      segments path = name :: segments rest ∧ (rest = [] ↔ segments rest = []) ∧
      rest.length < path.length := by
  have shorter := List.length_dropWhile_le (· = slash) path
  cases s : path.dropWhile (· = slash) with
  | nil => exact .inl ⟨by rw [skipelem, s]; rfl, by rw [← segments_dropWhile, s]; rfl⟩
  | cons c p =>
    rw [s] at shorter
    have start : c ≠ slash := by simpa using dropWhile_head s
    refine .inr ⟨((c :: p).takeWhile (· ≠ slash)).take dirsiz,
      ((c :: p).dropWhile (· ≠ slash)).dropWhile (· = slash), ?_, ?_, ?_, ?_⟩
    · rw [skipelem, s, copyName_take]
      exact if_neg (List.cons_ne_nil c p)
    · rw [segments_dropWhile, ← segments_cons start, ← s, segments_dropWhile]
    · cases r : ((c :: p).dropWhile (· ≠ slash)).dropWhile (· = slash) with
      | nil => exact iff_of_true rfl rfl
      | cons d q =>
        rw [segments_cons (by simpa using dropWhile_head r)]
        simp
    · have word := List.length_dropWhile_le (· ≠ slash) p
      have slashes := List.length_dropWhile_le (· = slash) (p.dropWhile (· ≠ slash))
      rw [List.dropWhile_cons_of_pos (by simpa using start)]
      exact (slashes.trans word).trans_lt shorter

theorem pathElems_eq {rounds : Nat} (le : path.length ≤ rounds) (buffer : List UInt8) :
    pathElems rounds path buffer = copies (segments path) buffer := by
  induction rounds generalizing path buffer with
  | zero =>
    rw [List.length_eq_zero_iff.mp (Nat.le_zero.mp le)]
    rfl
  | succ rounds ih =>
    obtain ⟨done, none⟩ | ⟨name, rest, next, some, -, lt⟩ := skipelem_cases path buffer
    · rw [pathElems, done, none]
      rfl
    · rw [pathElems, next, some, copies, ← ih (by omega)]

/-! ## Directories -/

/-- Where `namex` starts. -/
def namexStart (cwd : InodePtr) (path : List UInt8) : FsM InodePtr :=
  if path.head? = some slash then iget rootino else idup cwd

/-- A round of `namex` that fails unless the inode is a directory. -/
def enter {α : Type} (ip : InodePtr) (body : FsM (Option α)) : OptionT FsM α := OptionT.mk do
  ilock ip
  if ((← get).icache ip).type ≠ tDir then
    iunlockput ip
    return none
  else
    body

/-- A directory on the way. -/
def visit (ip : InodePtr) (name : List UInt8) : OptionT FsM InodePtr := enter ip do
  let next ← dirlookup ip name
  iunlockput ip
  return next.map Prod.fst

/-- The directory where `nameiparent` stops. -/
def visitLast (ip : InodePtr) : OptionT FsM Unit := enter ip do
  iunlock ip
  return some ()

/-- The loop of `namex` over the segments of the path. -/
def follow (nameiparent : Bool) :
    List (List UInt8) → List UInt8 → InodePtr → FsM (Option (InodePtr × List UInt8))
  | [], buffer, ip =>
    if nameiparent then do
      iput ip
      return none
    else
      return some (ip, buffer)
  | name :: names, buffer, ip => OptionT.run do
    if nameiparent ∧ names = [] then
      visitLast ip
      return (ip, copyName name buffer)
    else
      let next ← visit ip name
      OptionT.mk (follow nameiparent names (copyName name buffer) next)

variable {names l : List (List UInt8)} {ip : InodePtr} {b : Bool} {buffer : List UInt8}

theorem namexLoop_eq {rounds : Nat} (lt : path.length < rounds) :
    namexLoop b rounds path buffer ip = follow b (segments path) buffer ip := by
  induction rounds generalizing path buffer ip with
  | zero => omega
  | succ rounds ih =>
    obtain ⟨done, none⟩ | ⟨name, rest, next, some, last, shorter⟩ := skipelem_cases path buffer
    · rw [namexLoop, done, none]
      rfl
    · rw [namexLoop, next, some, follow]
      simp only [dirlookup_copyName, last, ih (shorter.trans_le (Nat.le_of_lt_succ lt))]
      split_ifs with stop
      · simp only [visitLast, enter, OptionT.run_bind, OptionT.run_mk, Option.elimM, bind_assoc]
        congr 1; funext _; congr 1; funext s
        split <;> simp
      · simp only [visit, enter, OptionT.run_bind, OptionT.run_mk, Option.elimM, bind_assoc]
        congr 1; funext _; congr 1; funext s
        split
        · simp
        · simp only [bind_assoc]
          congr 1; funext r
          cases r <;> simp

theorem follow_append (more : b → l ≠ []) : follow b (names ++ l) buffer ip =
    (do OptionT.mk (follow b l (copyNames names buffer) (← names.foldlM visit ip))).run := by
  induction names generalizing ip buffer with
  | nil => rfl
  | cons name names ih =>
    have rest : ¬ (b ∧ names ++ l = []) := fun last =>
      more last.1 (List.append_eq_nil_iff.mp last.2).2
    rw [List.cons_append, follow, if_neg rest, List.foldlM_cons]
    simp only [ih, bind_assoc]
    rfl

theorem namex_eq (cwd : InodePtr) : namex cwd path b buffer =
    (do follow b (segments path) buffer (← namexStart cwd path)) := by
  simp only [namex, namexLoop_eq (Nat.lt_succ_self _), namexStart]
  split <;> rfl

/-- `skipelem` yields the segments of a path, and `namex` visits them one after the other until a
visit fails: for `namei` all of them, for `nameiparent` all but the last. -/
theorem namex_follows_segments (cwd : InodePtr) (path buffer : List UInt8) :
    (∀ rounds ≥ path.length, pathElems rounds path buffer = copies (segments path) buffer) ∧
    (match skipelem path buffer with
      | none => segments path = []
      | some (rest, copied) => ∃ name, copied = copyName name buffer ∧
          segments path = name :: segments rest ∧ (rest = [] ↔ segments rest = [])) ∧
    (∀ name buffer t, namecmp (copyName name buffer) t = namecmp name t) ∧
    namex cwd path false buffer = (do
      let ip ← namexStart cwd path
      OptionT.run do
        return (← (segments path).foldlM visit ip, copyNames (segments path) buffer)) ∧
    (segments path = [] → namex cwd path true buffer = (do
      iput (← namexStart cwd path)
      return none)) ∧
    (∀ names name, segments path = names ++ [name] → namex cwd path true buffer = (do
      let ip ← namexStart cwd path
      OptionT.run do
        let dp ← names.foldlM visit ip
        visitLast dp
        return (dp, copyName name (copyNames names buffer)))) ∧
    ∀ q, parts q = parts path → (q.head? = some slash ↔ path.head? = some slash) →
      namex cwd q = namex cwd path := by
  refine ⟨fun rounds le => pathElems_eq le buffer, ?_, namecmp_copyName, ?_, ?_, ?_, ?_⟩
  · obtain ⟨done, none⟩ | ⟨name, rest, next, some, last, -⟩ := skipelem_cases path buffer
    · rw [done]
      exact none
    · rw [next]
      exact ⟨name, rfl, some, last⟩
  · have loop (ip : InodePtr) : follow false (segments path ++ []) buffer ip = _ :=
      follow_append nofun
    rw [List.append_nil] at loop
    simp only [namex_eq, loop]
    rfl
  · intro none
    rw [namex_eq, none]
    rfl
  · intro names name all
    have loop (ip : InodePtr) : follow true (names ++ [name]) buffer ip = _ :=
      follow_append (by simp)
    simp only [namex_eq, all, loop]
    rfl
  · intro q same head
    funext b buffer
    rw [namex_eq, namex_eq, namexStart, namexStart, segments, segments, same]
    simp only [head]

end Xv6Gui
