import Xv6Gui.Fs.Icache

/-!
# Directories and paths

The format of directories, and the functions of `fs.c` that look up names in them.

A C string is the list of its characters, without the zero behind them.  A name in a
directory is an array of `DIRSIZ` characters; if it is shorter, zeros follow.
-/

namespace Xv6Gui

/-- `T_DIR`. -/
def tDir : Int := 1

/-- `T_FILE`. -/
def tFile : Int := 2

/-- `ROOTINO`. -/
def rootino : Nat := 1

/-- `DIRSIZ`. -/
def dirsiz : Nat := 30

/-! ## The format -/

/-- `struct dirent`. -/
structure Dirent where
  inum : Nat
  name : List UInt8
  deriving DecidableEq

/-- `sizeof(struct dirent)`. -/
def direntSize : Nat := 2 + dirsiz

/-- The array after `strncpy(name, t, DIRSIZ)`. -/
def strncpy (t : List UInt8) : List UInt8 := (List.range dirsiz).map fun i => t.getD i 0

/-- An entry as bytes. -/
def Dirent.bytes (de : Dirent) : List UInt8 :=
  [UInt8.ofNat de.inum, UInt8.ofNat (de.inum / 2 ^ 8)] ++
    (List.range dirsiz).map fun i => de.name.getD i 0

/-- An entry from bytes. -/
def Dirent.ofBytes (bytes : List UInt8) : Dirent where
  inum := (bytes.getD 0 0).toNat + 2 ^ 8 * (bytes.getD 1 0).toNat
  name := (List.range dirsiz).map fun i => bytes.getD (2 + i) 0

/-- `strncmp`. -/
def strncmp : Nat → List UInt8 → List UInt8 → Int
  | 0, _, _ => 0
  | n + 1, p, q =>
    if p.headD 0 ≠ 0 ∧ p.headD 0 = q.headD 0 then
      strncmp n p.tail q.tail
    else
      (p.headD 0).toNat - (q.headD 0).toNat

/-- `namecmp`. -/
def namecmp (s t : List UInt8) : Int := strncmp dirsiz s t

/-! ## Lookup -/

/-- The loop of `dirlookup`, with what is left of its rounds. -/
def dirlookupLoop (dp : InodePtr) (name : List UInt8) :
    Nat → Nat → FsM (Option (InodePtr × Nat))
  | 0, _ => return none
  | rounds + 1, off => do
    if off < ((← get).icache dp).size then
      let bytes := (← readi none dp off direntSize).getD []
      if bytes.length ≠ direntSize then
        panic "dirlink read"
      else
        let de := Dirent.ofBytes bytes
        if de.inum = 0 then
          dirlookupLoop dp name rounds (off + direntSize)
        else if namecmp name de.name = 0 then
          let ip ← iget de.inum
          return some (ip, off)
        else
          dirlookupLoop dp name rounds (off + direntSize)
    else
      return none

/-- `dirlookup`.  It returns the inode and `*poff`. -/
def dirlookup (dp : InodePtr) (name : List UInt8) : FsM (Option (InodePtr × Nat)) := do
  let inode := (← get).icache dp
  if inode.type ≠ tDir then
    panic "dirlookup not DIR"
  else
    dirlookupLoop dp name (inode.size / direntSize + 1) 0

/-! ## Paths -/

/-- The array `name` of `DIRSIZ` characters after `skipelem` has copied an element into it. -/
def copyName (elem name : List UInt8) : List UInt8 :=
  if elem.length ≥ dirsiz then
    elem.take dirsiz
  else
    elem ++ 0 :: name.drop (elem.length + 1)

/-- `skipelem`: the path behind the element, and `name`. -/
def skipelem (path name : List UInt8) : Option (List UInt8 × List UInt8) :=
  let s := path.dropWhile (· = slash)
  if s = [] then
    none
  else
    some ((s.dropWhile (· ≠ slash)).dropWhile (· = slash), copyName (s.takeWhile (· ≠ slash)) name)

/-- The loop of `namex`, with what is left of its rounds. -/
def namexLoop (nameiparent : Bool) :
    Nat → List UInt8 → List UInt8 → InodePtr → FsM (Option (InodePtr × List UInt8))
  | 0, _, _, _ => return none
  | rounds + 1, path, name, ip => do
    match skipelem path name with
    | none =>
      if nameiparent then
        iput ip
        return none
      else
        return some (ip, name)
    | some (path, name) =>
      ilock ip
      if ((← get).icache ip).type ≠ tDir then
        iunlockput ip
        return none
      else if nameiparent ∧ path = [] then
        iunlock ip
        return some (ip, name)
      else
        match ← dirlookup ip name with
        | none =>
          iunlockput ip
          return none
        | some (next, _) =>
          iunlockput ip
          namexLoop nameiparent rounds path name next

/-- `namex`, for a process with the given current directory.  It returns the inode and `name`. -/
def namex (cwd : InodePtr) (path : List UInt8) (nameiparent : Bool) (name : List UInt8) :
    FsM (Option (InodePtr × List UInt8)) := do
  let ip ← if path.head? = some slash then iget rootino else idup cwd
  namexLoop nameiparent (path.length + 1) path name ip

/-- `namei`, with what its array `name` has on the stack. -/
def namei (cwd : InodePtr) (path name : List UInt8) : FsM (Option InodePtr) := do
  return (← namex cwd path false name).map Prod.fst

/-- `nameiparent`: the directory, and `name`. -/
def nameiparent (cwd : InodePtr) (path name : List UInt8) :
    FsM (Option (InodePtr × List UInt8)) :=
  namex cwd path true name

end Xv6Gui
