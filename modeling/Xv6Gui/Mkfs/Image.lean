import Xv6Gui.Fs.Dir

/-!
# The program `mkfs`

`mkfs.c` writes the image of a disk with given files.  The state is the image, which
is a file of the host, and the counters for blocks and inodes.  A sector behind the
end of the image can be written, which extends it, but not read.

The program stops at an assertion that does not hold, or with `exit(1)` when something
is wrong with the files of the host.  What it prints is not part of the state, and the
functions for the byte order of the disk are not needed since a `Block` has that order.
-/

namespace Xv6Gui

namespace Mkfs

/-- `nblocks`. -/
def nblocks : Nat := 20446 - logSize

/-- `nlog`. -/
def nlog : Nat := logSize

/-- `ninodes`. -/
def ninodes : Nat := 200

/-- `size`. -/
def size : Nat := 20480

/-- The image, and the counters of `mkfs`. -/
structure State where
  image : Nat → Block
  /-- The sectors that the image has. -/
  sectors : Nat
  freeblock : Nat
  usedblocks : Nat
  freeinode : Nat

/-- Why `mkfs` stops. -/
inductive Stop where
  | assert (text : String)
  | exit (perror : String)
  deriving DecidableEq

/-- Code of `mkfs`. -/
abbrev MkfsM := StateT State (Except Stop)

/-- `assert`. -/
def assert (p : Prop) [Decidable p] (text : String) : MkfsM Unit :=
  if p then return () else throw (.assert text)

/-- `wsect`. -/
def wsect (sec : Nat) (buf : Block) : MkfsM Unit :=
  modify fun s => { s with
    image := Function.update s.image sec buf
    sectors := max s.sectors (sec + 1) }

/-- `rsect`. -/
def rsect (sec : Nat) : MkfsM Block := do
  let s ← get
  if sec < s.sectors then return s.image sec else throw (.exit "read")

/-- `i2b`. -/
def i2b (inum : Nat) : Nat := inum / ipb + 2

/-- `winode`. -/
def winode (inum : Nat) (ip : Dinode) : MkfsM Unit := do
  let buf ← rsect (i2b inum)
  wsect (i2b inum) (buf.setDinode (inum % ipb) ip)

/-- `rinode`. -/
def rinode (inum : Nat) : MkfsM Dinode := do
  let buf ← rsect (i2b inum)
  return buf.dinode (inum % ipb)

/-- `ialloc`. -/
def ialloc (type : Int) : MkfsM Nat := do
  let inum := (← get).freeinode
  modify fun s => { s with freeinode := s.freeinode + 1 }
  winode inum { newDinode type with nlink := 1 }
  return inum

/-! ## `balloc` -/

/-- The bits of the blocks below `n`. -/
def bits (n : Nat) : Block := (List.range n).foldl Block.setBit .zero

/-- The loop of `balloc`, with what is left of its rounds. -/
def ballocLoop : Nat → Nat → Nat → MkfsM Unit
  | 0, _, _ => return ()
  | rounds + 1, used, j =>
    if used > 0 then do
      wsect (ninodes / ipb + 3 + j) (bits (if used > 4096 then 4096 else used))
      ballocLoop rounds (used - 4096) (j + 1)
    else
      return ()

/-- `balloc`. -/
def balloc (used : Nat) : MkfsM Unit := ballocLoop used used 0

/-! ## `iappend` -/

/-- `freeblock++` and `usedblocks++`. -/
def nextBlock : MkfsM Nat := do
  let b := (← get).freeblock
  modify fun s => { s with freeblock := s.freeblock + 1, usedblocks := s.usedblocks + 1 }
  return b

/-- A block for an address of the inode, if there is none.  It returns the inode. -/
def mapAddr (din : Dinode) (i : Fin (ndirect + 2)) : MkfsM Dinode :=
  if din.addrs i = 0 then do
    let b ← nextBlock
    return { din with addrs := Function.update din.addrs i b }
  else
    return din

/-- A block for an entry of an index block, if there is none.  It returns the entry. -/
def mapEntry (block i : Nat) : MkfsM Nat := do
  let indirect ← rsect block
  if indirect.word i = 0 then
    let b ← nextBlock
    wsect block (indirect.setWord i b)
    return b
  else
    return indirect.word i

/-- The part of `iappend` that finds or allocates the block `fbn` of the file.  It
returns the inode and `x`. -/
def mapBlock (din : Dinode) (fbn : Nat) : MkfsM (Dinode × Nat) :=
  if h : fbn < ndirect then do
    let din ← mapAddr din ⟨fbn, lt_ndirect h⟩
    return (din, din.addrs ⟨fbn, lt_ndirect h⟩)
  else if fbn < ndirect + nindirect then do
    let din ← mapAddr din ⟨ndirect, ndirect_lt⟩
    let x ← mapEntry (din.addrs ⟨ndirect, ndirect_lt⟩) (fbn - ndirect)
    return (din, x)
  else do
    let din ← mapAddr din ⟨ndirect + 1, succ_ndirect_lt⟩
    let addr ← mapEntry (din.addrs ⟨ndirect + 1, succ_ndirect_lt⟩)
      ((fbn - ndirect - nindirect) / nindirect)
    let x ← mapEntry addr ((fbn - ndirect - nindirect) % nindirect)
    return (din, x)

/-- The loop of `iappend`, with what is left of its rounds.  It returns the inode and
`off`. -/
def iappendLoop : Nat → Dinode → Nat → List UInt8 → MkfsM (Dinode × Nat)
  | 0, din, off, _ => return (din, off)
  | rounds + 1, din, off, p =>
    if p.length > 0 then do
      let fbn := off / 512
      assert (fbn < maxFile) "fbn < MAXFILE"
      let (din, x) ← mapBlock din fbn
      let n1 := min p.length ((fbn + 1) * 512 - off)
      let buf ← rsect x
      wsect x (buf.copy (off - fbn * 512) n1 fun i => p.getD i 0)
      iappendLoop rounds din (off + n1) (p.drop n1)
    else
      return (din, off)

/-- `iappend`. -/
def iappend (inum : Nat) (p : List UInt8) : MkfsM Unit := do
  let din ← rinode inum
  let (din, off) ← iappendLoop p.length din din.size p
  winode inum { din with size := off }

/-! ## `main` -/

/-- A file of the host: its name, and its bytes if it can be opened. -/
structure HostFile where
  name : List UInt8
  data : Option (List UInt8)

/-- The name without a `_` at its start. -/
def skipUnderscore (name : List UInt8) : List UInt8 :=
  if name.head? = some 95 then name.tail else name

/-- Reading a file of the host and appending what was read, with what is left of the
rounds. -/
def copyLoop (inum : Nat) : Nat → List UInt8 → MkfsM Unit
  | 0, _ => return ()
  | rounds + 1, data =>
    if data.length > 0 then do
      iappend inum (data.take 512)
      copyLoop inum rounds (data.drop 512)
    else
      return ()

/-- A round of the loop over the arguments. -/
def addFile (file : HostFile) : MkfsM Unit := do
  assert (slash ∉ file.name) "index(argv[i], '/') == 0"
  match file.data with
  | none => throw (.exit (String.ofList (file.name.map fun c => Char.ofNat c.toNat)))
  | some data =>
    let inum ← ialloc tFile
    iappend rootino (Dirent.bytes ⟨inum, strncpy (skipUnderscore file.name)⟩)
    copyLoop inum data.length data

/-- The sectors of an empty image, and the super block. -/
def format : MkfsM Unit := do
  let used := ninodes / ipb + 3 + (size / (512 * 8) + 1)
  modify fun s => { s with usedblocks := used, freeblock := used }
  assert (nblocks + used + nlog = size) "nblocks + usedblocks + nlog == size"
  (List.range (nblocks + used + nlog)).forM fun i => wsect i .zero
  wsect 1 ((((Block.zero.setWord 0 size).setWord 1 nblocks).setWord 2 ninodes).setWord 3 nlog)

/-- The inode of the root directory, with the entries `.` and `..`. -/
def makeRoot : MkfsM Unit := do
  let root ← ialloc tDir
  assert (root = rootino) "rootino == ROOTINO"
  iappend root (Dirent.bytes ⟨root, strncpy [46]⟩)
  iappend root (Dirent.bytes ⟨root, strncpy [46, 46]⟩)

/-- `main`, where it fixes the size of the root. -/
def fixRoot : MkfsM Unit := do
  let din ← rinode rootino
  winode rootino { din with size := (din.size / bsize + 1) * bsize }

/-- `main`, once the image is open. -/
def main (files : List HostFile) : MkfsM Unit := do
  format
  makeRoot
  files.forM addFile
  fixRoot
  balloc (← get).usedblocks

/-- The state in which `mkfs` starts, with an empty image. -/
def start : State := ⟨fun _ => .zero, 0, 0, 0, 1⟩

end Mkfs

end Xv6Gui
