import Xv6Gui.Fs.File

/-!
# The inode table

The rest of the inode layer of `fs.c`: references to inodes in memory, the
allocation and the release of inodes and blocks, and `readi`.

What the console gives to a reader is not part of the state; it is an argument of
`readi`, `none` where `consoleread` returns `-1`.  A `readi` that returns `-1`
returns `none` here.
-/

namespace Xv6Gui

/-! ## References -/

/-- `iget`. -/
def iget (inum : Nat) : FsM InodePtr := do
  let s ← get
  match (List.finRange ninode).find? fun ip =>
      (s.icache ip).ref > 0 ∧ (s.icache ip).inum = inum with
  | some ip =>
    setInode ip fun inode => { inode with ref := inode.ref + 1 }
    return ip
  | none =>
    match (List.finRange ninode).find? fun ip => (s.icache ip).ref = 0 with
    | some ip =>
      setInode ip fun inode =>
        { inode with inum := inum, ref := 1, busy := false, valid := false }
      return ip
    | none => panic "iget: no inodes"

/-- `idup`. -/
def idup (ip : InodePtr) : FsM InodePtr := do
  setInode ip fun inode => { inode with ref := inode.ref + 1 }
  return ip

/-- The inode `ialloc` writes: all zeros, with a type. -/
def newDinode (type : Int) : Dinode := ⟨type, 0, 0, 0, 0, fun _ => 0⟩

/-- The loop of `ialloc` from `inum` on, with what is left of its rounds. -/
def iallocLoop (type : Int) : Nat → Nat → FsM InodePtr
  | 0, _ => panic "ialloc: no inodes"
  | rounds + 1, inum => do
    let bp ← bread (iblock inum)
    if (bp.dinode (inum % ipb)).type = 0 then
      logWrite (iblock inum) (bp.setDinode (inum % ipb) (newDinode type))
      iget inum
    else
      iallocLoop type rounds (inum + 1)

/-- `ialloc`. -/
def ialloc (type : Int) : FsM InodePtr := do
  let sb ← readsb
  iallocLoop type (sb.ninodes - 1) 1

/-! ## Release -/

/-- `bfree`. -/
def bfree (b : Nat) : FsM Unit := do
  let sb ← readsb
  let bp ← bread (bblock b sb.ninodes)
  if bp.bit (b % bpb) then
    logWrite (bblock b sb.ninodes) (bp.resetBit (b % bpb))
  else
    panic "freeing free block"

/-- `ip->addrs[i] = 0`. -/
def clearAddr (ip : InodePtr) (i : Fin (ndirect + 2)) : FsM Unit :=
  setInode ip fun inode => { inode with addrs := Function.update inode.addrs i 0 }

/-- The direct blocks in `itrunc`. -/
def itruncDirect (ip : InodePtr) : FsM Unit :=
  (List.finRange ndirect).forM fun i => do
    let i := Fin.castAdd 2 i
    let addr := ((← get).icache ip).addrs i
    if addr ≠ 0 then
      bfree addr
      clearAddr ip i
    else
      return ()

/-- The blocks listed in an index block are freed. -/
def bfreeEntries (bp : Block) : FsM Unit :=
  (List.range nindirect).forM fun j => if bp.word j ≠ 0 then bfree (bp.word j) else return ()

/-- The indirect block in `itrunc`. -/
def itruncIndirect (ip : InodePtr) : FsM Unit := do
  let addr := ((← get).icache ip).addrs ⟨ndirect, ndirect_lt⟩
  if addr ≠ 0 then
    let bp ← bread addr
    bfreeEntries bp
    bfree addr
    clearAddr ip ⟨ndirect, ndirect_lt⟩
  else
    return ()

/-- `itrunc`. -/
def itrunc (ip : InodePtr) : FsM Unit := do
  itruncDirect ip
  itruncIndirect ip
  setInode ip fun inode => { inode with size := 0 }
  iupdate ip

/-- What `iput` does with an inode that has no links and no other references. -/
def ifree (ip : InodePtr) : FsM Unit := do
  setInode ip fun inode => { inode with busy := true }
  itrunc ip
  setInode ip fun inode => { inode with type := 0 }
  iupdate ip
  setInode ip fun inode => { inode with busy := false, valid := false }

/-- `iput`. -/
def iput (ip : InodePtr) : FsM Unit := do
  let inode := (← get).icache ip
  if inode.ref = 1 ∧ inode.valid ∧ inode.nlink = 0 then
    if inode.busy then panic "iput busy" else ifree ip
  setInode ip fun inode => { inode with ref := inode.ref - 1 }

/-- `iunlockput`. -/
def iunlockput (ip : InodePtr) : FsM Unit := do
  iunlock ip
  iput ip

/-! ## Reading -/

/-- `consoleread`, which gets `input`. -/
def consoleread (input : Option (List UInt8)) (ip : InodePtr) : FsM (Option (List UInt8)) := do
  iunlock ip
  ilock ip
  return input

/-- `readi` of a device. -/
def readiDev (input : Option (List UInt8)) (ip : InodePtr) (major : Int) :
    FsM (Option (List UInt8)) :=
  if major < 0 ∨ major ≥ ndev then
    return none
  else if major = console then
    consoleread input ip
  else
    return none

/-- The loop of `readi`, with what is left of its rounds. -/
def readiLoop (ip : InodePtr) (n : Nat) : Nat → Nat → Nat → FsM (List UInt8)
  | 0, _, _ => return []
  | rounds + 1, tot, off =>
    if tot < n then do
      let bp ← bread (← bmap ip (off / bsize))
      let m := min (n - tot) (bsize - off % bsize)
      let rest ← readiLoop ip n rounds (tot + m) (off + m)
      return bp.slice (off % bsize) m ++ rest
    else
      return []

/-- `readi`. -/
def readi (input : Option (List UInt8)) (ip : InodePtr) (off n : Nat) :
    FsM (Option (List UInt8)) := do
  let inode := (← get).icache ip
  if inode.type = tDev then
    readiDev input ip inode.major
  else if off > inode.size ∨ (off + n) % 2 ^ 32 < off then
    return none
  else
    let n := if (off + n) % 2 ^ 32 > inode.size then inode.size - off else n
    return some (← readiLoop ip n n 0 off)

/-- The part of `fileread` for an inode.  It returns the bytes that were read, or `none`
for `-1`. -/
def filereadInode (input : Option (List UInt8)) (f : FilePtr) (n : Int) :
    FsM (Option (List UInt8)) := do
  ilock ((← get).ftable f).ip
  let file := (← get).ftable f
  let bytes ← readi input file.ip file.off (ofInt n)
  advance f (match bytes with | some bytes => bytes.length | none => -1)
  iunlock file.ip
  return bytes

end Xv6Gui
