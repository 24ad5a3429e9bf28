import Xv6Gui.Log.Commit

/-!
# Blocks and inodes

The functions of `fs.c` behind a write to a file: the allocation of blocks, the
block map of an inode, and `writei`.

The state is that of the log, with the buffers below it, and the tables of
inodes and open files.  A function stops at a panic, and where it has to wait for
another process it does not return either.  The device is always `ROOTDEV`.
-/

namespace Xv6Gui

/-! ## The format of the disk -/

/-- `NDIRECT`. -/
def ndirect : Nat := 11

theorem lt_ndirect {bn : Nat} (h : bn < ndirect) : bn < ndirect + 2 := Nat.lt_add_right 2 h

theorem ndirect_lt : ndirect < ndirect + 2 := by decide

theorem succ_ndirect_lt : ndirect + 1 < ndirect + 2 := by decide

/-- `NINDIRECT`. -/
def nindirect : Nat := bsize / 4

/-- `MAXFILE`. -/
def maxFile : Nat := ndirect + nindirect + nindirect * nindirect

/-- `IPB`: inodes in a block. -/
def ipb : Nat := bsize / 64

/-- `BPB`: bits in a block. -/
def bpb : Nat := bsize * 8

/-- `IBLOCK`: the block of an inode. -/
def iblock (inum : Nat) : Nat := inum / ipb + 2

/-- `BBLOCK`: the block with the bit of a block. -/
def bblock (b ninodes : Nat) : Nat := b / bpb + ninodes / ipb + 3

/-- `struct superblock`. -/
structure Superblock where
  size : Nat
  nblocks : Nat
  ninodes : Nat
  nlog : Nat

/-- The inodes in the blocks before the bitmap: `ninodes`, and what is left of the last block. -/
def Superblock.slots (sb : Superblock) : Nat := (sb.ninodes / ipb + 1) * ipb

theorem iblock_lt {i : Nat} {sb : Superblock} (h : i < sb.slots) : iblock i < sb.ninodes / ipb + 3 := by
  have := Nat.div_lt_of_lt_mul (Nat.mul_comm .. ▸ h : i < ipb * (sb.ninodes / ipb + 1))
  rw [iblock]
  omega

theorem lt_slots {i : Nat} {sb : Superblock} (h : i ≤ sb.ninodes) : i < sb.slots := by
  rw [Superblock.slots, Nat.add_one_mul]
  exact h.trans_lt (Nat.lt_div_mul_add (by decide))

/-- `struct dinode`. -/
structure Dinode where
  type : Int
  major : Int
  minor : Int
  nlink : Int
  size : Nat
  addrs : Fin (ndirect + 2) → Nat

/-- The value of a `short` with the given bits. -/
def toShort (w : Nat) : Int := if w < 2 ^ 15 then w else w - 2 ^ 16

/-- The bits of a `short`. -/
def ofShort (v : Int) : Nat := (v % 2 ^ 16).toNat

namespace Block

/-- `memmove(sb, data, sizeof(*sb))`. -/
def superblock (b : Block) : Superblock := ⟨b.word 0, b.word 1, b.word 2, b.word 3⟩

/-- `((struct dinode*)data)[i]`. -/
def dinode (b : Block) (i : Nat) : Dinode :=
  let w (k : Nat) := b.word (16 * i + k)
  { type := toShort (w 0 % 2 ^ 16)
    major := toShort (w 0 / 2 ^ 16)
    minor := toShort (w 1 % 2 ^ 16)
    nlink := toShort (w 1 / 2 ^ 16)
    size := w 2
    addrs := fun k => w (3 + k) }

/-- `((struct dinode*)data)[i] = d`. -/
def setDinode (b : Block) (i : Nat) (d : Dinode) : Block :=
  let b := b.setWord (16 * i) (ofShort d.type + 2 ^ 16 * ofShort d.major)
  let b := b.setWord (16 * i + 1) (ofShort d.minor + 2 ^ 16 * ofShort d.nlink)
  let b := b.setWord (16 * i + 2) d.size
  (List.finRange (ndirect + 2)).foldl (fun b k => b.setWord (16 * i + 3 + k.val) (d.addrs k)) b

end Block

/-! ## The state -/

/-- `NINODE`. -/
def ninode : Nat := 50

theorem ninode_pos : 0 < ninode := by decide

/-- `NFILE`. -/
def nfile : Nat := 100

/-- A `struct inode *` into the table. -/
abbrev InodePtr := Fin ninode

/-- A `struct file *` into the table. -/
abbrev FilePtr := Fin nfile

/-- `struct inode`. -/
structure Inode extends Dinode where
  inum : Nat
  ref : Int
  /-- `I_BUSY`. -/
  busy : Bool
  /-- `I_VALID`. -/
  valid : Bool

/-- The type of a file. -/
inductive FdType where
  | none
  | pipe
  | inode
  deriving DecidableEq

/-- `struct file`. -/
structure File where
  type : FdType
  writable : Bool
  ip : InodePtr
  off : Nat

/-- The state of the file system. -/
structure Fs where
  log : LogState
  icache : InodePtr → Inode
  ftable : FilePtr → File
  /-- Ghost: the sectors logged since `begin_op`. -/
  logged : Finset Nat
  /-- Ghost: the sectors logged in each operation that has ended, the first one
  first. -/
  ops : List (Finset Nat)

/-- Why a call does not return. -/
inductive Halt where
  | panic (message : String)
  /-- It waits for another process. -/
  | sleep
  deriving DecidableEq

/-- Code of the file system. -/
abbrev FsM := StateT Fs (Except Halt)

namespace Fs

/-- What a block holds, for the kernel. -/
def data (s : Fs) (b : Nat) : Block := s.log.bio.data b

/-- The super block. -/
def sb (s : Fs) : Superblock := (s.data 1).superblock

end Fs

/-- `panic`. -/
def panic {α : Type} (message : String) : FsM α := throw (.panic message)

/-- `bread`. -/
def bread (sector : Nat) : FsM Block := fun s =>
  let (data, bio) := s.log.bio.bread sector
  .ok (data, { s with log := { s.log with bio := bio } })

/-- `log_write` of a buffer whose data is now `data`. -/
def logWrite (sector : Nat) (data : Block) : FsM Unit := fun s =>
  match s.log.logWrite sector data with
  | .error message => .error (.panic message)
  | .ok log => .ok ((), { s with log := log, logged := insert sector s.logged })

/-! ## Blocks -/

/-- `readsb`. -/
def readsb : FsM Superblock := do
  let bp ← bread 1
  return bp.superblock

/-- `bzero`. -/
def bzero (bno : Nat) : FsM Unit := do
  let _ ← bread bno
  logWrite bno .zero

/-- The inner loop of `balloc`: the first of the bits of a block of the bitmap that
is clear. -/
def clearBit (bp : Block) (sb : Superblock) (b : Nat) : Option Nat :=
  (List.range' 0 (min bpb (sb.size - b))).find? fun bi => !bp.bit bi

/-- The outer loop of `balloc` from `b` on. -/
def ballocLoop (sb : Superblock) : Nat → Nat → FsM Nat
  | 0, _ => panic "balloc: out of blocks"
  | rounds + 1, b => do
    let bp ← bread (bblock b sb.ninodes)
    match clearBit bp sb b with
    | some bi =>
      logWrite (bblock b sb.ninodes) (bp.setBit bi)
      bzero (b + bi)
      return b + bi
    | none => ballocLoop sb rounds (b + bpb)

/-- `balloc`. -/
def balloc : FsM Nat := do
  let sb ← readsb
  ballocLoop sb ((sb.size + bpb - 1) / bpb) 0

/-! ## Inodes -/

/-- `T_DEV`. -/
def tDev : Int := 3

/-- `NDEV`. -/
def ndev : Int := 10

/-- `CONSOLE`. -/
def console : Int := 1

/-- Change an inode in memory. -/
def setInode (ip : InodePtr) (f : Inode → Inode) : FsM Unit :=
  modify fun s => { s with icache := Function.update s.icache ip (f (s.icache ip)) }

/-- `iupdate`. -/
def iupdate (ip : InodePtr) : FsM Unit := do
  let inode := (← get).icache ip
  let bp ← bread (iblock inode.inum)
  logWrite (iblock inode.inum) (bp.setDinode (inode.inum % ipb) inode.toDinode)

/-- What `ilock` reads from the disk if the inode is not valid. -/
def iload (ip : InodePtr) : FsM Unit := do
  let inode := (← get).icache ip
  if inode.valid then
    return ()
  else
    let bp ← bread (iblock inode.inum)
    let dip := bp.dinode (inode.inum % ipb)
    setInode ip fun inode => { inode with toDinode := dip, valid := true }
    if dip.type = 0 then panic "ilock: no type" else return ()

/-- `ilock`. -/
def ilock (ip : InodePtr) : FsM Unit := do
  let inode := (← get).icache ip
  if inode.ref < 1 then
    panic "ilock"
  else if inode.busy then
    throw .sleep
  else
    setInode ip fun inode => { inode with busy := true }
    iload ip

/-- `iunlock`. -/
def iunlock (ip : InodePtr) : FsM Unit := do
  let inode := (← get).icache ip
  if ¬ inode.busy ∨ inode.ref < 1 then
    panic "iunlock"
  else
    setInode ip fun inode => { inode with busy := false }

/-- `if((addr = ip->addrs[i]) == 0) ip->addrs[i] = addr = balloc(ip->dev)`. -/
def bmapAddr (ip : InodePtr) (i : Fin (ndirect + 2)) : FsM Nat := do
  let addr := ((← get).icache ip).addrs i
  if addr = 0 then
    let addr ← balloc
    setInode ip fun inode => { inode with addrs := Function.update inode.addrs i addr }
    return addr
  else
    return addr

/-- `if((addr = a[i]) == 0){ a[i] = addr = balloc(ip->dev); log_write(bp); }`, for
the array in a block. -/
def bmapEntry (block i : Nat) : FsM Nat := do
  let bp ← bread block
  let addr := bp.word i
  if addr = 0 then
    let addr ← balloc
    logWrite block (bp.setWord i addr)
    return addr
  else
    return addr

/-- `bmap`. -/
def bmap (ip : InodePtr) (bn : Nat) : FsM Nat :=
  if h : bn < ndirect then
    bmapAddr ip ⟨bn, lt_ndirect h⟩
  else if bn - ndirect < nindirect then do
    let addr ← bmapAddr ip ⟨ndirect, ndirect_lt⟩
    bmapEntry addr (bn - ndirect)
  else if bn - ndirect - nindirect < nindirect * nindirect then do
    let bn := bn - ndirect - nindirect
    let addr ← bmapAddr ip ⟨ndirect + 1, succ_ndirect_lt⟩
    let addr ← bmapEntry addr (bn / nindirect)
    bmapEntry addr (bn % nindirect)
  else
    panic "bmap: out of range"

/-- `consolewrite`.  What it shows on the screen is not part of the state. -/
def consolewrite (ip : InodePtr) (n : Int) : FsM Int := do
  iunlock ip
  ilock ip
  return n

/-- `devsw[major].write`. -/
def devswWrite (major : Int) : Option (InodePtr → Int → FsM Int) :=
  if major = console then some consolewrite else none

/-- The loop of `writei`, with what is left of its rounds.  It returns `off`. -/
def writeiLoop (ip : InodePtr) (src : Nat → UInt8) (n : Nat) : Nat → Nat → Nat → FsM Nat
  | 0, _, off => return off
  | rounds + 1, tot, off =>
    if tot < n then do
      let addr ← bmap ip (off / bsize)
      let bp ← bread addr
      let m := min (n - tot) (bsize - off % bsize)
      logWrite addr (bp.copy (off % bsize) m fun i => src (tot + i))
      writeiLoop ip src n rounds (tot + m) (off + m)
    else
      return off

/-- `writei` to a device. -/
def writeiDev (ip : InodePtr) (major : Int) (n : Nat) : FsM Int :=
  if major < 0 ∨ major ≥ ndev then
    return -1
  else
    match devswWrite major with
    | none => return -1
    | some write => write ip (toInt n)

/-- What `writei` does when it has checked its arguments.  A round of the loop
writes at least a byte. -/
def writeiData (ip : InodePtr) (src : Nat → UInt8) (off n : Nat) : FsM Int := do
  let off ← writeiLoop ip src n n 0 off
  let inode := (← get).icache ip
  if 0 < n ∧ off > inode.size then
    setInode ip fun inode => { inode with size := off }
    iupdate ip
    return toInt n
  else
    return toInt n

/-- `writei`. -/
def writei (ip : InodePtr) (src : Nat → UInt8) (off n : Nat) : FsM Int := do
  let inode := (← get).icache ip
  if inode.type = tDev then
    writeiDev ip inode.major n
  else if off > inode.size ∨ (off + n) % 2 ^ 32 < off then
    return -1
  else if (off + n) % 2 ^ 32 > maxFile * bsize then
    return -1
  else
    writeiData ip src off n

end Xv6Gui
