import Xv6Gui.Fs.Bitmap
import Xv6Gui.Fs.Icache

/-!
# What the functions leave alone

The functions of the file system are made of a few primitives: they read a buffer,
log a buffer and change an inode in memory.  What all primitives leave alone, all
functions leave alone.

There are two kinds of frames.  Reading, writing and truncating a file changes an
inode, but not which inode a slot of the table holds, who refers to it and whether
it is locked.  The functions for the table itself may change a slot in any way.
-/

namespace Xv6Gui

open Effect

/-- A change of an inode that leaves its slot alone. -/
def KeepsSlot (f : Inode → Inode) : Prop :=
  ∀ inode, (f inode).inum = inode.inum ∧ (f inode).ref = inode.ref ∧
    (f inode).busy = inode.busy ∧ (f inode).valid = inode.valid

/-- A frame that is respected by what is done to the contents of files. -/
structure ContentFrame (F : Frame Fs) : Prop where
  bread : ∀ b, Respects F (bread b)
  logWrite : ∀ b d, Respects F (logWrite b d)
  setInode : ∀ ip f, KeepsSlot f → Respects F (setInode ip f)

/-- A frame that is respected by what is done to the inode table. -/
structure TableFrame (F : Frame Fs) : Prop where
  bread : ∀ b, Respects F (bread b)
  logWrite : ∀ b d, Respects F (logWrite b d)
  setInode : ∀ ip f, Respects F (setInode ip f)

theorem TableFrame.content {F : Frame Fs} (h : TableFrame F) : ContentFrame F :=
  ⟨h.bread, h.logWrite, fun ip f _ => h.setInode ip f⟩

variable {F : Frame Fs}

/-- The primitives change the buffers, the header of the log and the inode table. -/
theorem TableFrame.of_fields (h : ∀ (s : Fs) bio lh logged icache, F.rel s { s with
      log := ⟨bio, { s.log.log with lh := lh }⟩, logged := logged, icache := icache }) :
    TableFrame F := by
  refine ⟨?_, ?_, ?_⟩
  · intro b
    constructor
    intro s a t run
    cases run
    exact h s _ s.log.log.lh s.logged s.icache
  · intro b d
    constructor
    intro s a t run
    rw [(logWrite_eq run).2]
    exact h s _ _ _ s.icache
  · intro ip f
    constructor
    intro s a t run
    cases run
    exact h s s.log.bio s.log.log.lh s.logged _

theorem respects_panic {α : Type} (message : String) : Respects F (panic message : FsM α) :=
  .throw _

namespace ContentFrame

variable (h : ContentFrame F)

include h

theorem readsb : Respects F readsb := .bind (h.bread 1) fun _ => .pure _

theorem bzero (bno : Nat) : Respects F (bzero bno) := .bind (h.bread bno) fun _ => h.logWrite ..

theorem ballocLoop (sb : Superblock) (rounds b : Nat) : Respects F (ballocLoop sb rounds b) := by
  induction rounds generalizing b with
  | zero => exact respects_panic _
  | succ rounds ih =>
    refine .bind (h.bread _) fun bp => ?_
    split
    · exact .bind (h.logWrite ..) fun _ => .bind (h.bzero _) fun _ => .pure _
    · exact ih _

theorem balloc : Respects F balloc := .bind h.readsb fun _ => h.ballocLoop ..

theorem iupdate (ip : InodePtr) : Respects F (iupdate ip) :=
  .get_bind fun _ => .bind (h.bread _) fun _ => h.logWrite ..

theorem bmapAddr (ip : InodePtr) (i : Fin (ndirect + 2)) : Respects F (bmapAddr ip i) := by
  refine .get_bind fun s => ?_
  refine .ite (fun _ => ?_) fun _ => .pure _
  exact .bind h.balloc fun _ =>
    .bind (h.setInode _ _ fun _ => ⟨rfl, rfl, rfl, rfl⟩) fun _ => .pure _

theorem bmapEntry (block i : Nat) : Respects F (bmapEntry block i) := by
  refine .bind (h.bread _) fun bp => ?_
  refine .ite (fun _ => ?_) fun _ => .pure _
  exact .bind h.balloc fun _ => .bind (h.logWrite ..) fun _ => .pure _

theorem bmap (ip : InodePtr) (bn : Nat) : Respects F (bmap ip bn) := by
  rw [Xv6Gui.bmap]
  split
  · exact h.bmapAddr ..
  · refine .ite (fun _ => ?_) fun _ => .ite (fun _ => ?_) fun _ => respects_panic _
    · exact .bind (h.bmapAddr ..) fun _ => h.bmapEntry ..
    · exact .bind (h.bmapAddr ..) fun _ => .bind (h.bmapEntry ..) fun _ => h.bmapEntry ..

theorem writeiLoop (ip : InodePtr) (src : Nat → UInt8) (n rounds tot off : Nat) :
    Respects F (writeiLoop ip src n rounds tot off) := by
  induction rounds generalizing tot off with
  | zero => exact .pure _
  | succ rounds ih =>
    refine .ite (fun _ => ?_) fun _ => .pure _
    exact .bind (h.bmap ..) fun _ => .bind (h.bread _) fun _ =>
      .bind (h.logWrite ..) fun _ => ih ..

theorem writeiData (ip : InodePtr) (src : Nat → UInt8) (off n : Nat) :
    Respects F (writeiData ip src off n) := by
  refine .bind (h.writeiLoop ..) fun _ => .get_bind fun _ => ?_
  refine .ite (fun _ => ?_) fun _ => .pure _
  exact .bind (h.setInode _ _ fun _ => ⟨rfl, rfl, rfl, rfl⟩) fun _ =>
    .bind (h.iupdate _) fun _ => .pure _

theorem readiLoop (ip : InodePtr) (n rounds tot off : Nat) :
    Respects F (readiLoop ip n rounds tot off) := by
  induction rounds generalizing tot off with
  | zero => exact .pure _
  | succ rounds ih =>
    refine .ite (fun _ => ?_) fun _ => .pure _
    exact .bind (h.bmap ..) fun _ => .bind (h.bread _) fun _ => .bind (ih ..) fun _ => .pure _

theorem bfree (b : Nat) : Respects F (bfree b) := by
  refine .bind h.readsb fun _ => .bind (h.bread _) fun _ => ?_
  exact .ite (fun _ => h.logWrite ..) fun _ => respects_panic _

theorem clearAddr (ip : InodePtr) (i : Fin (ndirect + 2)) : Respects F (clearAddr ip i) :=
  h.setInode _ _ fun _ => ⟨rfl, rfl, rfl, rfl⟩

theorem itrunc (ip : InodePtr) : Respects F (itrunc ip) := by
  have direct : Respects F (itruncDirect ip) := by
    refine .forM fun i _ => .get_bind fun _ => ?_
    exact .ite (fun _ => .bind (h.bfree _) fun _ => h.clearAddr ..) fun _ => .pure _
  have entries : ∀ bp, Respects F (bfreeEntries bp) := by
    intro bp
    exact .forM fun j _ => .ite (fun _ => h.bfree _) fun _ => .pure _
  have indirect : Respects F (itruncIndirect ip) := by
    refine .get_bind fun _ => .ite (fun _ => ?_) fun _ => .pure _
    exact .bind (h.bread _) fun _ => .bind (entries _) fun _ =>
      .bind (h.bfree _) fun _ => h.clearAddr ..
  exact .bind direct fun _ => .bind indirect fun _ =>
    .bind (h.setInode _ _ fun _ => ⟨rfl, rfl, rfl, rfl⟩) fun _ => h.iupdate _

end ContentFrame

namespace TableFrame

variable (h : TableFrame F)

include h

theorem iload (ip : InodePtr) : Respects F (iload ip) := by
  refine .get_bind fun _ => .ite (fun _ => .pure _) fun _ => ?_
  refine .bind (h.bread _) fun _ => .bind (h.setInode ..) fun _ => ?_
  exact .ite (fun _ => respects_panic _) fun _ => .pure _

theorem ilock (ip : InodePtr) : Respects F (ilock ip) := by
  refine .get_bind fun _ => .ite (fun _ => respects_panic _) fun _ => ?_
  exact .ite (fun _ => .throw _) fun _ => .bind (h.setInode ..) fun _ => h.iload _

theorem iunlock (ip : InodePtr) : Respects F (iunlock ip) :=
  .get_bind fun _ => .ite (fun _ => respects_panic _) fun _ => h.setInode ..

theorem writei (ip : InodePtr) (src : Nat → UInt8) (off n : Nat) :
    Respects F (writei ip src off n) := by
  have dev : ∀ major, Respects F (writeiDev ip major n) := by
    intro major
    refine .ite (fun _ => .pure _) fun _ => ?_
    split
    · exact .pure _
    · rename_i write hwrite
      rw [devswWrite] at hwrite
      split at hwrite
      · cases hwrite
        exact .bind (h.iunlock _) fun _ => .bind (h.ilock _) fun _ => .pure _
      · cases hwrite
  refine .get_bind fun _ => .ite (fun _ => dev _) fun _ => .ite (fun _ => .pure _) fun _ => ?_
  exact .ite (fun _ => .pure _) fun _ => h.content.writeiData ..

theorem readi (input : Option (List UInt8)) (ip : InodePtr) (off n : Nat) :
    Respects F (readi input ip off n) := by
  have dev : ∀ major, Respects F (readiDev input ip major) := by
    intro major
    refine .ite (fun _ => .pure _) fun _ => .ite (fun _ => ?_) fun _ => .pure _
    exact .bind (h.iunlock _) fun _ => .bind (h.ilock _) fun _ => .pure _
  refine .get_bind fun _ => .ite (fun _ => dev _) fun _ => .ite (fun _ => .pure _) fun _ => ?_
  exact .bind (h.content.readiLoop ..) fun _ => .pure _

theorem iget (inum : Nat) : Respects F (iget inum) := by
  refine .get_bind fun _ => ?_
  split
  · exact .bind (h.setInode ..) fun _ => .pure _
  · split
    · exact .bind (h.setInode ..) fun _ => .pure _
    · exact respects_panic _

theorem idup (ip : InodePtr) : Respects F (idup ip) := .bind (h.setInode ..) fun _ => .pure _

theorem iallocLoop (type : Int) (rounds inum : Nat) : Respects F (iallocLoop type rounds inum) := by
  induction rounds generalizing inum with
  | zero => exact respects_panic _
  | succ rounds ih =>
    refine .bind (h.bread _) fun _ => .ite (fun _ => ?_) fun _ => ih _
    exact .bind (h.logWrite ..) fun _ => h.iget _

theorem ialloc (type : Int) : Respects F (ialloc type) :=
  .bind h.content.readsb fun _ => h.iallocLoop ..

theorem ifree (ip : InodePtr) : Respects F (ifree ip) :=
  .bind (h.setInode ..) fun _ => .bind (h.content.itrunc _) fun _ => .bind (h.setInode ..) fun _ =>
    .bind (h.content.iupdate _) fun _ => h.setInode ..

theorem iput (ip : InodePtr) : Respects F (iput ip) := by
  refine .get_bind fun _ => ?_
  have drop := h.setInode ip fun inode => { inode with ref := inode.ref - 1 }
  refine .ite (fun _ => ?_) fun _ => ?_
  · exact .ite (fun _ => .bind (respects_panic _) fun _ => drop) fun _ =>
      .bind (h.ifree _) fun _ => drop
  · exact drop

end TableFrame

end Xv6Gui
