import Xv6Gui.Fs.LogArea
import Xv6Gui.Fs.Tree

/-!
# Writers of an open file

After `fork` or `dup` several processes write through one `struct file`.  `filewrite` writes
in parts, and between two parts it holds neither the inode nor a transaction, so the parts of
several calls alternate in any order.  What is done in one step is the part of a round in which
the inode is locked: it takes the offset, writes, and moves the offset on.

The file gets all parts, one behind the other, in the order of these steps.  A part is lost if
it is stored in a block of the log, which the next commit overwrites.
-/

namespace Xv6Gui

open Effect Runs
open Function (update update_eq_self update_idem update_of_ne update_self)

/-- The part of a round of `filewrite` in which the inode is locked. -/
def filewriteLocked (f : FilePtr) (addr : Nat → UInt8) (n1 : Int) : FsM Int := do
  ilock ((← get).ftable f).ip
  let file := (← get).ftable f
  let r ← writei file.ip addr file.off (ofInt n1)
  advance f r
  iunlock file.ip
  return r

theorem filewriteOp_eq (f : FilePtr) (addr : Nat → UInt8) (n1 : Int) :
    filewriteOp f addr n1 = (do
      beginOp
      let r ← filewriteLocked f addr n1
      endOp
      return r) := by
  simp only [filewriteOp, filewriteLocked, bind_assoc, pure_bind]

/-- Where a process is in `filewrite`: at the head of the loop, behind `begin_op`, or before
`end_op`. -/
inductive WriteCall where
  | loop (addr : Nat → UInt8) (n i : Int)
  | begun (addr : Nat → UInt8) (n i : Int)
  | written (addr : Nat → UInt8) (n i r : Int)

/-- Processes that write to a file. -/
structure Writers (P : Type) where
  fs : Fs
  call : P → Option WriteCall

/-- A process calls `filewrite`, or it goes on with its call. -/
inductive WriteEvent (P : Type) where
  | write (p : P) (addr : Nat → UInt8) (n : Int)
  | segment (p : P)

/-- The bytes a step writes, and at the end of a call what it was asked for and what it
returns. -/
structure WriteOutput where
  stored : List UInt8
  result : Option (Int × Int)

/-- Nothing happens. -/
def WriteOutput.quiet : WriteOutput := ⟨[], none⟩

/-- `n1` in `filewrite`. -/
def chunk (n i : Int) : Int := min (n - i) maxWrite

variable {P : Type} [DecidableEq P]

namespace Writers

/-- A call up to its next segment. -/
def segment (f : FilePtr) (s : Writers P) (p : P) : WriteCall → Option (Writers P × WriteOutput)
  | .loop addr n i =>
    if i < n then
      match beginOp.run s.fs with
      | .ok (_, fs) => some (⟨fs, update s.call p (some (.begun addr n i))⟩, .quiet)
      | .error _ => none
    else
      some (⟨s.fs, update s.call p none⟩, ⟨[], some (n, if i = n then n else -1)⟩)
  | .begun addr n i =>
    match (filewriteLocked f (fun k => addr (i.toNat + k)) (chunk n i)).run s.fs with
    | .ok (r, fs) =>
      some (⟨fs, update s.call p (some (.written addr n i r))⟩,
        ⟨(List.range' i.toNat r.toNat).map addr, none⟩)
    | .error _ => none
  | .written addr n i r =>
    match endOp.run s.fs with
    | .ok (_, fs) =>
      if r < 0 then
        some (⟨fs, update s.call p none⟩, ⟨[], some (n, if i = n then n else -1)⟩)
      else if r ≠ chunk n i then
        none
      else
        some (⟨fs, update s.call p (some (.loop addr n (i + r)))⟩, .quiet)
    | .error _ => none

/-- One event. -/
def step (f : FilePtr) (s : Writers P) : WriteEvent P → Option (Writers P × WriteOutput)
  | .write p addr n =>
    if (s.fs.ftable f).writable ∧ (s.fs.ftable f).type = .inode ∧ (s.call p).isNone then
      some ({ s with call := update s.call p (some (.loop addr n 0)) }, .quiet)
    else
      none
  | .segment p => (s.call p).bind (s.segment f p)

end Writers

/-- A step, with what it shows. -/
def WriteStep (f : FilePtr) (s : Writers P) (label : WriteEvent P × WriteOutput) (t : Writers P) :
    Prop :=
  s.step f label.1 = some (t, label.2)

/-- The bytes of the next section. -/
def Writers.next (s : Writers P) : WriteEvent P → Option Int
  | .write _ _ _ => none
  | .segment p =>
    match s.call p with
    | some (.begun _ n i) => some (chunk n i)
    | _ => none

/-- The free blocks that a part takes lie before the log. -/
def Writers.Below (f : FilePtr) (s : Writers P) (e : WriteEvent P) : Prop :=
  ∀ n1 ∈ s.next e, WritesBelow s.fs.view s.fs.log.log.start (s.fs.ftable f).ip
    (s.fs.ftable f).off (ofInt n1)
  deriving Decidable

/-! ## One call is a run -/

section

variable {f : FilePtr} {addr : Nat → UInt8} {n r : Int} {s t : Fs} {p : P} {call : P → Option WriteCall}

variable {i : Int}

theorem WriteStep.begin (more : i < n) (run : beginOp.run s = .ok ((), t)) :
    WriteStep f ⟨s, update call p (some (.loop addr n i))⟩ (.segment p, .quiet)
      ⟨t, update call p (some (.begun addr n i))⟩ := by
  simp only [WriteStep, Writers.step, update_self, Option.bind_some, Writers.segment,
    if_pos more, run, update_idem]

theorem WriteStep.locked
    (run : (filewriteLocked f (fun k => addr (i.toNat + k)) (chunk n i)).run s = .ok (r, t)) :
    WriteStep f ⟨s, update call p (some (.begun addr n i))⟩
      (.segment p, ⟨(List.range' i.toNat r.toNat).map addr, none⟩)
      ⟨t, update call p (some (.written addr n i r))⟩ := by
  simp only [WriteStep, Writers.step, update_self, Option.bind_some, Writers.segment, run,
    update_idem]

theorem WriteStep.next (nonneg : ¬ r < 0) (full : r = chunk n i)
    (run : endOp.run s = .ok ((), t)) :
    WriteStep f ⟨s, update call p (some (.written addr n i r))⟩ (.segment p, .quiet)
      ⟨t, update call p (some (.loop addr n (i + r)))⟩ := by
  simp only [WriteStep, Writers.step, update_self, Option.bind_some, Writers.segment, run,
    if_neg nonneg, if_neg (not_not.mpr full), update_idem]

theorem WriteStep.fail (negative : r < 0) (run : endOp.run s = .ok ((), t)) :
    WriteStep f ⟨s, update call p (some (.written addr n i r))⟩
      (.segment p, ⟨[], some (n, if i = n then n else -1)⟩) ⟨t, update call p none⟩ := by
  simp only [WriteStep, Writers.step, update_self, Option.bind_some, Writers.segment, run,
    if_pos negative, update_idem]

theorem WriteStep.return (done : ¬ i < n) :
    WriteStep f ⟨s, update call p (some (.loop addr n i))⟩
      (.segment p, ⟨[], some (n, if i = n then n else -1)⟩) ⟨s, update call p none⟩ := by
  simp only [WriteStep, Writers.step, update_self, Option.bind_some, Writers.segment,
    if_neg done, update_idem]

theorem filewriteLoop_steps (p : P) (call : P → Option WriteCall) {rounds : Nat} {j : Int}
    (enough : n ≤ i + rounds)
    (run : (filewriteLoop f addr n rounds i).run s = .ok (j, t)) :
    ∃ labels, (∀ l ∈ labels, l.1 = .segment p) ∧
      Steps (WriteStep f) ⟨s, update call p (some (.loop addr n i))⟩
        (labels ++ [(.segment p, ⟨[], some (n, if j = n then n else -1)⟩)])
          ⟨t, update call p none⟩ := by
  induction rounds generalizing s i with
  | zero =>
    cases run
    exact ⟨[], by simp, .snoc .nil (.return (by omega))⟩
  | succ rounds ih =>
    rw [filewriteLoop] at run
    split at run
    · rename_i more
      obtain ⟨r, u, op, run⟩ := FsM.bind_ok.mp run
      rw [filewriteOp_eq] at op
      obtain ⟨_, u₁, hbegin, op⟩ := FsM.bind_ok.mp op
      obtain ⟨r, u₂, hlocked, op⟩ := FsM.bind_ok.mp op
      obtain ⟨_, u₃, hend, op⟩ := FsM.bind_ok.mp op
      cases op
      have start : WriteStep f ⟨s, update call p (some (.loop addr n i))⟩
          (.segment p, .quiet) ⟨u₁, update call p (some (.begun addr n i))⟩ :=
        .begin more hbegin
      have first := (Steps.single start).trans (.single (.locked hlocked))
      split at run
      · rename_i negative
        cases run
        exact ⟨_, by simp, first.trans (.single (.fail negative hend))⟩
      · rename_i nonneg
        split at run
        · cases run
        · rename_i full
          obtain ⟨labels, own, rest⟩ := ih (i := i + r) (by
            have : maxWrite = 6656 := by decide
            have full : r = chunk n i := not_not.mp full
            rw [chunk] at full
            omega) run
          have all := (first.trans (.single (.next nonneg (not_not.mp full) hend))).trans rest
          rw [← List.append_assoc] at all
          exact ⟨_, by simpa using own, all⟩
    · rename_i done
      cases run
      exact ⟨[], by simp, .snoc .nil (.return done)⟩

/-- A call of `filewrite` that returns is a run in which nobody else does something. -/
theorem filewrite_steps {pipewrite : Except Halt Int} (type : (s.ftable f).type = .inode)
    (writable : (s.ftable f).writable = true) (idle : call p = none)
    (run : (filewrite pipewrite f addr n).run s = .ok (r, t)) :
    ∃ labels, (∀ l ∈ labels, l.1 = .segment p) ∧ Steps (WriteStep f) ⟨s, call⟩
      ((.write p addr n, .quiet) :: labels ++ [(.segment p, ⟨[], some (n, r)⟩)]) ⟨t, call⟩ := by
  rw [filewrite, FsM.get_bind] at run
  simp only [writable, not_true_eq_false, if_false, type] at run
  obtain ⟨i, u, loop, run⟩ := FsM.bind_ok.mp run
  cases run
  obtain ⟨labels, own, steps⟩ := filewriteLoop_steps p call (by omega) loop
  have start : WriteStep f ⟨s, call⟩ (.write p addr n, .quiet)
      ⟨s, update call p (some (.loop addr n 0))⟩ := by
    simp [WriteStep, Writers.step, writable, type, idle]
  have stop : update call p none = call := by
    rw [← idle, update_eq_self]
  rw [stop] at steps
  exact ⟨labels, own, (Steps.single start).trans steps⟩

end

/-! ## The part under the lock -/

/-- Nothing happens to the table of open files. -/
def filesFrame : Frame Fs where
  rel s t := t.ftable = s.ftable
  refl _ := rfl
  trans h k := k.trans h

theorem filesFrame_table : TableFrame filesFrame :=
  .of_fields fun _ _ _ _ _ => rfl

theorem beginOp_files {s t : Fs} (run : beginOp.run s = .ok ((), t)) : t.ftable = s.ftable := by
  simp only [beginOp, FsM.get_bind] at run
  split at run
  · cases run
  · cases run
    rfl

theorem endOp_files {s t : Fs} (run : endOp.run s = .ok ((), t)) : t.ftable = s.ftable := by
  simp only [endOp, FsM.get_bind] at run
  split at run
  · cases run
  · split at run
    · cases run
      rfl
    · cases run
      rfl

/-- The open files are no part of the inodes. -/
theorem Fs.Sane.setFiles {s : Fs} (h : s.Sane) (g : FilePtr → File) :
    Moves { s with ftable := g } s.tree := by
  obtain ⟨⟨⟨start, ⟨top_le, separate, mapped, low⟩, ⟨nonneg, inum, uniq, fits, type, disk⟩⟩,
    count, sectors, logged⟩, settled, complete⟩ := h
  refine ⟨⟨⟨⟨start, ⟨top_le, separate, mapped, low⟩, ⟨nonneg, inum, uniq, fits, type, disk⟩⟩,
    count, sectors, logged⟩, ?_, complete⟩, rfl⟩
  intro ip held
  exact settled ip ⟨held.ref, held.valid⟩

/-- A regular file that is open.  `sys_open` has read its inode. -/
structure OpenAt (s : Fs) (f : FilePtr) (ip : InodePtr) (i : Nat) : Prop where
  sane : s.Sane
  slot : (s.ftable f).ip = ip
  off : (s.ftable f).off < 2 ^ 32
  held : s.view.Held ip
  inum : (s.icache ip).inum = i
  type : (s.icache ip).type ≠ tDev

section

variable {s t : Fs} {f : FilePtr} {ip : InodePtr} {i : Nat}

theorem OpenAt.node (h : OpenAt s f ip i) :
    ∃ node, s.tree i = some node ∧ node.bytes.length = (s.icache ip).size := by
  have coherent := h.sane.sound.good.coherent
  have inode : s.view.vol.inode i = (s.icache ip).toDinode := by
    rw [← h.inum]
    exact coherent.vol_inode h.held
  have type : (s.view.vol.inode i).type ≠ 0 := by
    rw [inode]
    exact coherent.type ip h.held.ref h.held.valid
  refine ⟨_, Volume.tree_of_type type, ?_⟩
  rw [Volume.file_length, inode]

theorem OpenAt.boundary (h : OpenAt s f ip i) (step : OpBoundary s t) (files : t.ftable = s.ftable) :
    OpenAt t f ip i ∧ t.tree = s.tree := by
  have moves := step.moves h.sane
  have icache : t.icache = s.icache := step.icache
  have held := h.held
  refine ⟨⟨moves.sane, by rw [files]; exact h.slot, by rw [files]; exact h.off, ⟨?_, ?_⟩,
    by rw [icache]; exact h.inum, by rw [icache]; exact h.type⟩, moves.tree⟩
  · show 0 < (t.icache ip).ref
    rw [icache]
    exact held.ref
  · show (t.icache ip).valid = true
    rw [icache]
    exact held.valid

theorem OpenAt.begin (h : OpenAt s f ip i) (run : beginOp.run s = .ok ((), t)) :
    OpenAt t f ip i ∧ t.tree = s.tree ∧ t.ftable = s.ftable := by
  obtain ⟨next, tree⟩ :=
    h.boundary (beginOp_transaction h.sane.sound.nonneg run) (beginOp_files run)
  exact ⟨next, tree, beginOp_files run⟩

theorem OpenAt.end (h : OpenAt s f ip i) (run : endOp.run s = .ok ((), t)) :
    OpenAt t f ip i ∧ t.tree = s.tree ∧ t.ftable = s.ftable := by
  obtain ⟨next, tree⟩ := h.boundary
    (endOp_transaction h.sane.sound.nonneg h.sane.sound.sectors run) (endOp_files run)
  exact ⟨next, tree, endOp_files run⟩

theorem OpenAt.of_slot (h : OpenAt s f ip i) (sane : t.Sane) (files : t.ftable f = s.ftable f)
    (ref : (t.icache ip).ref = (s.icache ip).ref) (valid : (t.icache ip).valid = (s.icache ip).valid)
    (inum : (t.icache ip).inum = (s.icache ip).inum)
    (type : (t.icache ip).type = (s.icache ip).type) : OpenAt t f ip i := by
  refine ⟨sane, by rw [files]; exact h.slot, by rw [files]; exact h.off, ⟨?_, ?_⟩,
    by rw [inum]; exact h.inum, by rw [type]; exact h.type⟩
  · show 0 < (t.icache ip).ref
    rw [ref]
    exact h.held.ref
  · show (t.icache ip).valid = true
    rw [valid]
    exact h.held.valid

theorem OpenAt.lock (h : OpenAt s f ip i) (run : (ilock ip).run s = .ok ((), t)) :
    OpenAt t f ip i ∧ t.tree = s.tree ∧ t.ftable = s.ftable ∧
      t.icache ip = { s.icache ip with busy := true } ∧ t.view.data = s.view.data := by
  have files : t.ftable = s.ftable := (filesFrame_table.ilock ip).rel run
  have moves := ilock_moves h.sane run
  have view := ilock_ok run
  rw [View.lock_of_valid h.held.valid] at view
  have slot : t.icache ip = { s.icache ip with busy := true } :=
    (congrFun (congrArg View.icache view) ip).trans (View.setInode_icache _)
  refine ⟨h.of_slot moves.sane (by rw [files]) ?_ ?_ ?_ ?_, moves.tree, files, slot, by rw [view]; rfl⟩
  all_goals rw [slot]

theorem OpenAt.unlock (h : OpenAt s f ip i) (run : (iunlock ip).run s = .ok ((), t)) :
    OpenAt t f ip i ∧ t.tree = s.tree ∧ t.ftable = s.ftable := by
  have files : t.ftable = s.ftable := (filesFrame_table.iunlock ip).rel run
  have moves := iunlock_moves h.sane run
  obtain ⟨_, _, view⟩ := iunlock_view run
  have slot : t.icache ip = { s.icache ip with busy := false } :=
    (congrFun (congrArg View.icache view) ip).trans (View.setInode_icache _)
  refine ⟨h.of_slot moves.sane (by rw [files]) ?_ ?_ ?_ ?_, moves.tree, files⟩
  all_goals rw [slot]

/-- The offset after a write that returned `r`. -/
def nextOff (off : Nat) (r : Int) : Nat := if r > 0 then (off + ofInt r) % 2 ^ 32 else off

theorem OpenAt.advance (h : OpenAt s f ip i) {r : Int} (run : (advance f r).run s = .ok ((), t)) :
    OpenAt t f ip i ∧ t.tree = s.tree ∧
      t.ftable f = { s.ftable f with off := nextOff (s.ftable f).off r } := by
  cases run
  have moves := h.sane.setFiles
    (update s.ftable f { s.ftable f with off := nextOff (s.ftable f).off r })
  have file : update s.ftable f
      { s.ftable f with off := nextOff (s.ftable f).off r } f = _ := update_self ..
  refine ⟨⟨moves.sane, ?_, ?_, ⟨h.held.ref, h.held.valid⟩, h.inum, h.type⟩, moves.tree, file⟩
  · exact (congrArg File.ip file).trans h.slot
  · refine (congrArg File.off file).trans_lt ?_
    show nextOff (s.ftable f).off r < 2 ^ 32
    rw [nextOff]
    split
    · exact Nat.mod_lt _ (Nat.two_pow_pos 32)
    · exact h.off

/-- The part under the lock returns `-1` and does nothing, or it writes at the offset and moves
it on. -/
theorem OpenAt.locked (h : OpenAt s f ip i) {addr : Nat → UInt8} {n1 r : Int} (pos : 0 < n1)
    (small : n1 ≤ maxWrite)
    (below : WritesBelow s.view s.log.log.start ip (s.ftable f).off (ofInt n1))
    (run : (filewriteLocked f addr n1).run s = .ok (r, t)) :
    OpenAt t f ip i ∧
      ((r = -1 ∧ t.tree = s.tree ∧ t.ftable f = s.ftable f) ∨
        (r = n1 ∧ (s.ftable f).off ≤ (s.icache ip).size ∧
          t.tree = update s.tree i
            ((s.tree i).map (·.write (s.ftable f).off ((List.range n1.toNat).map addr))) ∧
          t.ftable f = { s.ftable f with off := (s.ftable f).off + n1.toNat })) := by
  have max : maxWrite = 6656 := by decide
  rw [max] at small
  have bits : ofInt n1 = n1.toNat := by
    rw [ofInt]
    omega
  rw [filewriteLocked, FsM.get_bind, h.slot] at run
  obtain ⟨_, u, hlock, run⟩ := FsM.bind_ok.mp run
  obtain ⟨h₁, tree₁, files₁, slot₁, data₁⟩ := h.lock hlock
  have start : u.log.log.start = s.log.log.start := (startFrame_table.ilock ip).rel hlock
  have below : WritesBelow u.view u.log.log.start ip (u.ftable f).off (ofInt n1) := by
    rw [start, files₁]
    refine below.congr data₁ ?_
    show (u.icache ip).toDinode = _
    rw [slot₁]
    rfl
  have type : (u.icache ip).type ≠ tDev := h₁.type
  have size : (u.icache ip).size = (s.icache ip).size := by rw [slot₁]
  rw [← files₁, ← tree₁, ← size]
  rw [FsM.get_bind] at run
  dsimp only at run
  rw [h₁.slot] at run
  obtain ⟨r', u₁, hwrite, run⟩ := FsM.bind_ok.mp run
  obtain ⟨_, u₂, hadvance, run⟩ := FsM.bind_ok.mp run
  obtain ⟨_, u₃, hunlock, run⟩ := FsM.bind_ok.mp run
  cases run
  have files₂ : u₁.ftable = u.ftable := (filesFrame_table.writei ip addr _ _).rel hwrite
  obtain ⟨_, rfl, rfl⟩ | ⟨accept, rfl, moved, _, size', addrs, slot₂⟩ :=
    writei_moves h₁.sane h₁.held type h₁.off (ofInt_lt n1) below hwrite
  · obtain ⟨h₂, tree₂, file₂⟩ := h₁.advance hadvance
    obtain ⟨h₃, tree₃, files₃⟩ := h₂.unlock hunlock
    refine ⟨h₃, .inl ⟨rfl, tree₃.trans tree₂, ?_⟩⟩
    rw [files₃, file₂]
    rfl
  · have h₂ : OpenAt u₁ f ip i := by
      refine h₁.of_slot moved.sane (by rw [files₂]) ?_ ?_ ?_ ?_
      all_goals rw [slot₂]
    obtain ⟨h₃, tree₃, file₃⟩ := h₂.advance hadvance
    obtain ⟨h₄, tree₄, files₄⟩ := h₃.unlock hunlock
    obtain ⟨_, bound⟩ := accept.bound h₁.off (ofInt_lt n1)
    have bound : (u.ftable f).off + ofInt n1 ≤ 8459776 := bound
    rw [bits] at bound moved file₃
    have next : nextOff (u.ftable f).off ((n1.toNat : Nat) : Int) = (u.ftable f).off + n1.toNat := by
      rw [nextOff, if_pos (by omega), ofInt]
      omega
    refine ⟨h₄, .inr ⟨by omega, accept.1, ?_, ?_⟩⟩
    · rw [tree₄, tree₃, moved.tree, h₁.inum]
    · rw [files₄, file₃, files₂, next]

end

/-! ## Runs -/

/-- The bytes written. -/
def written (labels : List (WriteEvent P × WriteOutput)) : List UInt8 := labels.flatMap (·.2.stored)

/-- What a step writes for `p`. -/
def writtenBy.part (p : P) : WriteEvent P × WriteOutput → List UInt8
  | (.segment p', out) => if p' = p then out.stored else []
  | (.write _ _ _, _) => []

/-- The bytes `p` has written. -/
def writtenBy (p : P) (labels : List (WriteEvent P × WriteOutput)) : List UInt8 :=
  labels.flatMap (writtenBy.part p)

/-- What a step asks for `p`. -/
def askedBy.part (p : P) : WriteEvent P × WriteOutput → List UInt8
  | (.write p' addr n, _) => if p' = p then (List.range n.toNat).map addr else []
  | (.segment _, _) => []

/-- The bytes `p` was to write. -/
def askedBy (p : P) (labels : List (WriteEvent P × WriteOutput)) : List UInt8 :=
  labels.flatMap (askedBy.part p)

/-- Every call that has returned has returned its full count. -/
def FullCounts (labels : List (WriteEvent P × WriteOutput)) : Prop :=
  ∀ l ∈ labels, ∀ n r, l.2.result = some (n, r) → r = n

/-- The bytes a call has still to write. -/
def WriteCall.left : WriteCall → List UInt8
  | .loop addr n i | .begun addr n i => (List.range' i.toNat (n - i).toNat).map addr
  | .written addr n i r => (List.range' (i + max r 0).toNat (n - i - max r 0).toNat).map addr

/-- What is known of the variables of a call. -/
def WriteCall.Sound : WriteCall → Prop
  | .loop _ _ i => 0 ≤ i
  | .begun _ n i => 0 ≤ i ∧ i < n
  | .written _ n i r => 0 ≤ i ∧ i < n ∧ (r = -1 ∨ r = chunk n i)

/-- The bytes `p` has still to write. -/
def Writers.left (s : Writers P) (p : P) : List UInt8 := ((s.call p).map WriteCall.left).getD []

/-- The file has the bytes written so far behind each other, and each process has written what
it was asked for, up to where it is. -/
structure WriteInv (f : FilePtr) (ip : InodePtr) (i : Nat) (s₀ : Fs)
    (labels : List (WriteEvent P × WriteOutput)) (s : Writers P) : Prop where
  open_ : OpenAt s.fs f ip i
  tree : s.fs.tree = update s₀.tree i
    ((s₀.tree i).map (·.write (s₀.ftable f).off (written labels)))
  off : (s.fs.ftable f).off = (s₀.ftable f).off + (written labels).length
  sound : ∀ p c, s.call p = some c → c.Sound
  own : FullCounts labels → ∀ p, askedBy p labels = writtenBy p labels ++ s.left p

/-- Two writes one behind the other are one. -/
theorem overwrite_overwrite {bytes a b : List UInt8} {off : Nat}
    (inside : off + a.length ≤ (overwrite bytes off a).length) :
    overwrite (overwrite bytes off a) (off + a.length) b = overwrite bytes off (a ++ b) := by
  have off_le : off ≤ bytes.length := by
    simp only [overwrite, List.length_append, List.length_take, List.length_drop] at inside
    omega
  have front : (bytes.take off ++ a).length = off + a.length := by
    rw [List.length_append, List.length_take, Nat.min_eq_left off_le]
  rw [overwrite, overwrite, overwrite, ← front, List.take_left, ← List.drop_drop, List.drop_left,
    front, List.drop_drop, List.length_append, Nat.add_assoc, List.append_assoc (bytes.take off)]

section

variable {f : FilePtr} {ip : InodePtr} {i : Nat} {s₀ : Fs} {s t : Writers P}
  {labels : List (WriteEvent P × WriteOutput)} {l : WriteEvent P × WriteOutput}

variable {p : P} {c : Option WriteCall}

omit [DecidableEq P] in
theorem written_snoc : written (labels ++ [l]) = written labels ++ l.2.stored := by
  simp [written]

theorem writtenBy_snoc (p : P) :
    writtenBy p (labels ++ [l]) = writtenBy p labels ++ writtenBy.part p l := by
  simp [writtenBy]

theorem askedBy_snoc (p : P) :
    askedBy p (labels ++ [l]) = askedBy p labels ++ askedBy.part p l := by
  simp [askedBy]

omit [DecidableEq P] in
theorem FullCounts.init (h : FullCounts (labels ++ [l])) : FullCounts labels :=
  fun l' hl => h l' (List.mem_append_left _ hl)

omit [DecidableEq P] in
theorem FullCounts.last (h : FullCounts (labels ++ [l])) {n r : Int}
    (result : l.2.result = some (n, r)) : r = n :=
  h l (List.mem_append_right _ List.mem_cons_self) n r result

theorem UserInode.write_nil (node : UserInode) (off : Nat) : node.write off [] = node := by
  simp [UserInode.write, overwrite]

theorem WriteInv.start (h : OpenAt s.fs f ip i) (idle : ∀ p, s.call p = none) :
    WriteInv f ip i s.fs [] s := by
  refine ⟨h, ?_, rfl, ?_, ?_⟩
  · show s.fs.tree = update s.fs.tree i ((s.fs.tree i).map (·.write (s.fs.ftable f).off []))
    simp only [UserInode.write_nil, Option.map_id', update_eq_self]
  · intro p c call
    rw [idle] at call
    cases call
  · intro _ p
    simp [askedBy, writtenBy, Writers.left, idle]

/-- Only the call of `p` changes. -/
theorem WriteInv.own_update (h : WriteInv f ip i s₀ labels s) {fs : Fs}
    (others : ∀ p' ≠ p, askedBy.part p' l = [] ∧ writtenBy.part p' l = [])
    (mine : FullCounts (labels ++ [l]) →
      s.left p ++ askedBy.part p l = writtenBy.part p l ++ (c.map WriteCall.left).getD [])
    (full : FullCounts (labels ++ [l])) (p' : P) :
    askedBy p' (labels ++ [l]) =
      writtenBy p' (labels ++ [l]) ++ Writers.left ⟨fs, update s.call p c⟩ p' := by
  rw [askedBy_snoc, writtenBy_snoc, h.own full.init]
  by_cases e : p' = p
  · subst e
    rw [List.append_assoc, mine full, List.append_assoc]
    simp [Writers.left]
  · obtain ⟨asked, wrote⟩ := others p' e
    simp [Writers.left, asked, wrote, e]

theorem WriteInv.sound_update (h : WriteInv f ip i s₀ labels s)
    (mine : ∀ d, c = some d → d.Sound) (p' : P) (d : WriteCall)
    (call : update s.call p c p' = some d) : d.Sound := by
  by_cases e : p' = p
  · subst e
    rw [update_self] at call
    exact mine d call
  · rw [update_of_ne e] at call
    exact h.sound p' d call

/-- A step that writes nothing. -/
theorem WriteInv.still (h : WriteInv f ip i s₀ labels s) {fs : Fs}
    (next : OpenAt fs f ip i) (tree : fs.tree = s.fs.tree) (file : fs.ftable f = s.fs.ftable f)
    (none : l.2.stored = []) (others : ∀ p' ≠ p, askedBy.part p' l = [] ∧ writtenBy.part p' l = [])
    (sound : ∀ d, c = some d → d.Sound)
    (mine : FullCounts (labels ++ [l]) →
      s.left p ++ askedBy.part p l = writtenBy.part p l ++ (c.map WriteCall.left).getD []) :
    WriteInv f ip i s₀ (labels ++ [l]) ⟨fs, update s.call p c⟩ := by
  refine ⟨next, ?_, ?_, h.sound_update sound, h.own_update others mine⟩
  · rw [written_snoc, none, List.append_nil]
    exact tree.trans h.tree
  · rw [written_snoc, none, List.append_nil]
    exact (congrArg File.off file).trans h.off

theorem segment_others (p : P) (out : WriteOutput) :
    ∀ p' ≠ p, askedBy.part p' (.segment p, out) = [] ∧ writtenBy.part p' (.segment p, out) = [] := by
  intro p' ne
  exact ⟨rfl, if_neg ne.symm⟩

/-- A step that writes at the offset. -/
theorem WriteInv.wrote (h : WriteInv f ip i s₀ labels s) {c : WriteCall} {fs : Fs}
    {data : List UInt8} (next : OpenAt fs f ip i)
    (inside : (s.fs.ftable f).off ≤ (s.fs.icache ip).size)
    (tree : fs.tree = update s.fs.tree i
      ((s.fs.tree i).map (·.write (s.fs.ftable f).off data)))
    (file : fs.ftable f = { s.fs.ftable f with off := (s.fs.ftable f).off + data.length })
    (sound : c.Sound) (mine : s.left p = data ++ c.left) :
    WriteInv f ip i s₀ (labels ++ [(.segment p, ⟨data, none⟩)])
      ⟨fs, update s.call p (some c)⟩ := by
  refine ⟨next, ?_, ?_, h.sound_update ?_, h.own_update (segment_others p _) ?_⟩
  · obtain ⟨node, here, length⟩ := h.open_.node
    have before := h.tree
    rw [written_snoc, show fs.tree = _ from tree, here]
    cases start : s₀.tree i with
    | none =>
      rw [before, start] at here
      simp at here
    | some node₀ =>
      rw [before, start, update_self, Option.map_some] at here
      cases here
      have inside : (s₀.ftable f).off + (written labels).length ≤
          (overwrite node₀.bytes (s₀.ftable f).off (written labels)).length := by
        rw [← h.off]
        exact inside.trans_eq length.symm
      rw [before, update_idem, h.off]
      congr 1
      simp only [Option.map_some, UserInode.write, overwrite_overwrite inside]
  · show (fs.ftable f).off = _
    rw [file, written_snoc, List.length_append, ← Nat.add_assoc, ← h.off]
  · intro d e
    cases e
    exact sound
  · intro _
    simp [askedBy.part, writtenBy.part, mine]

theorem chunk_pos {n i : Int} (more : i < n) : 0 < chunk n i ∧ chunk n i ≤ n - i := by
  have : maxWrite = 6656 := by decide
  rw [chunk]
  omega

/-- A part of a call keeps the invariant. -/
theorem WriteInv.segment (h : WriteInv f ip i s₀ labels s) {c : WriteCall}
    {out : WriteOutput} (call : s.call p = some c)
    (below : s.Below f (.segment p)) (step : s.segment f p c = some (t, out)) :
    WriteInv f ip i s₀ (labels ++ [(.segment p, out)]) t := by
  have sound := h.sound p c call
  have left : s.left p = c.left := by simp [Writers.left, call]
  cases c with
  | loop addr n k =>
    have nonneg : 0 ≤ k := sound
    rw [Writers.segment] at step
    split at step
    · rename_i more
      split at step
      · rename_i fs run
        cases step
        obtain ⟨next, tree, files⟩ := h.open_.begin run
        refine h.still next tree (by rw [files]) rfl (segment_others p _) ?_ ?_
        · intro d e
          cases e
          exact ⟨nonneg, more⟩
        · intro _
          simp [askedBy.part, writtenBy.part, WriteOutput.quiet, left, WriteCall.left]
      · cases step
    · rename_i done
      cases step
      refine h.still h.open_ rfl rfl rfl (segment_others p _) (by simp) ?_
      intro _
      have zero : (n - k).toNat = 0 := by omega
      simp [askedBy.part, writtenBy.part, left, WriteCall.left, zero]
  | begun addr n k =>
    obtain ⟨nonneg, more⟩ : 0 ≤ k ∧ k < n := sound
    obtain ⟨pos, bound⟩ := chunk_pos more
    have room := below (chunk n k) (by simp [Writers.next, call])
    rw [h.open_.slot] at room
    rw [Writers.segment] at step
    split at step
    · rename_i r fs run
      cases step
      obtain ⟨next, ⟨rfl, tree, file⟩ | ⟨rfl, inside, tree, file⟩⟩ :=
        h.open_.locked pos (Int.min_le_right ..) room run
      · refine h.still next tree file rfl (segment_others p _) ?_ ?_
        · intro d e
          cases e
          exact ⟨nonneg, more, .inl rfl⟩
        · intro _
          simp [askedBy.part, writtenBy.part, left, WriteCall.left]
      · have data : (List.range (chunk n k).toNat).map (fun j => addr (k.toNat + j)) =
            (List.range' k.toNat (chunk n k).toNat).map addr := by
          rw [List.range'_eq_map_range, List.map_map]
          rfl
        rw [data] at tree
        refine h.wrote next inside tree ?_ ⟨nonneg, more, .inr rfl⟩ ?_
        · rw [file, List.length_map, List.length_range']
        · have both : (n - k).toNat = (chunk n k).toNat + (n - k - max (chunk n k) 0).toNat := by
            omega
          have from_ : (k + max (chunk n k) 0).toNat = k.toNat + (chunk n k).toNat := by omega
          rw [left, WriteCall.left, WriteCall.left, both, from_, ← List.range'_append_1,
            List.map_append]
    · cases step
  | written addr n k r =>
    obtain ⟨nonneg, more, result⟩ : 0 ≤ k ∧ k < n ∧ (r = -1 ∨ r = chunk n k) := sound
    obtain ⟨pos, bound⟩ := chunk_pos more
    rw [Writers.segment] at step
    split at step
    · rename_i fs run
      obtain ⟨next, tree, files⟩ := h.open_.end run
      split at step
      · cases step
        refine h.still next tree (by rw [files]) rfl (segment_others p _) (by simp) ?_
        intro full
        have short := full.last rfl
        split at short <;> omega
      · rename_i good
        split at step
        · cases step
        · rename_i all
          cases step
          refine h.still next tree (by rw [files]) rfl (segment_others p _) ?_ ?_
          · intro d e
            cases e
            show 0 ≤ k + r
            omega
          · intro _
            have from_ : max r 0 = r := by omega
            have rest : n - k - r = n - (k + r) := by omega
            simp [askedBy.part, writtenBy.part, WriteOutput.quiet, left, WriteCall.left, from_, rest]
    · cases step

/-- A step keeps the invariant. -/
theorem WriteInv.step (h : WriteInv f ip i s₀ labels s) (below : s.Below f l.1)
    (step : WriteStep f s l t) : WriteInv f ip i s₀ (labels ++ [l]) t := by
  obtain ⟨e, out⟩ := l
  cases e with
  | write p addr n =>
    simp only [WriteStep, Writers.step] at step
    split at step
    · rename_i idle
      cases step
      have idle : s.call p = none := by simpa using idle.2.2
      refine h.still h.open_ rfl rfl rfl ?_ ?_ ?_
      · intro p' ne
        exact ⟨if_neg ne.symm, rfl⟩
      · intro d e
        cases e
        exact Int.le_refl 0
      · intro _
        simp [askedBy.part, writtenBy.part, Writers.left, idle, WriteCall.left, List.range_eq_range']
    · cases step
  | segment p =>
    simp only [WriteStep, Writers.step, Option.bind_eq_some_iff] at step
    obtain ⟨c, call, step⟩ := step
    exact h.segment call below step

/-- Writers that share an open file lose nothing.  If all calls have returned their full count,
the file has all bytes that were written, one behind the other from the initial offset on, and
the offset is behind them; each process has written what it was asked for, in its order.  The
bytes before the initial offset are as they were, and so are all other files. -/
theorem shared_writes {s₀ : Writers P} (open_ : OpenAt s₀.fs f ip i) (idle₀ : ∀ p, s₀.call p = none)
    (run : Steps (Guarded (WriteStep f) fun s l => s.Below f l.1) s₀ labels s)
    (idle : ∀ p, s.call p = none) (full : FullCounts labels) :
    (∃ node, s₀.fs.tree i = some node ∧ s.fs.tree = update s₀.fs.tree i (some
      { node with bytes := overwrite node.bytes (s₀.fs.ftable f).off (written labels) })) ∧
    (s.fs.ftable f).off = (s₀.fs.ftable f).off + (written labels).length ∧
    ∀ p, writtenBy p labels = askedBy p labels := by
  have inv : WriteInv f ip i s₀.fs labels s :=
    run.invariant_hist (.start open_ idle₀) fun h step => h.step step.1 step.2
  obtain ⟨node, here, _⟩ := open_.node
  refine ⟨⟨node, here, ?_⟩, inv.off, ?_⟩
  · rw [inv.tree, here]
    rfl
  · intro p
    have own := inv.own full p
    simp only [Writers.left, idle, Option.map_none, Option.getD_none, List.append_nil] at own
    exact own.symm

end

variable {ip : InodePtr}

instance (labels : List (WriteEvent P × WriteOutput)) : Decidable (FullCounts labels) :=
  decidable_of_iff (∀ l ∈ labels, ∀ r ∈ l.2.result, r.2 = r.1)
    ⟨fun h l hl n r e => h l hl (n, r) e, fun h l hl r e => h l hl r.1 r.2 e⟩

/-- The first inode is opened, as `sys_open` does it, and the offset is set. -/
def openFirst (f : FilePtr) (off : Nat) : FsM InodePtr := do
  let ip ← iget 1
  ilock ip
  iunlock ip
  modify fun s => { s with ftable := update s.ftable f ⟨.inode, true, ip, off⟩ }
  return ip

theorem openFirst_openAt {s t : Fs} {f : FilePtr} {off : Nat} (h : s.Sane)
    (lt : 1 < s.view.sb.slots) (small : off < 2 ^ 32)
    (run : (openFirst f off).run s = .ok (ip, t)) (type : (t.icache ip).type ≠ tDev) :
    OpenAt t f ip 1 := by
  obtain ⟨ip, u₁, hget, run⟩ := FsM.bind_ok.mp run
  obtain ⟨_, u₂, hlock, run⟩ := FsM.bind_ok.mp run
  obtain ⟨_, u₃, hunlock, run⟩ := FsM.bind_ok.mp run
  have got := (iget_keeps h.sound.good lt hget).2
  have one := iget_moves h lt hget
  have two := ilock_moves one.sane hlock
  have three := iunlock_moves two.sane hunlock
  have held := ilock_held hlock
  obtain ⟨_, _, view⟩ := iunlock_view hunlock
  have slot₃ : u₃.icache ip = { u₂.icache ip with busy := false } :=
    (congrFun (congrArg View.icache view) ip).trans (View.setInode_icache _)
  have inum₂ : (u₂.icache ip).inum = (u₁.icache ip).inum := by
    have slot : u₂.view.icache ip = u₁.view.load { u₁.view.icache ip with busy := true } := by
      rw [ilock_ok hlock]
      exact View.setInode_icache _
    rw [show u₂.icache ip = _ from slot, View.load]
    split <;> rfl
  cases run
  refine ⟨(three.sane.setFiles _).sane, ?_, ?_, ⟨?_, ?_⟩, ?_, type⟩
  · simp
  · simpa using small
  · show 0 < (u₃.icache ip).ref
    rw [slot₃]
    exact held.ref
  · show (u₃.icache ip).valid = true
    rw [slot₃]
    exact held.valid
  · show (u₃.icache ip).inum = 1
    rw [slot₃]
    exact inum₂.trans got.2

theorem smallImage_sane {k : Nat} (hk : k = 10 ∨ k = 11) : (smallImage k).Sane := by
  refine (smallImage_booted hk).sane ?_
  intro i type bn below
  have first : ∀ i < 16, ((smallImage k).view.current i).type ≠ 0 → i = 1 := by
    obtain rfl | rfl := hk <;> decide +kernel
  obtain ⟨lt, same⟩ := (smallImage_direct hk).inode type
  obtain rfl := first i lt (same ▸ type)
  have size : ((smallImage k).view.vol.inode 1).size = k * bsize := by
    obtain rfl | rfl := hk <;> decide +kernel
  have there : ∀ bn < k, (smallImage k).view.vol.node (1 :: leaf bn) ≠ none := by
    obtain rfl | rfl := hk <;> decide +kernel
  rw [size] at below
  exact there bn (Nat.lt_of_mul_lt_mul_right below)

/-- Two writers write a byte each behind a file of `k` blocks: the slot, the states before and
after their calls, and what they do.  With a guard, a part stops that would take a block behind
the start of the log. -/
def twoWriters (k : Nat) (guarded : Bool) :
    Option (InodePtr × Writers Bool × Writers Bool × List (WriteEvent Bool × WriteOutput)) := do
  let (ip, fs) ← ((openFirst ⟨0, by decide⟩ (k * bsize)).run (smallImage k)).toOption
  let (s, labels) ← execOut
    (fun s e => if guarded → s.Below ⟨0, by decide⟩ e then s.step ⟨0, by decide⟩ e else none)
    ⟨fs, fun _ => none⟩
    [.write true (fun _ => 7) 1, .write false (fun _ => 8) 1, .segment true, .segment false,
      .segment false, .segment true, .segment true, .segment false, .segment true, .segment false]
  return (ip, ⟨fs, fun _ => none⟩, s, labels)

theorem twoWriters_run {k : Nat} {guarded : Bool} {s₀ s : Writers Bool}
    {labels : List (WriteEvent Bool × WriteOutput)}
    (h : twoWriters k guarded = some (ip, s₀, s, labels)) :
    (openFirst ⟨0, by decide⟩ (k * bsize)).run (smallImage k) = .ok (ip, s₀.fs) ∧
      (∀ p, s₀.call p = none) ∧
      Steps (Guarded (WriteStep ⟨0, by decide⟩)
        fun s l => guarded → s.Below ⟨0, by decide⟩ l.1) s₀ labels s := by
  simp only [twoWriters, Runs.bind_some] at h
  obtain ⟨⟨ip, fs⟩, opened, ⟨s, labels⟩, run, e⟩ := h
  cases e
  refine ⟨?_, fun _ => rfl, ?_⟩
  · exact eq_ok_of_toOption opened
  · refine (Steps.of_execOut run).mono ?_
    intro s l t step
    split at step
    · rename_i guard
      exact ⟨guard, step⟩
    · cases step

theorem twoWriters_openAt {k : Nat} (hk : k = 10 ∨ k = 11) {guarded : Bool}
    {s₀ s : Writers Bool} {labels : List (WriteEvent Bool × WriteOutput)}
    (h : twoWriters k guarded = some (ip, s₀, s, labels)) (type : (s₀.fs.icache ip).type ≠ tDev) :
    OpenAt s₀.fs ⟨0, by decide⟩ ip 1 := by
  have slots : 1 < (smallImage k).view.sb.slots := by
    rw [(smallImage_direct hk).slots]
    decide
  have small : k * bsize < 2 ^ 32 := by
    obtain rfl | rfl := hk <;> decide
  exact openFirst_openAt (smallImage_sane hk) slots small (twoWriters_run h).1 type

theorem filewrite_steps_byte : ∃ s t labels, (∀ l ∈ labels, l.1 = .segment true) ∧
    Steps (WriteStep ⟨0, by decide⟩) ⟨s, fun _ : Bool => none⟩
      ((.write true (fun _ => 7) 1, .quiet) :: labels ++ [(.segment true, ⟨[], some (1, 1)⟩)])
        ⟨t, fun _ => none⟩ := by
  have done : ((filewrite (.ok 0) ⟨0, by decide⟩ (fun _ => 7) 1).run { smallImage 10 with
      icache := fun ip => { (smallImage 10).icache ip with inum := 1, ref := 1 }
      ftable := fun _ => ⟨.inode, true, ⟨0, by decide⟩, 0⟩ }).toOption.map Prod.fst = some 1 := by
    decide +kernel
  obtain ⟨⟨_, t⟩, run, rfl⟩ := Option.map_eq_some_iff.mp done
  exact ⟨_, t, filewrite_steps rfl rfl rfl (eq_ok_of_toOption run)⟩

/-- Two writers append a byte each to a file of ten blocks, and the second one is first. -/
theorem shared_writes_two :
    ∃ ip s₀ s labels, OpenAt s₀.fs ⟨0, by decide⟩ ip 1 ∧ (∀ p : Bool, s₀.call p = none) ∧
      Steps (Guarded (WriteStep ⟨0, by decide⟩) fun s l => s.Below ⟨0, by decide⟩ l.1)
        s₀ labels s ∧
      (∀ p, s.call p = none) ∧ FullCounts labels ∧ written labels = [8, 7] ∧
      (∃ node, s₀.fs.tree 1 = some node ∧ s.fs.tree = update s₀.fs.tree 1 (some
        { node with bytes := overwrite node.bytes (s₀.fs.ftable ⟨0, by decide⟩).off [8, 7] })) ∧
      (s.fs.ftable ⟨0, by decide⟩).off = (s₀.fs.ftable ⟨0, by decide⟩).off + 2 ∧
      ∀ p, writtenBy p labels = askedBy p labels := by
  have result : (twoWriters 10 true).map (fun r =>
      (decide ((r.2.1.fs.icache r.1).type = tDev), decide (FullCounts r.2.2.2), written r.2.2.2,
        (r.2.2.1.call true).isNone, (r.2.2.1.call false).isNone)) =
      some (false, true, [8, 7], true, true) := by
    decide +kernel
  obtain ⟨⟨ip, s₀, s, labels⟩, run, e⟩ := Option.map_eq_some_iff.mp result
  simp only [Prod.mk.injEq, decide_eq_false_iff_not, decide_eq_true_eq,
    Option.isNone_iff_eq_none] at e
  obtain ⟨type, full, bytes, idle₁, idle₂⟩ := e
  obtain ⟨-, idle₀, steps⟩ := twoWriters_run run
  have open_ := twoWriters_openAt (.inl rfl) run type
  have steps : Steps (Guarded (WriteStep ⟨0, by decide⟩) fun s l => s.Below ⟨0, by decide⟩ l.1)
      s₀ labels s := steps.mono fun h => ⟨h.1 rfl, h.2⟩
  have idle : ∀ p, s.call p = none := Bool.forall_bool.mpr ⟨idle₂, idle₁⟩
  obtain ⟨tree, off, own⟩ := shared_writes open_ idle₀ steps idle full
  rw [bytes] at tree off
  exact ⟨ip, s₀, s, labels, open_, idle₀, steps, idle, full, bytes, tree, off, own⟩

/-- If all blocks before the log are used, a block of the log is the index block, and the
first commit overwrites it: the bytes are gone, though both calls return their full count. -/
theorem shared_write_lost :
    ∃ ip s₀ s labels, OpenAt s₀.fs ⟨0, by decide⟩ ip 1 ∧ (∀ p : Bool, s₀.call p = none) ∧
      Steps (WriteStep ⟨0, by decide⟩) s₀ labels s ∧
      (∀ p, s.call p = none) ∧ FullCounts labels ∧ written labels = [8, 7] ∧
      (s₀.fs.ftable ⟨0, by decide⟩).off = 5632 ∧ s.fs.view.vol.content 1 5632 = 0 := by
  have result : (twoWriters 11 false).map (fun r =>
      (decide ((r.2.1.fs.icache r.1).type = tDev), decide (FullCounts r.2.2.2), written r.2.2.2,
        (r.2.2.1.call true).isNone, (r.2.2.1.call false).isNone,
        decide ((r.2.1.fs.ftable ⟨0, by decide⟩).off = 5632 ∧
          r.2.2.1.fs.view.vol.content 1 5632 = 0))) =
      some (false, true, [8, 7], true, true, true) := by
    decide +kernel
  obtain ⟨⟨ip, s₀, s, labels⟩, run, e⟩ := Option.map_eq_some_iff.mp result
  simp only [Prod.mk.injEq, decide_eq_false_iff_not, decide_eq_true_eq,
    Option.isNone_iff_eq_none] at e
  obtain ⟨type, full, bytes, idle₁, idle₂, off, content⟩ := e
  obtain ⟨-, idle₀, steps⟩ := twoWriters_run run
  exact ⟨ip, s₀, s, labels, twoWriters_openAt (.inr rfl) run type, idle₀,
    steps.mono fun h => h.2, Bool.forall_bool.mpr ⟨idle₂, idle₁⟩, full, bytes, off, content⟩

end Xv6Gui
