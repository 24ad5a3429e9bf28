import Xv6Gui.Gui.Redraw
import Xv6Gui.Mouse.QueueSteps

/-!
# Entries that a redraw or a key follows

`updateBackWindows`, `updateLastWindow` and `keyboardHandler` follow two pointers of an entry:
`proc` in `switchuvm`, and `window`.  The traces here list them in the order of the source.  The
null check of `drawBackWindows` and `drawLastWindow` covers the drawing of a window, not the
stores to `last_leftTopX` and `last_leftTopY` behind it.

When the queue is empty, `lastWindow` is the sentinel, and the loop of `drawBackWindows` runs
into the null link behind it.  Address 0 is user memory, so the machine itself does not stop at
a window there.
-/

namespace Xv6Gui

open Linked Runs

/-- A pointer that is followed: of an entry, or of a null `WindowQueue *`. -/
inductive Access where
  | proc (p : Option Node)
  | window (p : Option Node)

namespace Queue

/-- The pointer is not null. -/
def Valid (s : Queue) : Access → Prop
  | .proc p => ∃ n, p = some n ∧ (s.entry n).proc ≠ none
  | .window p => ∃ n, p = some n ∧ (s.entry n).window ≠ 0

/-- `switchuvm(p->proc)` and what is under the null check of `p->window`. -/
def entryAccesses (s : Queue) (p : Node) : List Access :=
  .proc (some p) :: if (s.entry p).window ≠ 0 then [.window (some p)] else []

/-- The loop of `drawBackWindows` from the node `p`.  With a null link it goes on to read
`proc` of a null entry.  `none` is a loop that does not end. -/
def backAccesses (s : Queue) : Nat → Node → Option (List Access)
  | 0, _ => none
  | fuel + 1, p =>
    if s.next p = some s.lastWindow then
      some []
    else
      match s.next p with
      | none => some [.proc none]
      | some p => (s.backAccesses fuel p).map (s.entryAccesses p ++ ·)

/-- `removeLastWindow`. -/
def removeLastAccesses (s : Queue) : List Access :=
  [.proc (some s.lastWindow), .window (some s.lastWindow)]

/-- `drawLastWindow`. -/
def drawLastAccesses (s : Queue) : List Access :=
  s.entryAccesses s.lastWindow ++ [.window (some s.lastWindow)]

/-- `updateBackWindows`. -/
def updateBackAccesses (s : Queue) : Option (List Access) :=
  (s.backAccesses queueFuel .windowQueue).map (· ++ s.drawLastAccesses)

/-- `updateLastWindow`. -/
def updateLastAccesses (s : Queue) : List Access := s.removeLastAccesses ++ s.drawLastAccesses

/-- `keyboardHandler`.  A text box that is edited is drawn again. -/
def keyAccesses (s : Queue) (redraws : Bool) : List Access :=
  [.proc (some s.lastWindow), .window (some s.lastWindow)] ++
    if redraws then s.updateLastAccesses else []

/-- The function ends, and follows no null pointer. -/
def Safe (s : Queue) (accesses : Option (List Access)) : Prop :=
  ∃ l, accesses = some l ∧ ∀ a ∈ l, s.Valid a

/-- There is a last window, and its address is not null. -/
def HasLastWindow (s : Queue) : Prop :=
  s.lastWindow ≠ .windowQueue ∧ (s.entry s.lastWindow).window ≠ 0

variable {s : Queue} {l : List Slot}

/-! ## Traces -/

/-- The loop of `drawBackWindows` visits the entries in front of the last one. -/
theorem backAccesses_eq : ∀ {fuel : Nat} {p : Node} {l : List Node},
    Chain s.next p (l ++ [s.lastWindow]) → s.lastWindow ∉ l → l.length < fuel →
      s.backAccesses fuel p = some (l.flatMap s.entryAccesses)
  | 0, _, _, _, _, room => absurd room (Nat.not_lt_zero _)
  | fuel + 1, p, [], chain, _, _ => by
    rw [backAccesses, if_pos chain.1]
    rfl
  | fuel + 1, p, b :: l, chain, last, room => by
    have ne : b ≠ s.lastWindow := fun e => last (by simp [e])
    have rest := backAccesses_eq chain.2 (fun mem => last (by simp [mem]))
      (Nat.lt_of_succ_lt_succ room)
    rw [backAccesses, chain.1, if_neg (by simpa using ne)]
    simp [rest]

/-- A queue with a last window. -/
theorem Windows.split_last (h : s.Windows l) (ne : l ≠ []) :
    ∃ l' i, l = l' ++ [i] ∧ s.lastWindow = .windowLine i ∧ i ∉ l' := by
  obtain ⟨l', i, rfl⟩ := (List.eq_nil_or_concat' l).resolve_left ne
  refine ⟨l', i, rfl, ?_, ?_⟩
  · rw [h.last, List.map_append, List.map_singleton, List.getLastD_concat]
  · intro mem
    exact (List.nodup_append.mp h.nodup).2.2 i mem i (by simp) rfl

/-- The way from the sentinel to the last window. -/
theorem Windows.to_last (h : s.Windows l) (ne : l ≠ []) :
    ∃ l' : List Slot, Chain s.next .windowQueue (l'.map .windowLine ++ [s.lastWindow]) ∧
      s.lastWindow ∉ l'.map Node.windowLine ∧ (l'.map Node.windowLine).length < queueFuel ∧
      ∀ i ∈ l', i ∈ l := by
  obtain ⟨l', i, rfl, tail, fresh⟩ := h.split_last ne
  have links := h.links.chain
  rw [List.map_append, List.map_singleton, ← tail] at links
  refine ⟨l', links, by simpa [tail] using fresh, ?_, fun j hj => by simp [hj]⟩
  have := h.length_le
  simp only [List.length_append, List.length_map, List.length_singleton, queueFuel] at this ⊢
  omega

theorem entryAccesses_valid {i : Slot} (h : s.Windows l) (mem : i ∈ l) :
    ∀ a ∈ s.entryAccesses (.windowLine i), s.Valid a := by
  intro a ha
  rw [entryAccesses] at ha
  rcases List.mem_cons.mp ha with rfl | ha
  · exact ⟨_, rfl, h.proc_ne_none mem⟩
  · split at ha
    · rename_i window
      obtain rfl := List.mem_singleton.mp ha
      exact ⟨_, rfl, window⟩
    · cases ha

/-- The two pointers that every one of the functions follows. -/
theorem Windows.last_valid (h : s.Windows l) :
    (s.Valid (.proc (some s.lastWindow)) ∧ s.Valid (.window (some s.lastWindow))) ↔
      s.HasLastWindow := by
  simp only [Valid, Option.some.injEq, exists_eq_left', HasLastWindow]
  refine and_congr_left fun _ => Iff.trans ?_ h.last_eq_sentinel_iff.not.symm
  constructor
  · rintro proc rfl
    have last : s.lastWindow = .windowQueue := h.last_eq_sentinel_iff.mpr rfl
    rw [last] at proc
    exact proc h.sentinel
  · intro ne
    obtain ⟨l', i, rfl, last, -⟩ := h.split_last ne
    rw [last]
    exact h.proc_ne_none (by simp)

theorem Windows.drawLast_valid (h : s.Windows l) (last : s.HasLastWindow) :
    ∀ a ∈ s.drawLastAccesses, s.Valid a := by
  obtain ⟨proc, window⟩ := h.last_valid.mpr last
  intro a ha
  simp only [drawLastAccesses, entryAccesses, if_pos last.2, List.cons_append, List.nil_append,
    List.mem_cons, List.not_mem_nil, or_false] at ha
  rcases ha with rfl | rfl | rfl
  · exact proc
  · exact window
  · exact window

theorem Windows.updateBack_safe (h : s.Windows l) :
    s.Safe s.updateBackAccesses ↔ s.HasLastWindow := by
  constructor
  · rintro ⟨accesses, trace, valid⟩
    obtain ⟨back, -, rfl⟩ := Option.map_eq_some_iff.mp trace
    refine h.last_valid.mp ⟨valid _ ?_, valid _ ?_⟩ <;> simp [drawLastAccesses, entryAccesses]
  · intro last
    have ne : l ≠ [] := fun e => last.1 (h.last_eq_sentinel_iff.mpr e)
    obtain ⟨l', links, fresh, room, mem⟩ := h.to_last ne
    refine ⟨_, by rw [updateBackAccesses, backAccesses_eq links fresh room]; rfl, ?_⟩
    intro a ha
    rcases List.mem_append.mp ha with ha | ha
    · obtain ⟨n, hn, ha⟩ := List.mem_flatMap.mp ha
      obtain ⟨j, hj, rfl⟩ := List.mem_map.mp hn
      exact entryAccesses_valid h (mem j hj) a ha
    · exact h.drawLast_valid last a ha

theorem Windows.updateLast_safe (h : s.Windows l) :
    s.Safe (some s.updateLastAccesses) ↔ s.HasLastWindow := by
  constructor
  · rintro ⟨accesses, trace, valid⟩
    cases trace
    refine h.last_valid.mp ⟨valid _ ?_, valid _ ?_⟩ <;> simp [updateLastAccesses, removeLastAccesses]
  · intro last
    obtain ⟨proc, window⟩ := h.last_valid.mpr last
    refine ⟨_, rfl, ?_⟩
    intro a ha
    simp only [updateLastAccesses, removeLastAccesses, List.cons_append, List.nil_append,
      List.mem_cons] at ha
    rcases ha with rfl | rfl | ha
    · exact proc
    · exact window
    · exact h.drawLast_valid last a ha

theorem Windows.key_safe (h : s.Windows l) (redraws : Bool) :
    s.Safe (some (s.keyAccesses redraws)) ↔ s.HasLastWindow := by
  constructor
  · rintro ⟨accesses, trace, valid⟩
    cases trace
    refine h.last_valid.mp ⟨valid _ ?_, valid _ ?_⟩ <;> simp [keyAccesses]
  · intro last
    obtain ⟨proc, window⟩ := h.last_valid.mpr last
    obtain ⟨_, trace, updateLast⟩ := h.updateLast_safe.mpr last
    cases trace
    refine ⟨_, rfl, ?_⟩
    intro a ha
    simp only [keyAccesses, List.cons_append, List.nil_append, List.mem_cons] at ha
    rcases ha with rfl | rfl | ha
    · exact proc
    · exact window
    · cases redraws with
      | true => exact updateLast a ha
      | false => cases ha

end Queue

/-! ## The machine -/

namespace Gui

/-- The first text box, and its index. -/
def textBoxOf (w : Window) : Option (Int × TextBox) :=
  (Int.range 0 w.widgetsNum).findSome? fun k =>
    match w.widgets k with
    | .textBox b => some (k, b)
    | _ => none

/-- `keyboardHandler`.  `edit` is what `insertCharacter`, `deleteCharacter` or `moveCursor` does
to the text box for the key, and whether it draws the window again. -/
def keyboardHandler (s : Gui) (edit : TextBox → TextBox × Bool) : Option Gui := do
  let s ← s.switchuvm s.lastEntry.proc
  let w ← s.loadWindow s.lastEntry.window
  match textBoxOf w with
  | none => s.switchBack
  | some (k, b) => do
    let s ← s.storeWidget s.lastEntry.window k (.textBox (edit b).1)
    let s ← if (edit b).2 then s.updateLastWindow else some s
    s.switchBack

variable {s t : Gui} {l : List Slot}

theorem lastEntry_proc (windows : s.queue.Windows l) : s.lastEntry.proc ≠ none ↔ l ≠ [] := by
  constructor
  · rintro proc rfl
    rw [lastEntry, windows.last_eq_sentinel_iff.mpr rfl] at proc
    exact proc windows.sentinel
  · intro ne
    obtain ⟨l', i, rfl, last, -⟩ := windows.split_last ne
    rw [lastEntry, last]
    exact windows.proc_ne_none (by simp)

theorem switchuvm_none : s.switchuvm none = none := by
  simp [switchuvm]

/-- With a current process, `updateLastWindow` returns if the queue is not empty. -/
theorem updateLastWindow_isSome {c : ProcPtr} (windows : s.queue.Windows l)
    (current : s.proc = some c) : s.updateLastWindow.isSome ↔ l ≠ [] := by
  rw [← lastEntry_proc windows]
  cases owner : s.lastEntry.proc with
  | none => simp [updateLastWindow, removeLastWindow, owner, switchuvm_none]
  | some o => simp [updateLastWindow_eq current owner]

/-- The picture of a window. -/
def nodePicture (s : Gui) (focus : Bool) (n : Node) : Picture :=
  ((s.queue.entry n).proc.map fun o => s.entryPicture o (s.queue.entry n).window focus).getD []

/-- The loop of `drawBackWindows` draws the entries in front of the last one. -/
theorem backPicture_eq : ∀ {fuel : Nat} {p : Node} {l : List Node},
    Chain s.queue.next p (l ++ [s.queue.lastWindow]) → s.queue.lastWindow ∉ l →
    (∀ n ∈ l, (s.queue.entry n).proc ≠ none) → l.length < fuel →
      s.backPicture fuel p = some (l.flatMap (s.nodePicture false))
  | 0, _, _, _, _, _, room => absurd room (Nat.not_lt_zero _)
  | fuel + 1, p, [], chain, _, _, _ => by
    rw [backPicture, if_pos chain.1]
    rfl
  | fuel + 1, p, b :: l, chain, last, procs, room => by
    have ne : b ≠ s.queue.lastWindow := fun e => last (by simp [e])
    obtain ⟨o, owner⟩ := Option.ne_none_iff_exists'.mp (procs b (by simp))
    have rest := backPicture_eq chain.2 (fun mem => last (by simp [mem]))
      (fun n hn => procs n (by simp [hn])) (Nat.lt_of_succ_lt_succ room)
    rw [backPicture, chain.1, if_neg (by simpa using ne)]
    simp [owner, rest, nodePicture]

/-- So does `updateBackWindows`. -/
theorem updateBackWindows_isSome {c : ProcPtr} (windows : s.queue.Windows l)
    (current : s.proc = some c) : s.updateBackWindows.isSome ↔ l ≠ [] := by
  constructor
  · rintro returns rfl
    obtain ⟨t, h⟩ := Option.isSome_iff_exists.mp returns
    obtain ⟨-, back, others⟩ := updateBackWindows_defined h
    have next : s.queue.next .windowQueue = none := windows.links.chain
    rw [Gui.others, Queue.queueFuel, backPicture, next, if_neg (by simp)] at others
    cases others
  · intro ne
    obtain ⟨o, owner⟩ := Option.ne_none_iff_exists'.mp ((lastEntry_proc windows).mpr ne)
    obtain ⟨l', links, fresh, room, mem⟩ := windows.to_last ne
    have procs : ∀ n ∈ l'.map Node.windowLine, (s.queue.entry n).proc ≠ none := by
      intro n hn
      obtain ⟨j, hj, rfl⟩ := List.mem_map.mp hn
      exact windows.proc_ne_none (mem j hj)
    simp [updateBackWindows_eq current owner (backPicture_eq links fresh procs room)]

/-- So does `keyboardHandler`. -/
theorem keyboardHandler_isSome {c : ProcPtr} (windows : s.queue.Windows l)
    (current : s.proc = some c) (edit : TextBox → TextBox × Bool) :
    (s.keyboardHandler edit).isSome ↔ l ≠ [] := by
  rw [← lastEntry_proc windows]
  cases owner : s.lastEntry.proc with
  | none => simp [keyboardHandler, owner, switchuvm_none]
  | some o =>
    have ne : l ≠ [] := (lastEntry_proc windows).mp (by simp [owner])
    simp only [keyboardHandler, owner, switchuvm_some current, Option.bind_eq_bind,
      Option.bind_some, loadWindow, Option.map_some, ne_eq, reduceCtorEq, not_false_eq_true,
      iff_true]
    cases textBoxOf _ with
    | none => simp [switchBack_some (s := { s with loaded := some o }) current]
    | some box =>
      simp only [storeWidget, loadWindow, storeWindow, Option.bind_eq_bind, Option.map_some,
        Option.bind_some]
      generalize Function.update s.window o _ = window
      split
      · obtain ⟨t, drawn⟩ := Option.isSome_iff_exists.mp ((updateLastWindow_isSome
          (s := { s with loaded := some o, window := window }) windows current).mpr ne)
        have proc : t.proc = some c := by
          obtain ⟨u, redrawn, rfl⟩ := updateLastWindow_eq_some drawn
          exact redrawn.proc.trans current
        simp [drawn, switchBack_some proc]
      · simp [switchBack_some (s := { s with loaded := some o, window := window }) current]

end Gui

/-- Every queue that any calls lead to is a list of slots behind a sentinel without a process. -/
theorem Queue.Step.windows {s t : Queue} {call : Queue.Call × Int} (h : ∃ l, s.Windows l)
    (step : Queue.Step s call t) : ∃ l, t.Windows l := by
  obtain ⟨l, windows⟩ := h
  cases step with
  | createWindow call =>
    obtain ⟨-, rfl⟩ | ⟨w, i, -, -, -, windows', -⟩ := windows.sysCreateWindow call
    · exact ⟨l, windows⟩
    · exact ⟨_, windows'⟩
  | deleteWindow call =>
    obtain ⟨-, rfl, -⟩ | ⟨i, -, -, -, windows', -⟩ := windows.sysDeleteWindow call
    · exact ⟨l, windows⟩
    · exact ⟨_, windows'⟩
  | reorderQueue queued last call =>
    exact ⟨_, (windows.reorderQueue (windows.onQueue_iff.mp queued) last call).1⟩

theorem Queue.windows_of_run {calls : List (Queue.Call × Int)} {s : Queue}
    (run : Steps Queue.Step Queue.initWindow calls s) : ∃ l, s.Windows l :=
  run.invariant (I := fun s => ∃ l, s.Windows l) ⟨[], Queue.initWindow_windows⟩
    fun h step => step.windows h

/-- After any calls from `initWindow`, each of the three functions ends and follows no null
pointer of an entry if and only if the queue is not empty and the address of the last window is
not null.  On the machine, with a current process, each of them returns if and only if the queue
is not empty. -/
theorem redraw_safe_iff {calls : List (Queue.Call × Int)} {s : Queue}
    (run : Steps Queue.Step Queue.initWindow calls s) :
    (s.Safe s.updateBackAccesses ↔ s.HasLastWindow) ∧
    (s.Safe (some s.updateLastAccesses) ↔ s.HasLastWindow) ∧
    (∀ redraws, s.Safe (some (s.keyAccesses redraws)) ↔ s.HasLastWindow) ∧
    ∀ (g : Gui) (c : ProcPtr), g.queue = s → g.proc = some c →
      (g.updateBackWindows.isSome ↔ s.lastWindow ≠ .windowQueue) ∧
      (g.updateLastWindow.isSome ↔ s.lastWindow ≠ .windowQueue) ∧
      ∀ edit, (g.keyboardHandler edit).isSome ↔ s.lastWindow ≠ .windowQueue := by
  obtain ⟨l, windows⟩ := Queue.windows_of_run run
  refine ⟨windows.updateBack_safe, windows.updateLast_safe, windows.key_safe, ?_⟩
  rintro g c rfl current
  rw [Ne, windows.last_eq_sentinel_iff]
  exact ⟨Gui.updateBackWindows_isSome windows current, Gui.updateLastWindow_isSome windows current,
    Gui.keyboardHandler_isSome windows current⟩

/-- A window is created. -/
theorem redraw_safe_iff_created :
    ∃ s, Steps Queue.Step Queue.initWindow [(.createWindow 1 (some 4096), 0)] s ∧
      s.Safe s.updateBackAccesses := by
  have created : ∃ s, Queue.initWindow.sysCreateWindow 1 (some 4096) = some (0, s) ∧
      s.lastWindow = .windowLine 0 ∧ (s.entry s.lastWindow).window = 4096 := ⟨_, rfl, rfl, rfl⟩
  obtain ⟨s, call, last, window⟩ := created
  have run : Steps Queue.Step Queue.initWindow [(.createWindow 1 (some 4096), 0)] s :=
    .single (.createWindow call)
  refine ⟨s, run, (redraw_safe_iff run).1.mpr ⟨?_, ?_⟩⟩
  · rw [last]
    simp
  · rw [window]
    decide

/-- The only window is deleted: the redraw that follows reads through a null link.  A window at
the address 0 is created: the redraw stores to it. -/
theorem redraw_unsafe :
    (∃ s, Steps Queue.Step Queue.initWindow
        [(.createWindow 1 (some 4096), 0), (.deleteWindow (some 0), 0)] s ∧
      s.lastWindow = .windowQueue ∧ ¬ s.Safe s.updateBackAccesses ∧
      ∀ g : Gui, g.queue = s → g.updateBackWindows = none) ∧
    ∃ s, Steps Queue.Step Queue.initWindow [(.createWindow 1 (some 0), 0)] s ∧
      s.lastWindow = .windowLine 0 ∧ ¬ s.Safe s.updateBackAccesses := by
  constructor
  · have deleted : ∃ s t, Queue.initWindow.sysCreateWindow 1 (some 4096) = some (0, s) ∧
        s.sysDeleteWindow (some 0) = some (0, t) ∧ t.lastWindow = .windowQueue ∧
        t.next .windowQueue = none := ⟨_, _, rfl, rfl, rfl, rfl⟩
    obtain ⟨s, t, create, delete, last, next⟩ := deleted
    have run : Steps Queue.Step Queue.initWindow _ t :=
      .snoc (.single (.createWindow create)) (.deleteWindow delete)
    obtain ⟨l, windows⟩ := Queue.windows_of_run run
    refine ⟨t, run, last, fun safe => (windows.updateBack_safe.mp safe).1 last, ?_⟩
    rintro g rfl
    have loop : ∀ s : Gui, s.queue = g.queue → s.drawBackFrom Queue.queueFuel .windowQueue = none := by
      intro s queue
      rw [Queue.queueFuel, Gui.drawBackFrom, queue, next, if_neg (by simp)]
      rfl
    simp [Gui.updateBackWindows, Gui.drawBackWindows, loop]
  · have created : ∃ s, Queue.initWindow.sysCreateWindow 1 (some 0) = some (0, s) ∧
        s.lastWindow = .windowLine 0 ∧ (s.entry s.lastWindow).window = 0 := ⟨_, rfl, rfl, rfl⟩
    obtain ⟨s, create, last, window⟩ := created
    have run : Steps Queue.Step Queue.initWindow [(.createWindow 1 (some 0), 0)] s :=
      .single (.createWindow create)
    obtain ⟨l, windows⟩ := Queue.windows_of_run run
    exact ⟨s, run, last, fun safe => (windows.updateBack_safe.mp safe).2 window⟩

end Xv6Gui
