import Xv6Gui.Mouse.Packets

/-!
# The window of a drag

`handleMouseDrag` keeps the entry it drags in the static pointer `pwque` from one packet to the
next.  The start of a drag makes the entry the last window, or it is in the first slot.  Between
two packets a window may be created, the dragged one deleted, and another one raised by a click.
The pointer is not updated then.

A drag ends with a packet without an event.  A packet that raises an event of its own (the
right button, a double click) leaves `drag_state` as it is.
-/

namespace Xv6Gui

open Runs

namespace Mouse

variable {s t : Mouse}

/-! ## What a packet does -/

/-- Decoding a packet leaves the drag alone. -/
theorem packetEvent_drag (s : Mouse) (tick : UInt32) (ch : UInt8) :
    (s.packetEvent tick ch).1.dragState = s.dragState ∧
      (s.packetEvent tick ch).1.pwque = s.pwque := by
  obtain ⟨l, px, py, r, last, frame⟩ := (s.readY ch).decodeEvent_frame tick
    (s.gui.mouseInfo.xPosition + s.disX) (s.gui.mouseInfo.yPosition + -movement ch s.ySign)
  have state := congrArg Mouse.dragState frame
  have pwque := congrArg Mouse.pwque frame
  exact ⟨state, pwque⟩

/-- The click raises a window. -/
def ClickRaises (s : Mouse) (event : Int) : Prop :=
  event = leftClick ∧ s.gui.Raises s.gui.clicked

/-- A drag starts at the entry `q`, and the queue becomes `t`. -/
def Starts (s : Mouse) (q : Node) (t : Queue) : Prop :=
  s.dragged = some q ∧ (((q = s.gui.queue.lastWindow ∨ q = .windowLine 0) ∧ t = s.gui.queue) ∨
    q ≠ s.gui.queue.lastWindow ∧ s.gui.queue.reorderQueue q = some t)

/-- The handlers either leave the queue and the drag, or end the drag, or start one, or raise
the window under the pointer. -/
inductive Handled (s : Mouse) (event : Int) (t : Mouse) : Prop where
  | quiet : ¬ s.ClickRaises event → t.gui.queue = s.gui.queue → t.dragState = s.dragState →
      t.pwque = s.pwque → Handled s event t
  | none : ¬ s.ClickRaises event → t.gui.queue = s.gui.queue → t.dragState ≠ 1 → Handled s event t
  | start {q : Node} : ¬ s.ClickRaises event → s.dragState = 0 → t.dragState = 1 →
      t.pwque = some q → s.Starts q t.gui.queue → Handled s event t
  | raise {q : Node} : s.ClickRaises event → s.gui.clicked = some q →
      q ≠ s.gui.queue.lastWindow → s.gui.queue.reorderQueue q = some t.gui.queue →
      t.dragState = s.dragState → t.pwque = s.pwque → Handled s event t

theorem dispatch_handled {event : Int} (h : s.dispatch event = some t) : Handled s event t := by
  have click : event ≠ leftClick → ¬ s.ClickRaises event := fun other c => other c.1
  cases dispatch_cases h with
  | left clicked =>
    obtain ⟨-, ⟨lower, queue⟩ | ⟨q, hit, last, first, raised⟩⟩ := Gui.handleLeftClick_framed clicked
    · exact .quiet (fun c => lower c.2) queue rfl rfl
    · exact .raise ⟨rfl, q, hit, last, first⟩ hit last raised rfl rfl
  | double clicked =>
    exact .quiet (click (by decide)) (Gui.handleLeftDoubleClick_kept clicked).queue rfl rfl
  | drag drags back =>
    have click := click (by decide)
    have queue := (Gui.switchBack_kept back).queue
    cases drags with
    | start zero dragged =>
      obtain ⟨-, pwque, ⟨-, state, same⟩ | ⟨q, hit, state, change⟩⟩ := startDrag_framed dragged
      · exact .none click (queue.trans same) (by rw [state]; decide)
      · refine .start click zero state (pwque.trans hit) ⟨hit, ?_⟩
        rw [queue]
        exact change
    | move _ _ switched moved =>
      obtain ⟨p, -, kept⟩ := Gui.moveWindow_kept moved
      exact .quiet click (queue.trans (kept.queue.trans (Gui.switchuvm_kept switched).queue)) rfl rfl
    | idle => exact .quiet click queue rfl rfl
  | right clicked =>
    exact .quiet (click (by decide)) (Gui.handleRightClick_kept clicked).queue rfl rfl
  | settle _ settled =>
    exact .none (click (by decide)) (Gui.updateLastWindow_kept settled).queue (by simp)
  | release => exact .none (click (by decide)) rfl (by simp)
  | other left => exact .quiet (click left) rfl rfl rfl

/-- A byte completes a packet, which is handled, or it leaves the queue and the drag. -/
theorem mouseint_cases {tick : UInt32} {status ch : UInt8} (h : s.mouseint tick status ch = some t) :
    (¬ s.Completes status ∧ t.gui.queue = s.gui.queue ∧ t.dragState = s.dragState ∧
      t.pwque = s.pwque) ∨
    (s.Completes status ∧ ∃ u, Handled (s.packetEvent tick ch).1 (s.packetEvent tick ch).2 u ∧
      t.gui.queue = u.gui.queue ∧ t.dragState = u.dragState ∧ t.pwque = u.pwque) := by
  obtain ⟨early, toRead, l, r, xs, ys, dx, same⟩ | ⟨third, same⟩ := s.mouseint_packet tick status ch
  · obtain rfl := Option.some.inj (same.symm.trans h)
    exact .inl ⟨early, rfl, rfl, rfl⟩
  · rw [same] at h
    obtain ⟨u, handled, rfl⟩ := Option.map_eq_some_iff.mp h
    exact .inr ⟨third, u, dispatch_handled handled, rfl, rfl, rfl⟩

end Mouse

/-! ## The dragged entry -/

/-- The entry of the drag is in the queue, with the process and the window it had at the start,
and it is the last window or in the first slot. -/
def Queue.Fresh (q : Queue) (pwque : Option Node) (began : Option ProcPtr × Int) : Prop :=
  ∃ i, pwque = some (.windowLine i) ∧ q.OnQueue (.windowLine i) ∧
    q.owner (.windowLine i) = began ∧ (.windowLine i = q.lastWindow ∨ i = 0)

namespace Queue

variable {s t : Queue} {l : List Slot} {pwque : Option Node} {began : Option ProcPtr × Int}

theorem Windows.last_concat {i : Slot} (h : s.Windows (l ++ [i])) : s.lastWindow = .windowLine i := by
  rw [h.last, List.map_append, List.map_singleton, List.getLastD_concat]

/-- A new last window is another one. -/
theorem Fresh.create {proc : ProcPtr} {arg : Option Int} {r : Int} (h : s.Fresh pwque began)
    (windows : s.Windows l) (call : s.sysCreateWindow proc arg = some (r, t)) :
    t.Fresh pwque began ↔
      arg = none ∨ s.acquireWindow = none ∨ pwque = some (.windowLine 0) := by
  obtain ⟨i, rfl, queued, owner, place⟩ := h
  have failed : arg = none ∨ s.acquireWindow = none → t = s := by
    rintro (rfl | full)
    · cases call
      rfl
    · cases arg with
      | none =>
        cases call
        rfl
      | some w =>
        rw [Queue.sysCreateWindow, full] at call
        cases call
        rfl
  obtain ⟨rfl, rfl⟩ | ⟨w, j, rfl, rfl, fresh, windows', owner'⟩ := windows.sysCreateWindow call
  · refine ⟨fun _ => ?_, fun _ => ⟨i, rfl, queued, owner, place⟩⟩
    cases arg with
    | none => exact .inl rfl
    | some w =>
      cases slot : t.acquireWindow with
      | none => exact .inr (.inl rfl)
      | some j =>
        rw [Queue.sysCreateWindow, slot] at call
        obtain ⟨q, _, e⟩ := Runs.bind_some.mp call
        cases e
  · have mem := windows.onQueue_iff.mp queued
    have other : i ≠ j := fun e => fresh (e ▸ mem)
    have owner'' : t.owner (.windowLine i) = began := by
      rw [owner', Function.update_of_ne (by simpa using other), owner]
    constructor
    · rintro ⟨i', e, -, -, place'⟩
      cases e
      rw [windows'.last_concat] at place'
      obtain last | rfl := place'
      · cases last
        exact absurd rfl other
      · exact .inr (.inr rfl)
    · rintro (none | full | first)
      · cases none
      · have same := failed (.inr full)
        exact same ▸ ⟨i, rfl, queued, owner, place⟩
      · cases first
        exact ⟨0, rfl, windows'.onQueue_iff.mpr (List.mem_append_left _ mem), owner'', .inr rfl⟩

/-- The handle of a deleted window is not the one of the drag. -/
theorem Fresh.delete {arg : Option Int} {r : Int} (h : s.Fresh pwque began)
    (windows : s.Windows l) (call : s.sysDeleteWindow arg = some (r, t)) :
    t.Fresh pwque began ↔ (arg.bind windowLineAt).map .windowLine ≠ pwque := by
  obtain ⟨i, rfl, queued, owner, place⟩ := h
  have mem := windows.onQueue_iff.mp queued
  have handle : (arg.bind windowLineAt).map Node.windowLine = some (.windowLine i) ↔
      arg = some ((i : Nat) : Int) := by
    cases arg with
    | none => simp
    | some w => simp [Option.map_eq_some_iff, windowLineAt_eq_some]
  rw [Ne, handle]
  obtain ⟨-, rfl, missing⟩ | ⟨j, hj, rfl, -, windows', owner'⟩ := windows.sysDeleteWindow call
  · exact ⟨fun _ => missing i mem, fun _ => ⟨i, rfl, queued, owner, place⟩⟩
  constructor
  · rintro ⟨i', e, queued', -⟩ same
    cases e
    obtain rfl : j = i := Fin.ext (Int.ofNat.inj (Option.some.inj same))
    exact (windows.nodup.mem_erase_iff.mp (windows'.onQueue_iff.mp queued')).1 rfl
  · intro ne
    have other : i ≠ j := fun e => ne (e ▸ rfl)
    refine ⟨i, rfl, windows'.onQueue_iff.mpr ((List.mem_erase_of_ne other).mpr mem), ?_, ?_⟩
    · rw [owner', Function.update_of_ne (by simpa using other), owner]
    · refine place.imp_left fun last => ?_
      obtain ⟨l', k, rfl⟩ := (List.eq_nil_or_concat' l).resolve_left (List.ne_nil_of_mem mem)
      rw [windows.last_concat] at last
      cases last
      have tail : (l' ++ [i]).erase j = l'.erase j ++ [i] := by
        by_cases hj' : j ∈ l'
        · exact List.erase_append_left _ hj'
        · rcases List.mem_append.mp hj with hj | hj
          · exact absurd hj hj'
          · exact absurd (List.mem_singleton.mp hj).symm other
      rw [tail] at windows'
      exact windows'.last_concat.symm

/-- A raised window is the last one. -/
theorem Fresh.raise {q : Node} (h : s.Fresh pwque began) (windows : s.Windows l)
    (slot : ∃ j ∈ l, q = .windowLine j) (other : q ≠ s.lastWindow)
    (call : s.reorderQueue q = some t) :
    t.Fresh pwque began ↔ pwque = some (.windowLine 0) := by
  obtain ⟨j, hj, rfl⟩ := slot
  obtain ⟨i, rfl, queued, owner, place⟩ := h
  obtain ⟨windows', owner'⟩ := windows.reorderQueue hj other call
  have mem := windows.onQueue_iff.mp queued
  constructor
  · rintro ⟨i', e, -, -, place'⟩
    cases e
    rw [windows'.last_concat] at place'
    obtain last | rfl := place'
    · obtain last' | rfl := place
      · exact absurd (last.symm.trans last') other
      · rfl
    · rfl
  · intro first
    cases first
    refine ⟨0, rfl, windows'.onQueue_iff.mpr ?_, by rw [owner', owner], .inr rfl⟩
    by_cases e : j = 0
    · simp [e]
    · exact List.mem_append_left _ ((List.mem_erase_of_ne (Ne.symm e)).mpr mem)

end Queue

/-- The entry at which a drag starts. -/
theorem Mouse.Starts.fresh {s : Mouse} {q : Node} {t : Queue} {l : List Slot}
    (h : s.Starts q t) (windows : s.gui.queue.Windows l) :
    (∃ l', t.Windows l') ∧ t.Fresh (some q) (t.owner q) := by
  obtain ⟨hit, change⟩ := h
  obtain ⟨i, mem, rfl⟩ := Mouse.dragged_slot windows hit
  obtain ⟨place, rfl⟩ | ⟨last, raised⟩ := change
  · exact ⟨⟨l, windows⟩, i, rfl, windows.onQueue_iff.mpr mem, rfl, place.imp_right (by simp)⟩
  · obtain ⟨windows', -⟩ := windows.reorderQueue mem last raised
    exact ⟨⟨_, windows'⟩, i, rfl, windows'.onQueue_iff.mpr (by simp), rfl,
      .inl windows'.last_concat.symm⟩

namespace Mouse

variable {s t : Mouse}

/-- The handlers keep the queue a list of windows. -/
theorem Handled.windows {event : Int} {l : List Slot} (h : Handled s event t)
    (windows : s.gui.queue.Windows l) : ∃ l, t.gui.queue.Windows l := by
  cases h with
  | quiet _ same | none _ same => exact ⟨l, same ▸ windows⟩
  | start _ _ _ _ starts => exact (starts.fresh windows).1
  | raise _ hit last raised =>
    obtain ⟨j, hj, rfl⟩ := Gui.clicked_slot windows hit
    exact ⟨_, (windows.reorderQueue hj last raised).1⟩

/-- So does every event. -/
theorem DeskStep.windows {e : DeskEvent} (step : s.DeskStep e t)
    (h : ∃ l, s.gui.queue.Windows l) : ∃ l, t.gui.queue.Windows l := by
  obtain ⟨l, windows⟩ := h
  obtain ⟨called, step⟩ := step
  cases e with
  | mouseint tick status ch =>
    obtain ⟨-, queue, -⟩ | ⟨-, u, handled, queue, -⟩ := mouseint_cases step
    · exact ⟨l, queue ▸ windows⟩
    · rw [queue]
      refine handled.windows (l := l) ?_
      rw [packetEvent_gui]
      exact windows
  | createWindow arg =>
    obtain ⟨⟨r, g⟩, call, rfl⟩ := Option.map_eq_some_iff.mp step
    obtain ⟨-, p, -, created⟩ := Gui.sysCreateWindow_framed windows call
    obtain ⟨-, same⟩ | ⟨w, i, -, -, -, windows', -⟩ := windows.sysCreateWindow created
    · exact ⟨l, same ▸ windows⟩
    · exact ⟨_, windows'⟩
  | deleteWindow arg =>
    obtain ⟨⟨r, g⟩, call, rfl⟩ := Option.map_eq_some_iff.mp step
    obtain ⟨-, deleted⟩ := Gui.sysDeleteWindow_framed windows call
    obtain ⟨-, same, -⟩ | ⟨i, -, -, -, windows', -⟩ := windows.sysDeleteWindow deleted
    · exact ⟨l, same ▸ windows⟩
    · exact ⟨_, windows'⟩
  | reorderQueue q =>
    obtain ⟨g, call, rfl⟩ := Option.map_eq_some_iff.mp step
    obtain ⟨-, raised⟩ := Gui.reorderQueue_framed call
    exact ⟨_, (windows.reorderQueue (windows.onQueue_iff.mp called.1) called.2 raised).1⟩
  | schedule p | user window icon =>
    cases step
    exact ⟨l, windows⟩

end Mouse

/-! ## Runs -/

/-- The machine, with the process and the window of the dragged entry at the start of the
drag. -/
structure Drag where
  mouse : Mouse
  began : Option ProcPtr × Int

namespace Drag

variable {e : DeskEvent}

/-- An event.  With the start of a drag the entry is noted. -/
def next (s : Drag) (e : DeskEvent) : Option Drag :=
  (s.mouse.next e).map fun m =>
    ⟨m, if m.dragState = 1 ∧ s.mouse.dragState ≠ 1 then (m.pwque.map m.gui.queue.owner).getD (none, 0)
      else s.began⟩

/-- One step. -/
def Step (s : Drag) (e : DeskEvent) (t : Drag) : Prop := s.mouse.Called e ∧ s.next e = some t

/-- A drag that is going on has its entry. -/
def Fresh (s : Drag) : Prop :=
  s.mouse.dragState = 1 → s.mouse.gui.queue.Fresh s.mouse.pwque s.began

/-- During a drag, no window is created and no other one raised, unless the dragged entry is in
the first slot, and the dragged window is not deleted. -/
def Keeps (s : Drag) : DeskEvent → Prop
  | .mouseint tick status ch =>
    s.mouse.dragState = 1 → s.mouse.Completes status →
      (s.mouse.packetEvent tick ch).1.ClickRaises (s.mouse.packetEvent tick ch).2 →
      s.mouse.pwque = some (.windowLine 0)
  | .createWindow arg =>
    s.mouse.dragState = 1 → arg = none ∨ s.mouse.gui.queue.acquireWindow = none ∨
      s.mouse.pwque = some (.windowLine 0)
  | .deleteWindow arg =>
    s.mouse.dragState = 1 → (arg.bind Queue.windowLineAt).map .windowLine ≠ s.mouse.pwque
  | .reorderQueue _ => s.mouse.dragState = 1 → s.mouse.pwque = some (.windowLine 0)
  | _ => True

variable {s t : Drag}

theorem next_eq_some (h : s.next e = some t) :
    s.mouse.next e = some t.mouse ∧
      t.began = if t.mouse.dragState = 1 ∧ s.mouse.dragState ≠ 1 then
        (t.mouse.pwque.map t.mouse.gui.queue.owner).getD (none, 0) else s.began := by
  obtain ⟨m, step, rfl⟩ := Option.map_eq_some_iff.mp h
  exact ⟨step, rfl⟩

/-- Without a change of the drag its entry is to be looked for in the new queue. -/
theorem fresh_of_same (h : s.next e = some t)
    (state : t.mouse.dragState = s.mouse.dragState) (pwque : t.mouse.pwque = s.mouse.pwque) :
    t.Fresh ↔ (s.mouse.dragState = 1 → t.mouse.gui.queue.Fresh s.mouse.pwque s.began) := by
  have began : t.began = s.began := by
    rw [(next_eq_some h).2, if_neg (by rw [state]; exact fun c => c.2 c.1)]
  rw [Fresh, state, pwque, began]

theorem fresh_of_handled {m u : Mouse} {event : Int} {l : List Slot}
    (h : s.next e = some t) (windows : s.mouse.gui.queue.Windows l) (fresh : s.Fresh)
    (queue : m.gui.queue = s.mouse.gui.queue) (state : m.dragState = s.mouse.dragState)
    (pwque : m.pwque = s.mouse.pwque) (handled : Mouse.Handled m event u)
    (queue' : t.mouse.gui.queue = u.gui.queue) (state' : t.mouse.dragState = u.dragState)
    (pwque' : t.mouse.pwque = u.pwque) :
    t.Fresh ↔
      (s.mouse.dragState = 1 → m.ClickRaises event → s.mouse.pwque = some (.windowLine 0)) := by
  cases handled with
  | quiet click hq hs hp =>
    rw [hq, queue] at queue'
    rw [fresh_of_same h (state'.trans (hs.trans state)) (pwque'.trans (hp.trans pwque)), queue']
    exact ⟨fun _ _ c => absurd c click, fun _ => fresh⟩
  | none click hq hs =>
    refine ⟨fun _ _ c => absurd c click, fun _ one => ?_⟩
    exact absurd (state'.symm.trans one) hs
  | @start q click hidle hs hp starts =>
    obtain ⟨-, found⟩ := starts.fresh (queue ▸ windows)
    rw [← queue'] at found
    refine ⟨fun _ _ c => absurd c click, fun _ one => ?_⟩
    have idle : s.mouse.dragState ≠ 1 := by
      rw [← state, hidle]
      decide
    rw [(next_eq_some h).2, if_pos ⟨one, idle⟩, pwque', hp]
    exact found
  | @raise q click hit last raised hs hp =>
    rw [queue, ← queue'] at raised
    rw [queue] at last
    obtain ⟨j, hj, rfl⟩ := Gui.clicked_slot (queue ▸ windows) hit
    rw [fresh_of_same h (state'.trans (hs.trans state)) (pwque'.trans (hp.trans pwque))]
    refine forall_congr' fun one => ?_
    rw [(fresh one).raise windows ⟨j, hj, rfl⟩ last raised]
    exact ⟨fun first _ => first, fun first => first click⟩

/-- One event: the drag has its entry afterwards if and only if the event keeps it. -/
theorem Step.fresh_iff {l : List Slot} (step : s.Step e t)
    (windows : s.mouse.gui.queue.Windows l) (fresh : s.Fresh) : t.Fresh ↔ s.Keeps e := by
  obtain ⟨called, step⟩ := step
  have moved := (next_eq_some step).1
  cases e with
  | mouseint tick status ch =>
    obtain ⟨early, queue, state, pwque⟩ | ⟨third, u, handled, queue, state, pwque⟩ :=
      Mouse.mouseint_cases moved
    · rw [fresh_of_same step state pwque, queue]
      exact ⟨fun _ _ c => absurd c early, fun _ => fresh⟩
    · obtain ⟨hs, hp⟩ := Mouse.packetEvent_drag s.mouse tick ch
      have hq := congrArg Gui.queue (Mouse.packetEvent_gui s.mouse tick ch)
      rw [fresh_of_handled step windows fresh hq hs hp handled queue state pwque]
      exact ⟨fun k one _ => k one, fun k one => k one third⟩
  | createWindow arg =>
    obtain ⟨⟨r, g⟩, call, e⟩ := Option.map_eq_some_iff.mp moved
    obtain ⟨-, p, -, created⟩ := Gui.sysCreateWindow_framed windows call
    have queue : t.mouse.gui.queue = g.queue := by rw [← e]
    rw [fresh_of_same step (by rw [← e]) (by rw [← e]), queue]
    exact forall_congr' fun one => (fresh one).create windows created
  | deleteWindow arg =>
    obtain ⟨⟨r, g⟩, call, e⟩ := Option.map_eq_some_iff.mp moved
    obtain ⟨-, deleted⟩ := Gui.sysDeleteWindow_framed windows call
    have queue : t.mouse.gui.queue = g.queue := by rw [← e]
    rw [fresh_of_same step (by rw [← e]) (by rw [← e]), queue]
    exact forall_congr' fun one => (fresh one).delete windows deleted
  | reorderQueue q =>
    obtain ⟨g, call, e⟩ := Option.map_eq_some_iff.mp moved
    obtain ⟨-, raised⟩ := Gui.reorderQueue_framed call
    have queue : t.mouse.gui.queue = g.queue := by rw [← e]
    have mem := windows.onQueue_iff.mp called.1
    rw [fresh_of_same step (by rw [← e]) (by rw [← e]), queue]
    exact forall_congr' fun one => (fresh one).raise windows ⟨q, mem, rfl⟩ called.2 raised
  | schedule p | user window icon =>
    have e := Option.some.inj moved
    have queue : t.mouse.gui.queue = s.mouse.gui.queue := by rw [← e]
    rw [fresh_of_same step (by rw [← e]) (by rw [← e]), queue]
    exact ⟨fun _ => trivial, fun _ => fresh⟩

theorem Step.desk (step : s.Step e t) : s.mouse.DeskStep e t.mouse :=
  ⟨step.1, (next_eq_some step.2).1⟩

end Drag

/-- From boot on, in every run in which the events during a drag keep its entry, a drag that
goes on has the entry it began with, still in the queue, with the same process and window, and
it is the last window or in the first slot.  An event that does not keep the entry leaves a drag
with a stale one. -/
theorem drag_keeps_window {s₀ s : Drag} {es : List DeskEvent} (boot : s₀.mouse.AtBoot)
    (idle : s₀.mouse.dragState = 0) (run : Steps (Guarded Drag.Step Drag.Keeps) s₀ es s) :
    s.Fresh ∧ ∀ e t, s.Step e t → (t.Fresh ↔ s.Keeps e) := by
  have start : (∃ l, s₀.mouse.gui.queue.Windows l) ∧ s₀.Fresh := by
    refine ⟨⟨[], boot.queue ▸ Queue.initWindow_windows⟩, fun one => ?_⟩
    rw [idle] at one
    cases one
  have inv : (∃ l, s.mouse.gui.queue.Windows l) ∧ s.Fresh :=
    run.invariant (I := fun s => (∃ l, s.mouse.gui.queue.Windows l) ∧ s.Fresh) start (by
      rintro s e t ⟨⟨l, windows⟩, fresh⟩ ⟨keeps, step⟩
      exact ⟨step.desk.windows ⟨l, windows⟩, (step.fresh_iff windows fresh).mpr keeps⟩)
  obtain ⟨⟨l, windows⟩, fresh⟩ := inv
  exact ⟨fresh, fun e t step => step.fresh_iff windows fresh⟩

instance (s : Drag) : ∀ e, Decidable (s.Keeps e)
  | .mouseint _ _ _ => inferInstanceAs (Decidable (_ → _ ∧ _ → _ ∧ _ → _))
  | .createWindow _ => inferInstanceAs (Decidable (_ → _ ∨ _ ∨ _))
  | .deleteWindow _ => inferInstanceAs (Decidable (_ → _ ≠ _))
  | .reorderQueue _ => inferInstanceAs (Decidable (_ → _ = _))
  | .schedule _ => inferInstanceAs (Decidable True)
  | .user _ _ => inferInstanceAs (Decidable True)

/-- Two windows are created, the second one on top of the first one. -/
def twoWindows : List DeskEvent := [.createWindow (some 4096), .createWindow (some 8192)]

/-- The pointer moves up to the caption, and the button goes down and stays down for a packet. -/
def startOfDrag : List DeskEvent :=
  [.mouseint 50 1 8, .mouseint 50 1 0, .mouseint 50 1 50,
    .mouseint 60 1 9, .mouseint 60 1 0, .mouseint 60 1 0,
    .mouseint 70 1 9, .mouseint 70 1 0, .mouseint 70 1 0]

/-- The first two bytes of the next packet. -/
def nextOfDrag : List DeskEvent := [.mouseint 80 1 9, .mouseint 80 1 0]

/-- The sample, with nothing dragged. -/
def dragBoot : Drag := ⟨sampleBoot, (none, 0)⟩

/-- No call of `reorderQueue` from outside the handlers. -/
theorem drag_steps {es : List DeskEvent} {s t : Drag} (calls : ∀ e ∈ es, ∀ q, e ≠ .reorderQueue q)
    (h : exec Drag.next s es = some t) : Steps Drag.Step s es t := by
  refine (Steps.of_exec h).mono_of_mem ?_
  intro e he s t step
  refine ⟨?_, step⟩
  cases e with
  | reorderQueue q => exact absurd rfl (calls _ he q)
  | _ => trivial

theorem drag_keeps_window_upper :
    ∃ s, Steps (Guarded Drag.Step Drag.Keeps) dragBoot (twoWindows ++ startOfDrag ++ nextOfDrag) s ∧
      s.mouse.dragState = 1 ∧ s.mouse.gui.queue.Fresh s.mouse.pwque s.began := by
  have result : (exec (guardedBy Drag.next Drag.Keeps) dragBoot
      (twoWindows ++ startOfDrag ++ nextOfDrag)).map (fun s => s.mouse.dragState) = some 1 := by
    decide +kernel
  obtain ⟨s, run, dragging⟩ := Option.map_eq_some_iff.mp result
  have calls : ∀ e ∈ twoWindows ++ startOfDrag ++ nextOfDrag, ∀ q, e ≠ .reorderQueue q := by
    simp [twoWindows, startOfDrag, nextOfDrag]
  have steps : Steps (Guarded Drag.Step Drag.Keeps) dragBoot
      (twoWindows ++ startOfDrag ++ nextOfDrag) s := by
    refine (Steps.of_exec_guardedBy run).mono_of_mem ?_
    intro e he s t step
    refine ⟨step.1, ?_, step.2⟩
    cases e with
    | reorderQueue q => exact absurd rfl (calls _ he q)
    | _ => trivial
  exact ⟨s, steps, dragging, (drag_keeps_window ⟨rfl, rfl, rfl⟩ rfl steps).1 dragging⟩

/-- During a drag another process creates a window: the dragged one is not the last one any
more.  Or the dragged window is deleted and another process gets its slot: the next packet moves
the window of that process. -/
theorem drag_of_stale_window :
    (∃ s, Steps Drag.Step dragBoot (twoWindows ++ startOfDrag ++
        [.schedule (some 2), .createWindow (some 4096)] ++ nextOfDrag) s ∧
      s.mouse.dragState = 1 ∧ (s.mouse.packetEvent 80 0).2 = mouseDragging ∧
      s.mouse.pwque = some (.windowLine 1) ∧ s.mouse.gui.queue.lastWindow = .windowLine 2) ∧
    ∃ s, Steps Drag.Step dragBoot (twoWindows ++ startOfDrag ++
        [.deleteWindow (some 1), .schedule (some 2), .createWindow (some 4096)] ++ nextOfDrag) s ∧
      s.mouse.dragState = 1 ∧ (s.mouse.packetEvent 80 0).2 = mouseDragging ∧
      s.mouse.pwque = some (.windowLine 1) ∧ s.began = (some 1, 8192) ∧
      s.mouse.gui.queue.owner (.windowLine 1) = (some 2, 4096) := by
  constructor
  · have result : (exec Drag.next dragBoot (twoWindows ++ startOfDrag ++
        [.schedule (some 2), .createWindow (some 4096)] ++ nextOfDrag)).map (fun s =>
          (s.mouse.dragState, (s.mouse.packetEvent 80 0).2, s.mouse.pwque,
            s.mouse.gui.queue.lastWindow)) =
        some (1, mouseDragging, some (.windowLine 1), .windowLine 2) := by
      decide +kernel
    obtain ⟨s, run, e⟩ := Option.map_eq_some_iff.mp result
    simp only [Prod.mk.injEq] at e
    exact ⟨s, drag_steps (by simp [twoWindows, startOfDrag, nextOfDrag]) run, e⟩
  · have result : (exec Drag.next dragBoot (twoWindows ++ startOfDrag ++
        [.deleteWindow (some 1), .schedule (some 2), .createWindow (some 4096)] ++
          nextOfDrag)).map (fun s => decide (s.mouse.dragState = 1 ∧
            (s.mouse.packetEvent 80 0).2 = mouseDragging ∧ s.mouse.pwque = some (.windowLine 1) ∧
            s.began = (some 1, 8192) ∧
            s.mouse.gui.queue.owner (.windowLine 1) = (some 2, 4096))) = some true := by
      decide +kernel
    obtain ⟨s, run, e⟩ := Option.map_eq_some_iff.mp result
    exact ⟨s, drag_steps (by simp [twoWindows, startOfDrag, nextOfDrag]) run, of_decide_eq_true e⟩

end Xv6Gui
