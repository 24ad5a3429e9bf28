import Xv6Gui.Mouse.Clicks
import Xv6Gui.Mouse.DragSafety

/-!
# The window of a press

A press of the left button on the caption of a window should drag that window.  The code has two
ways to get this wrong.

`updateMouseEvent` notes the position of every packet with the button down in `down_pos`, and
`handleMouseDrag` looks a window up at `down_pos` when `drag_state` is 0.  So the window is the one
at the position of the first packet that reports the drag, moved by its displacement, and not at
the position of the press.  A coordinate 0 counts as no position.

`drag_state` goes back to 0 with a packet without an event.  A press is such a packet, unless the
right button is released with it.
-/

namespace Xv6Gui

open Runs
open Option (map_eq_some_iff)

namespace Gui

variable {s t : Gui} {l : List Slot} {x y : Int}

/-- A position is in the caption of the window in a slot, as `getDraggedWindowQueue` tests it. -/
def inCaption (s : Gui) (y : Int) (i : Slot) : Bool :=
  (s.queue.entry (.windowLine i)).proc.any fun p =>
    y ≤ (s.window p (s.queue.entry (.windowLine i)).window).leftTopY + captionHeight

/-- The window that a press at a position should drag. -/
def grab (s : Gui) (l : List Slot) (x y : Int) : Option Slot :=
  (s.topmost l x y).filter (s.inCaption y)

/-- A lookup leaves the page table of the window it finds. -/
theorem windowAt_frame {fuel : Nat} {p : Option Node} {q : Node}
    (h : s.windowAt x y fuel p = some (t, some q)) :
    t = { s with loaded := (s.queue.entry q).proc } := by
  induction fuel generalizing s p with
  | zero => cases p <;> cases h
  | succ fuel ih =>
    cases p with
    | none => cases h
    | some p =>
      simp only [windowAt, Runs.bind_some] at h
      obtain ⟨u, switched, w, -, h⟩ := h
      rw [switchuvm_eq_some switched] at h
      split at h
      · cases h
        rfl
      · have frame := ih h
        exact frame

end Gui

namespace Mouse

variable {s t : Mouse} {l : List Slot}

/-! ## Packets -/

/-- The window that `getDraggedWindowQueue` finds at `down_pos`. -/
theorem dragged_eq {g : Gui} {hit : Option Node} (windows : s.gui.queue.Windows l)
    (h : s.getDraggedWindowQueue = some (g, hit)) :
    hit = if s.downPosX = 0 ∨ s.downPosY = 0 then none
      else (s.gui.grab l s.downPosX s.downPosY).map .windowLine := by
  rw [getDraggedWindowQueue] at h
  split at h
  · rename_i edge
    cases h
    rw [if_pos edge]
  · rename_i edge
    rw [if_neg edge]
    simp only [Runs.bind_some] at h
    obtain ⟨⟨u, found⟩, look, h⟩ := h
    obtain ⟨i, top, rfl⟩ := Gui.windowAt_topmost windows look
    have loaded := Gui.windowAt_frame look
    subst loaded
    obtain ⟨w, load, h⟩ := Runs.bind_some.mp h
    obtain ⟨o, owner, rfl⟩ := map_eq_some_iff.mp load
    cases h
    have owner : (s.gui.queue.entry (.windowLine i)).proc = some o := owner
    simp only [Gui.grab, top, Gui.inCaption, owner, Option.filter_some, Option.any_some]
    split <;> simp_all

/-- A drag that starts has looked its window up. -/
theorem dragged_of_dispatch (windows : s.gui.queue.Windows l) (zero : s.dragState = 0)
    (h : s.dispatch mouseDragging = some t) :
    s.dragged = if s.downPosX = 0 ∨ s.downPosY = 0 then none
      else (s.gui.grab l s.downPosX s.downPosY).map .windowLine := by
  have call : s.handleMouseDrag = some t := h
  simp only [handleMouseDrag, Mouse.drag, zero, if_true, startDrag, Runs.bind_some] at call
  obtain ⟨u, ⟨⟨g, hit⟩, look, -⟩, -⟩ := call
  rw [dragged, look]
  exact dragged_eq windows look

/-- What an event does to the drag. -/
theorem dispatch_drag {event : Int} (h : s.dispatch event = some t) :
    (event = 0 → t.dragState = 0) ∧
    (event = mouseDragging → s.dragState = 0 →
      t.pwque = s.dragged ∧ t.dragState = if s.dragged.isSome then 1 else 2) ∧
    (event ≠ 0 → (event = mouseDragging → s.dragState ≠ 0) →
      t.dragState = s.dragState ∧ t.pwque = s.pwque) := by
  cases dispatch_cases h with
  | left | double =>
    exact ⟨fun e => absurd e (by decide), fun e => absurd e (by decide), fun _ _ => ⟨rfl, rfl⟩⟩
  | drag drags =>
    refine ⟨fun e => absurd e (by decide), ?_⟩
    cases drags with
    | start zero dragged =>
      obtain ⟨-, pwque, ⟨none, state, -⟩ | ⟨q, hit, state, -⟩⟩ := startDrag_framed dragged
      · exact ⟨fun _ _ => ⟨pwque, by rw [none]; exact state⟩, fun _ ne => absurd zero (ne rfl)⟩
      · exact ⟨fun _ _ => ⟨pwque, by rw [hit]; exact state⟩, fun _ ne => absurd zero (ne rfl)⟩
    | move zero | idle zero => exact ⟨fun _ e => absurd e zero, fun _ _ => ⟨rfl, rfl⟩⟩
  | right =>
    exact ⟨fun e => absurd e (by decide), fun e => absurd e (by decide), fun _ _ => ⟨rfl, rfl⟩⟩
  | settle | release =>
    exact ⟨fun _ => rfl, fun e => absurd e (by decide), fun ne => absurd rfl ne⟩
  | other _ _ drag _ zero =>
    exact ⟨fun e => absurd e zero, fun e => absurd e drag, fun _ _ => ⟨rfl, rfl⟩⟩

/-- The position of a packet in front of the clamp. -/
def displaced (s : Mouse) (ch : UInt8) : Int × Int :=
  (s.gui.mouseInfo.xPosition + s.disX, s.gui.mouseInfo.yPosition + -movement ch s.ySign)

/-- The events of a packet with the left button down. -/
theorem packetEvent_held (s : Mouse) (tick : UInt32) (ch : UInt8) (left : s.leftDown = true) :
    (s.packetEvent tick ch).2 = rightClick ∨
      (s.packetEvent tick ch).2 = if s.leftBtnDown then mouseDragging else 0 := by
  have clicks := (s.readY ch).decodeEvent_clicks tick (s.displaced ch).1 (s.displaced ch).2
  have event : (s.packetEvent tick ch).2 =
      ((s.readY ch).clicks.next s.leftDown s.rightDown tick).event := congrArg Clicks.event clicks
  rw [event]
  simp only [Clicks.next, Clicks.leftEvent, left, if_true]
  split
  · exact .inl rfl
  · exact .inr rfl

theorem packetEvent_leftBtnDown (s : Mouse) (tick : UInt32) (ch : UInt8) :
    (s.packetEvent tick ch).1.leftBtnDown = s.leftDown := by
  have clicks := (s.readY ch).decodeEvent_clicks tick (s.displaced ch).1 (s.displaced ch).2
  exact congrArg Clicks.leftBtnDown clicks

theorem packetEvent_downPos (s : Mouse) (tick : UInt32) (ch : UInt8) (left : s.leftDown = true) :
    (s.packetEvent tick ch).1.downPosX = (s.displaced ch).1 ∧
      (s.packetEvent tick ch).1.downPosY = (s.displaced ch).2 := by
  have right : ∀ (m : Mouse) e, (m.rightButton e).1.downPosX = m.downPosX ∧
      (m.rightButton e).1.downPosY = m.downPosY := by
    intro m e
    rw [rightButton]
    split
    · exact ⟨rfl, rfl⟩
    split <;> exact ⟨rfl, rfl⟩
  have down : (s.readY ch).leftDown = true := left
  simp only [packetEvent, decodeEvent, leftButton, down, if_true, (right _ _).1, (right _ _).2]
  exact ⟨rfl, rfl⟩

/-- Another event than a byte changes the graphical part only. -/
theorem DeskStep.frame {e : DeskEvent} (step : s.DeskStep e t)
    (other : ∀ tick status ch, e ≠ .mouseint tick status ch) : t = { s with gui := t.gui } := by
  obtain ⟨-, step⟩ := step
  cases e with
  | mouseint tick status ch => exact absurd rfl (other tick status ch)
  | createWindow arg | deleteWindow arg =>
    obtain ⟨r, -, rfl⟩ := map_eq_some_iff.mp step
    rfl
  | reorderQueue q =>
    obtain ⟨g, -, rfl⟩ := map_eq_some_iff.mp step
    rfl
  | schedule p | user window icon =>
    cases step
    rfl

/-- The window that is dragged. -/
def chosen (s : Mouse) : Option Node := if s.dragState = 1 then s.pwque else none

end Mouse

/-! ## Gestures -/

/-- The machine with the press that goes on. -/
structure Gesture where
  mouse : Mouse
  /-- The position of the pointer at which the left button went down, while it is down. -/
  press : Option (Int × Int)
  /-- The right button was released with this press, and `drag_state` was not 0. -/
  stale : Bool
  /-- A packet of this press reported `MOUSE_DRAGGING`. -/
  drags : Bool
  /-- The window that is dragged after the first such packet. -/
  choice : Option Node

namespace Gesture

/-- The left button is up. -/
def start (m : Mouse) : Gesture := ⟨m, none, false, false, none⟩

/-- A packet is seen. -/
def packet (g : Gesture) (tick : UInt32) (ch : UInt8) (t : Mouse) : Gesture :=
  if g.mouse.leftDown then
    if g.press.isNone then
      { mouse := t
        press := some (t.gui.mouseInfo.xPosition, t.gui.mouseInfo.yPosition)
        stale := (g.mouse.packetEvent tick ch).2 = rightClick ∧ g.mouse.dragState ≠ 0
        drags := false
        choice := none }
    else if (g.mouse.packetEvent tick ch).2 = mouseDragging ∧ g.drags = false then
      { g with mouse := t, drags := true, choice := t.chosen }
    else
      { g with mouse := t }
  else
    start t

/-- An event is seen. -/
def note (g : Gesture) (t : Mouse) : DeskEvent → Gesture
  | .mouseint tick status ch =>
    if g.mouse.Completes status then g.packet tick ch t else { g with mouse := t }
  | _ => { g with mouse := t }

/-- One step. -/
def Step (g : Gesture) (e : DeskEvent) (t : Gesture) : Prop :=
  g.mouse.DeskStep e t.mouse ∧ t = g.note t.mouse e

/-- The first packet of a press that reports the drag. -/
def FirstDrag (g : Gesture) (tick : UInt32) (status ch : UInt8) : Prop :=
  g.mouse.Completes status ∧ g.mouse.leftDown = true ∧ g.drags = false ∧
    (g.mouse.packetEvent tick ch).2 = mouseDragging
  deriving Decidable

/-- At the position of the packet there is the same window to drag as at the position of the
press. -/
def Matches (g : Gesture) (l : List Slot) (ch : UInt8) (x y : Int) : Prop :=
  (if (g.mouse.displaced ch).1 = 0 ∨ (g.mouse.displaced ch).2 = 0 then none
    else g.mouse.gui.grab l (g.mouse.displaced ch).1 (g.mouse.displaced ch).2) =
    g.mouse.gui.grab l x y
  deriving Decidable

/-- What the variables of the driver are during a press. -/
structure Sound (g : Gesture) : Prop where
  windows : ∃ l, g.mouse.gui.queue.Windows l
  down : g.mouse.leftBtnDown = g.press.isSome
  first : g.press.isSome = true → g.drags = false → (g.mouse.dragState = 0 ↔ g.stale = false)
  drag : g.drags = true → g.press.isSome = true ∧ g.mouse.dragState ≠ 0 ∧ g.choice = g.mouse.chosen

variable {g t : Gesture}

/-- A packet is handled. -/
theorem Sound.packet {tick : UInt32} {ch : UInt8} {m : Mouse} (h : g.Sound)
    (windows : ∃ l, m.gui.queue.Windows l)
    (call : ((g.mouse.packetEvent tick ch).1.dispatch (g.mouse.packetEvent tick ch).2).map
      (fun t => { t with gui := t.gui.moveMousePosition t.disX t.disY }) = some m) :
    (g.packet tick ch m).Sound := by
  obtain ⟨u, handled, rfl⟩ := map_eq_some_iff.mp call
  obtain ⟨zero, start, others⟩ := Mouse.dispatch_drag handled
  obtain ⟨state, pwque⟩ := g.mouse.packetEvent_drag tick ch
  have down : u.leftBtnDown = g.mouse.leftDown := by
    rw [Mouse.dispatch_frame handled]
    exact g.mouse.packetEvent_leftBtnDown tick ch
  rw [Gesture.packet]
  cases left : g.mouse.leftDown with
  | false =>
    rw [left] at down
    exact ⟨windows, down, nofun, nofun⟩
  | true =>
    rw [left] at down
    have events := g.mouse.packetEvent_held tick ch left
    have held := h.down
    simp only [if_true]
    split
    · rename_i free
      rw [Option.isNone_iff_eq_none.mp free] at held
      refine ⟨windows, down, fun _ _ => ?_, nofun⟩
      rw [held, if_neg (by decide)] at events
      rcases events with right | none
      · obtain ⟨same, -⟩ := others (by rw [right]; decide) fun e => absurd (right.symm.trans e) (by decide)
        rw [right]
        simp [same, state]
      · have quiet : (0 : Int) ≠ rightClick := by decide
        simp [zero none, none, quiet]
    rename_i busy
    have some : g.press.isSome = true := by
      rw [← Option.not_isNone, Bool.eq_false_iff.mpr busy]
      rfl
    rw [held, some, if_pos rfl] at events
    split
    · rename_i first
      obtain ⟨drag, -⟩ := first
      refine ⟨windows, down.trans some.symm, nofun, fun _ => ⟨some, ?_, rfl⟩⟩
      show u.dragState ≠ 0
      by_cases idle : g.mouse.dragState = 0
      · rw [(start drag (state.trans idle)).2]
        split <;> decide
      · rw [(others (by rw [drag]; decide) fun _ => by rwa [state]).1, state]
        exact idle
    · rename_i later
      have same : u.dragState = g.mouse.dragState ∧ u.pwque = g.mouse.pwque := by
        rw [← state, ← pwque]
        rcases events with right | drag
        · exact others (by rw [right]; decide) fun e => absurd (right.symm.trans e) (by decide)
        · refine others (by rw [drag]; decide) fun _ => ?_
          have drags : g.drags = true := by
            rw [← Bool.not_eq_false]
            exact fun fresh => later ⟨drag, fresh⟩
          rw [state]
          exact (h.drag drags).2.1
      refine ⟨windows, down.trans some.symm, ?_, ?_⟩
      · intro press fresh
        have first := h.first press fresh
        rw [← same.1] at first
        exact first
      · intro drags
        obtain ⟨press, ne, choice⟩ := h.drag drags
        refine ⟨press, ?_, choice.trans ?_⟩
        · show u.dragState ≠ 0
          rw [same.1]
          exact ne
        · show (if g.mouse.dragState = 1 then g.mouse.pwque else none) =
            if u.dragState = 1 then u.pwque else none
          rw [same.1, same.2]

/-- The variables of a press stay as they are. -/
theorem Sound.same {m : Mouse} (h : g.Sound) (windows : ∃ l, m.gui.queue.Windows l)
    (down : m.leftBtnDown = g.mouse.leftBtnDown) (state : m.dragState = g.mouse.dragState)
    (pwque : m.pwque = g.mouse.pwque) : ({ g with mouse := m } : Gesture).Sound where
  windows := windows
  down := down.trans h.down
  first press fresh := by
    rw [← h.first press fresh, ← state]
  drag drags := by
    obtain ⟨press, ne, choice⟩ := h.drag drags
    refine ⟨press, by rwa [← state] at ne, choice.trans ?_⟩
    rw [Mouse.chosen, Mouse.chosen, state, pwque]

theorem Step.sound {e : DeskEvent} (h : g.Sound) (step : g.Step e t) : t.Sound := by
  obtain ⟨desk, note⟩ := step
  have windows := desk.windows h.windows
  rw [note]
  by_cases byte : ∃ tick status ch, e = .mouseint tick status ch
  · obtain ⟨tick, status, ch, rfl⟩ := byte
    rw [Gesture.note]
    obtain ⟨early, toRead, l, r, xs, ys, dx, same⟩ | ⟨third, same⟩ :=
      g.mouse.mouseint_packet tick status ch
    · have moved := Option.some.inj (same.symm.trans desk.2)
      rw [if_neg early]
      exact h.same windows (by rw [← moved]) (by rw [← moved]) (by rw [← moved])
    · rw [if_pos third]
      exact h.packet windows (same.symm.trans desk.2)
  · push Not at byte
    have frame := desk.frame byte
    have noted : g.note t.mouse e = { g with mouse := t.mouse } := by
      cases e with
      | mouseint tick status ch => exact absurd rfl (byte tick status ch)
      | _ => rfl
    rw [noted]
    exact h.same windows (by rw [frame]) (by rw [frame]) (by rw [frame])

theorem sound_of_run {m : Mouse} {es : List DeskEvent} (boot : m.AtBoot)
    (idle : m.leftBtnDown = false) (run : Steps Gesture.Step (.start m) es g) : g.Sound := by
  refine run.invariant (I := Gesture.Sound) ?_ fun h step => step.sound h
  exact ⟨⟨[], boot.queue ▸ Queue.initWindow_windows⟩, idle, nofun, nofun⟩

end Gesture

/-- From boot on, in every run: during a press the window that is dragged is the one that was chosen
with the first packet that reports the drag.  With this packet `drag_state` is 0, and the choice is
the topmost window around the position of the press, if the position is in its caption, and
otherwise no window, if and only if nothing is left over from an earlier gesture and the position of
the packet leads to the same window as the position of the press. -/
theorem drag_grabs_press_iff {m : Mouse} {g : Gesture} {es : List DeskEvent} (boot : m.AtBoot)
    (idle : m.leftBtnDown = false) (run : Steps Gesture.Step (.start m) es g) :
    (g.drags = true → g.choice = g.mouse.chosen) ∧
    ∃ l, g.mouse.gui.queue.Windows l ∧ ∀ tick status ch t x y, g.press = some (x, y) →
      g.FirstDrag tick status ch → g.Step (.mouseint tick status ch) t →
        (g.mouse.dragState = 0 ∧ t.choice = (g.mouse.gui.grab l x y).map .windowLine ↔
          g.stale = false ∧ g.Matches l ch x y) := by
  have sound := Gesture.sound_of_run boot idle run
  obtain ⟨l, windows⟩ := sound.windows
  refine ⟨fun drags => (sound.drag drags).2.2, l, windows, ?_⟩
  rintro tick status ch t x y press ⟨third, left, fresh, event⟩ ⟨desk, note⟩
  have some : g.press.isSome = true := by rw [press]; rfl
  rw [sound.first some fresh]
  refine and_congr_right fun clean => ?_
  have zero := (sound.first some fresh).mpr clean
  have choice : t.choice = t.mouse.chosen := by
    rw [note]
    simp [Gesture.note, third, Gesture.packet, left, press, event, fresh]
  obtain ⟨early, -⟩ | ⟨-, same⟩ := g.mouse.mouseint_packet tick status ch
  · exact absurd third early
  obtain ⟨u, handled, moved⟩ := map_eq_some_iff.mp (same.symm.trans desk.2)
  rw [event] at handled
  have gui := g.mouse.packetEvent_gui tick ch
  have zero' := (g.mouse.packetEvent_drag tick ch).1.trans zero
  have windows' : (g.mouse.packetEvent tick ch).1.gui.queue.Windows l := by
    rw [gui]
    exact windows
  obtain ⟨pwque, state⟩ := (Mouse.dispatch_drag handled).2.1 rfl zero'
  have dragged := Mouse.dragged_of_dispatch windows' zero' handled
  obtain ⟨downX, downY⟩ := g.mouse.packetEvent_downPos tick ch left
  have chosen : t.mouse.chosen = (g.mouse.packetEvent tick ch).1.dragged := by
    rw [← moved]
    simp only [Mouse.chosen, pwque, state]
    cases (g.mouse.packetEvent tick ch).1.dragged <;> simp
  have found : t.choice = (if (g.mouse.displaced ch).1 = 0 ∨ (g.mouse.displaced ch).2 = 0 then none
      else g.mouse.gui.grab l (g.mouse.displaced ch).1 (g.mouse.displaced ch).2).map
        .windowLine := by
    rw [choice, chosen, dragged, downX, downY, gui]
    split <;> rfl
  rw [found, Gesture.Matches]
  exact (Option.map_injective Queue.windowLine_injective).eq_iff

namespace Gesture

/-- The gesture after an event. -/
def next (g : Gesture) (e : DeskEvent) : Option Gesture := (g.mouse.next e).map fun m => g.note m e

theorem note_mouse (g : Gesture) (m : Mouse) (e : DeskEvent) : (g.note m e).mouse = m := by
  cases e with
  | mouseint tick status ch =>
    simp only [note, packet, start]
    split_ifs <;> rfl
  | _ => rfl

/-- No call of `reorderQueue` from outside the handlers. -/
theorem step_of_next {g t : Gesture} {e : DeskEvent} (call : ∀ q, e ≠ .reorderQueue q)
    (h : g.next e = some t) : g.Step e t := by
  obtain ⟨m, moved, rfl⟩ := map_eq_some_iff.mp h
  refine ⟨⟨?_, by rw [note_mouse]; exact moved⟩, by rw [note_mouse]⟩
  cases e with
  | reorderQueue q => exact absurd rfl (call q)
  | _ => trivial

theorem steps_of_exec {g t : Gesture} {es : List DeskEvent}
    (calls : ∀ e ∈ es, ∀ q, e ≠ .reorderQueue q) (h : exec next g es = some t) :
    Steps Step g es t :=
  (Steps.of_exec h).mono_of_mem fun e he _ _ step => step_of_next (calls e he) step

end Gesture

/-- The interrupts of a packet. -/
def packetBytes (tick : UInt32) (header x y : UInt8) : List DeskEvent :=
  [.mouseint tick 1 header, .mouseint tick 1 x, .mouseint tick 1 y]

/-- A window is created, and the pointer moves up to its caption. -/
def toCaption : List DeskEvent := .createWindow (some 4096) :: packetBytes 50 8 0 50

/-- Only the first slot is in use. -/
def OnlyFirst (s : Queue) : Prop := ∀ i : Slot, (s.owner (.windowLine i)).1 ≠ none ↔ i = 0
  deriving Decidable

theorem OnlyFirst.windows {s : Queue} {l : List Slot} (only : OnlyFirst s) (h : s.Windows l) :
    l = [0] := by
  have mem : ∀ i, i ∈ l ↔ i = 0 := fun i => (h.used i).trans (only i)
  cases l with
  | nil => simpa using mem 0
  | cons i l =>
    obtain rfl := (mem i).mp (by simp)
    cases l with
    | nil => rfl
    | cons j l =>
      obtain rfl := (mem j).mp (by simp)
      simpa using h.nodup

/-- The button goes down on the caption and stays down without a movement. -/
theorem drag_grabs_press_iff_still : ∃ g t l,
    Steps Gesture.Step (.start sampleBoot)
      (toCaption ++ packetBytes 60 9 0 0 ++ [.mouseint 70 1 9, .mouseint 70 1 0]) g ∧
    g.press = some (640, 462) ∧ g.FirstDrag 70 1 0 ∧ g.Step (.mouseint 70 1 0) t ∧
    g.mouse.gui.queue.Windows l ∧ g.mouse.gui.grab l 640 462 = some 0 ∧ g.mouse.dragState = 0 ∧
    t.choice = some (.windowLine 0) := by
  have result : ((exec Gesture.next (.start sampleBoot) (toCaption ++ packetBytes 60 9 0 0 ++
      [.mouseint 70 1 9, .mouseint 70 1 0])).bind fun g =>
        (g.next (.mouseint 70 1 0)).map fun _ => decide (g.press = some (640, 462) ∧
          g.FirstDrag 70 1 0 ∧ OnlyFirst g.mouse.gui.queue ∧
          g.mouse.gui.grab [0] 640 462 = some 0 ∧ g.stale = false ∧
          g.Matches [0] 0 640 462)) = some true := by
    decide +kernel
  obtain ⟨g, run, result⟩ := Runs.bind_some.mp result
  obtain ⟨t, last, e⟩ := map_eq_some_iff.mp result
  obtain ⟨press, first, only, grab, clean, same⟩ := of_decide_eq_true e
  have steps := Gesture.steps_of_exec (by simp [toCaption, packetBytes]) run
  have step : g.Step (.mouseint 70 1 0) t := Gesture.step_of_next (by simp) last
  obtain ⟨-, l, windows, iff⟩ :=
    drag_grabs_press_iff (m := sampleBoot) ⟨rfl, rfl, rfl⟩ rfl steps
  obtain rfl := only.windows windows
  obtain ⟨state, choice⟩ := (iff 70 1 0 t 640 462 press first step).mpr ⟨clean, same⟩
  rw [grab] at choice
  exact ⟨g, t, [0], steps, press, first, step, windows, grab, state, choice⟩

/-- The button goes down on the caption and the pointer moves down by 30 rows: no window is dragged.
A drag ends with a double click, and the next press comes with the release of the right button:
`drag_state` is still 1. -/
theorem drag_misses_press :
    (∃ g t l, Steps Gesture.Step (.start sampleBoot)
        (toCaption ++ packetBytes 60 9 0 0 ++ [.mouseint 70 1 0x29, .mouseint 70 1 0]) g ∧
      g.press = some (640, 462) ∧ g.FirstDrag 70 1 226 ∧ g.Step (.mouseint 70 1 226) t ∧
      g.mouse.gui.queue.Windows l ∧ g.mouse.gui.grab l 640 462 = some 0 ∧ t.choice = none) ∧
    ∃ g, Steps Gesture.Step (.start sampleBoot) (toCaption ++ packetBytes 60 9 0 0 ++
        packetBytes 65 8 0 0 ++ packetBytes 70 9 0 0 ++ packetBytes 72 9 0 0 ++
        packetBytes 80 0x0a 0 0 ++ packetBytes 82 9 0 0 ++
        [.mouseint 84 1 9, .mouseint 84 1 0]) g ∧
      g.FirstDrag 84 1 0 ∧ g.mouse.dragState = 1 := by
  constructor
  · have result : ((exec Gesture.next (.start sampleBoot) (toCaption ++ packetBytes 60 9 0 0 ++
        [.mouseint 70 1 0x29, .mouseint 70 1 0])).bind fun g =>
          (g.next (.mouseint 70 1 226)).map fun t => decide (g.press = some (640, 462) ∧
            g.FirstDrag 70 1 226 ∧ OnlyFirst g.mouse.gui.queue ∧
            g.mouse.gui.grab [0] 640 462 = some 0 ∧ t.choice = none)) = some true := by
      decide +kernel
    obtain ⟨g, run, result⟩ := Runs.bind_some.mp result
    obtain ⟨t, last, e⟩ := map_eq_some_iff.mp result
    obtain ⟨press, first, only, grab, choice⟩ := of_decide_eq_true e
    have steps := Gesture.steps_of_exec (by simp [toCaption, packetBytes]) run
    have step : g.Step (.mouseint 70 1 226) t := Gesture.step_of_next (by simp) last
    obtain ⟨l, windows⟩ := (Gesture.sound_of_run ⟨rfl, rfl, rfl⟩ rfl steps).windows
    obtain rfl := only.windows windows
    exact ⟨g, t, [0], steps, press, first, step, windows, grab, choice⟩
  · have result : (exec Gesture.next (.start sampleBoot) (toCaption ++ packetBytes 60 9 0 0 ++
        packetBytes 65 8 0 0 ++ packetBytes 70 9 0 0 ++ packetBytes 72 9 0 0 ++
        packetBytes 80 0x0a 0 0 ++ packetBytes 82 9 0 0 ++
        [.mouseint 84 1 9, .mouseint 84 1 0])).map (fun g =>
          decide (g.FirstDrag 84 1 0 ∧ g.mouse.dragState = 1)) = some true := by
      decide +kernel
    obtain ⟨g, run, e⟩ := map_eq_some_iff.mp result
    exact ⟨g, Gesture.steps_of_exec (by simp [toCaption, packetBytes]) run, of_decide_eq_true e⟩

end Xv6Gui
