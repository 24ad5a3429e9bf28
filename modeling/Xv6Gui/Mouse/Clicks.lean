import Xv6Gui.Mouse.Packets

/-!
# Clicks

`updateMouseEvent` makes a click of a release of the left button.  It remembers whether the
buttons are down, the tick of the last release, and the event of the packet before.

A press with a drag in it should end without a click, and two clicks in short succession should
make a double click.  The code compares the ticks first, so the end of a drag is a double click
if the last release was not long ago, and it compares with the last release, whatever that one
was reported as.  It notices a drag only by the packet right before the release.  And the event of
the right button replaces that of the left one.
-/

namespace Xv6Gui

open Runs

/-! ## The recogniser -/

/-- The variables of `mouse.c` by which clicks are recognised. -/
structure Clicks where
  leftBtnDown : Bool
  rightBtnDown : Bool
  lastTick : UInt32
  /-- `mouse_info.event`. -/
  event : Int
deriving DecidableEq

/-- What `updateMouseEvent` is called with. -/
structure ClickInput where
  left : Bool
  right : Bool
  tick : UInt32
  x : Int
  y : Int
deriving DecidableEq

namespace Clicks

/-- No button is down. -/
def init : Clicks := ⟨false, false, -30, 0⟩

/-- `tick - last_tick <= 30`. -/
def Recent (c : Clicks) (tick : UInt32) : Prop := tick - c.lastTick ≤ 30
  deriving Decidable

/-- The event of the left button. -/
def leftEvent (c : Clicks) (left : Bool) (tick : UInt32) : Int :=
  if left then (if c.leftBtnDown then mouseDragging else 0)
  else if c.leftBtnDown then
    (if c.Recent tick then leftDoubleClick else if c.event = mouseDragging then 0 else leftClick)
  else 0

/-- What `updateMouseEvent` does with the variables. -/
def next (c : Clicks) (left right : Bool) (tick : UInt32) : Clicks where
  leftBtnDown := left
  rightBtnDown := right
  lastTick :=
    if left = false ∧ c.leftBtnDown = true then (if c.Recent tick then -30 else tick) else c.lastTick
  event := if right = false ∧ c.rightBtnDown = true then rightClick else c.leftEvent left tick

end Clicks

namespace Mouse

variable {s t : Mouse}

/-- What the decoder of clicks keeps. -/
def clicks (s : Mouse) : Clicks :=
  ⟨s.leftBtnDown, s.rightBtnDown, s.lastTick, s.gui.mouseInfo.event⟩

theorem decodeEvent_clicks (s : Mouse) (tick : UInt32) (x y : Int) :
    (s.decodeEvent tick x y).1.clicks = s.clicks.next s.leftDown s.rightDown tick := by
  cases hl : s.leftDown <;> cases hr : s.rightDown <;> cases bl : s.leftBtnDown <;>
    cases br : s.rightBtnDown <;> by_cases recent : tick - s.lastTick ≤ 30 <;>
    simp [decodeEvent, leftButton, rightButton, Clicks.next, Clicks.leftEvent, Clicks.Recent,
      clicks, hl, hr, bl, br, recent]

/-- `updateMouseEvent` is called and notes the event in `mouse_info`.  Before the call, anything may
happen to the other variables. -/
def ClickStep (s : Mouse) (l : ClickInput × Int) (t : Mouse) : Prop :=
  ∃ u : Mouse, u.clicks = s.clicks ∧ u.leftDown = l.1.left ∧ u.rightDown = l.1.right ∧
    u.updateMouseEvent l.1.tick l.1.x l.1.y = some t ∧ l.2 = t.gui.mouseInfo.event

theorem ClickStep.next {l : ClickInput × Int} (h : s.ClickStep l t) :
    t.clicks = s.clicks.next l.1.left l.1.right l.1.tick ∧ l.2 = t.clicks.event := by
  obtain ⟨u, same, left, right, call, event⟩ := h
  refine ⟨?_, event⟩
  have noted := (dispatch_noted call).1
  rw [← same, ← left, ← right, ← decodeEvent_clicks u l.1.tick l.1.x l.1.y]
  simp only [clicks]
  rw [noted, dispatch_frame call]

end Mouse

/-! ## What a click is -/

/-- What has been reported so far. -/
structure ClickHistory where
  /-- The left button is down. -/
  down : Bool
  /-- A packet of this press reported `MOUSE_DRAGGING`. -/
  dragged : Bool
  /-- The tick of the last release of the left button, if it was reported as `LEFT_CLICK`. -/
  lastClick : Option UInt32

namespace ClickHistory

/-- Nothing has happened. -/
def init : ClickHistory := ⟨false, false, none⟩

/-- A packet and its event are seen. -/
def note (h : ClickHistory) (l : ClickInput × Int) : ClickHistory :=
  if l.1.left then
    { h with down := true, dragged := h.dragged || l.2 = mouseDragging }
  else if h.down then
    ⟨false, false, if l.2 = leftClick then some l.1.tick else none⟩
  else
    h

/-- What some packets leave. -/
def after (labels : List (ClickInput × Int)) : ClickHistory := labels.foldl note init

/-- What a release of the left button should be reported as, if it is a click. -/
def outcome (h : ClickHistory) (tick : UInt32) : Option Int :=
  if h.dragged then none
  else if ∃ last ∈ h.lastClick, tick.toNat - last.toNat ≤ 30 then some leftDoubleClick
  else some leftClick

end ClickHistory

/-- The click of the left button that an event reports. -/
def leftOutcome (event : Int) : Option Int :=
  if event = leftClick ∨ event = leftDoubleClick then some event else none

/-- A release of the left button is reported as it should.  At the end of a drag the last release
must be long ago and the packet before must have reported the drag, or the right button is released
too.  Otherwise the right button must not be released, and the last release must be long ago or
reported as a click. -/
def Clicks.Reported (c : Clicks) (h : ClickHistory) (i : ClickInput) : Prop :=
  (h.dragged = true →
    (i.right = false ∧ c.rightBtnDown = true) ∨ (¬ c.Recent i.tick ∧ c.event = mouseDragging)) ∧
  (h.dragged = false →
    ¬ (i.right = false ∧ c.rightBtnDown = true) ∧ (c.Recent i.tick → h.lastClick.isSome = true))
  deriving Decidable

/-! ## Runs -/

/-- What the variables know of the history. -/
structure ClickHistory.Known (h : ClickHistory) (labels : List (ClickInput × Int)) (c : Clicks) :
    Prop where
  down : h.down = c.leftBtnDown
  idle : h.down = false → h.dragged = false
  event : c.event = mouseDragging → h.dragged = true
  last : ∀ tick ∈ h.lastClick, c.lastTick = tick ∧ ∃ l ∈ labels, l.1.tick = tick

namespace Clicks

variable {c : Clicks} {right : Bool} {tick : UInt32}

/-- A release of the left button does not report a drag. -/
theorem next_event_ne_dragging : (c.next false right tick).event ≠ mouseDragging := by
  simp only [next, leftEvent, Bool.false_eq_true, if_false]
  split_ifs <;> decide

/-- A release that is reported as a click is remembered. -/
theorem next_lastTick_of_click (down : c.leftBtnDown = true)
    (h : (c.next false right tick).event = leftClick) :
    (c.next false right tick).lastTick = tick := by
  have long : ¬ c.Recent tick := by
    intro recent
    simp only [next, leftEvent, down, recent, Bool.false_eq_true, if_false, if_true] at h
    split at h <;> cases h
  simp [next, down, long]

end Clicks

namespace ClickHistory

variable {h : ClickHistory} {labels : List (ClickInput × Int)} {c : Clicks} {l : ClickInput × Int}

theorem Known.note (known : h.Known labels c)
    (event : l.2 = (c.next l.1.left l.1.right l.1.tick).event) :
    (h.note l).Known (labels ++ [l]) (c.next l.1.left l.1.right l.1.tick) := by
  have last : ∀ tick ∈ h.lastClick, c.lastTick = tick ∧ ∃ k ∈ labels ++ [l], k.1.tick = tick := by
    intro tick mem
    obtain ⟨same, k, hk, e⟩ := known.last tick mem
    exact ⟨same, k, List.mem_append_left _ hk, e⟩
  cases left : l.1.left with
  | true =>
    simp only [ClickHistory.note, left, if_true]
    rw [left] at event
    refine ⟨rfl, nofun, fun drag => ?_, last⟩
    simp [event, drag]
  | false =>
    rw [left] at event
    cases down : h.down with
    | true =>
      have held : c.leftBtnDown = true := by rw [← known.down, down]
      simp only [ClickHistory.note, left, down, Bool.false_eq_true, if_false, if_true]
      refine ⟨rfl, fun _ => rfl, fun drag => absurd drag Clicks.next_event_ne_dragging, ?_⟩
      intro tick mem
      dsimp only at mem
      split at mem
      · rename_i click
        cases mem
        rw [event] at click
        exact ⟨Clicks.next_lastTick_of_click held click, l, by simp, rfl⟩
      · cases mem
    | false =>
      have free : c.leftBtnDown = false := by rw [← known.down, down]
      simp only [ClickHistory.note, left, down, Bool.false_eq_true, if_false]
      refine ⟨down, known.idle, fun drag => absurd drag Clicks.next_event_ne_dragging, ?_⟩
      simpa [Clicks.next, free] using last

/-- A release, reported as it should. -/
theorem Known.reported_iff {right : Bool} {tick : UInt32} {x y : Int} (known : h.Known labels c)
    (ticks : ∀ last ∈ h.lastClick, last ≤ tick) (down : h.down = true) :
    leftOutcome (c.next false right tick).event = h.outcome tick ↔
      c.Reported h ⟨false, right, tick, x, y⟩ := by
  have held : c.leftBtnDown = true := by rw [← known.down, down]
  have recent : ∀ last ∈ h.lastClick, c.Recent tick ↔ tick.toNat - last.toNat ≤ 30 := by
    intro last mem
    have le := UInt32.le_iff_toNat_le.mp (ticks last mem)
    rw [Clicks.Recent, (known.last last mem).1, UInt32.le_iff_toNat_le,
      UInt32.toNat_sub_of_le _ _ (ticks last mem)]
    rfl
  have event : (c.next false right tick).event =
      if right = false ∧ c.rightBtnDown = true then rightClick
      else if c.Recent tick then leftDoubleClick
      else if c.event = mouseDragging then 0 else leftClick := by
    simp [Clicks.next, Clicks.leftEvent, held]
  rw [event, Clicks.Reported, outcome]
  cases dragged : h.dragged with
  | true =>
    simp only [if_true]
    split_ifs <;> simp_all [leftOutcome, leftClick, leftDoubleClick, rightClick]
  | false =>
    have quiet : c.event ≠ mouseDragging := by
      intro drag
      have := known.event drag
      simp_all
    simp only [Bool.false_eq_true, if_false, quiet]
    cases last : h.lastClick with
    | none =>
      split_ifs <;> simp_all [leftOutcome, leftClick, leftDoubleClick, rightClick]
    | some t =>
      have soon : (∃ last ∈ some t, tick.toNat - last.toNat ≤ 30) ↔ c.Recent tick := by
        simpa using (recent t last).symm
      simp only [soon]
      split_ifs <;> simp_all [leftOutcome, leftClick, leftDoubleClick, rightClick]

end ClickHistory

namespace Mouse

variable {s₀ s t : Mouse} {labels : List (ClickInput × Int)} {l : ClickInput × Int}

theorem known_of_clicks (boot : s₀.clicks = Clicks.init) (run : Steps ClickStep s₀ labels s) :
    (ClickHistory.after labels).Known labels s.clicks := by
  refine run.invariant_hist (I := fun labels s => (ClickHistory.after labels).Known labels s.clicks)
    ?_ ?_
  · rw [boot]
    exact ⟨rfl, fun _ => rfl, nofun, nofun⟩
  · intro labels s l t known step
    obtain ⟨next, event⟩ := step.next
    rw [next] at event ⊢
    rw [ClickHistory.after, List.foldl_append]
    exact known.note event

end Mouse

/-- In every run of `updateMouseEvent` from boot, a release of the left button is reported as no
click at the end of a drag, as a double click soon after a click and as a click otherwise, if and
only if the variables tell the cases apart. -/
theorem click_outcome_iff {s₀ s t : Mouse} {labels : List (ClickInput × Int)}
    {l : ClickInput × Int} (boot : s₀.clicks = Clicks.init)
    (ticks : (labels ++ [l]).Pairwise fun k l => k.1.tick ≤ l.1.tick)
    (run : Steps Mouse.ClickStep s₀ labels s) (step : s.ClickStep l t)
    (down : (ClickHistory.after labels).down = true) (up : l.1.left = false) :
    leftOutcome l.2 = (ClickHistory.after labels).outcome l.1.tick ↔
      s.clicks.Reported (ClickHistory.after labels) l.1 := by
  have known := Mouse.known_of_clicks boot run
  obtain ⟨next, event⟩ := step.next
  have later : ∀ last ∈ (ClickHistory.after labels).lastClick, last ≤ l.1.tick := by
    intro last mem
    obtain ⟨-, k, hk, rfl⟩ := known.last last mem
    exact (List.pairwise_append.mp ticks).2.2 k hk l (by simp)
  rw [event, next, up, known.reported_iff later down]
  rw [← up]

/-- The machine with a window over the whole screen. -/
def deskReady : Mouse := (deskBoot.next (.createWindow (some 4096))).getD deskBoot

/-- A call of `updateMouseEvent` with nothing before it. -/
def Mouse.feed (s : Mouse) (i : ClickInput) : Option (Mouse × Int) :=
  ({ s with leftDown := i.left, rightDown := i.right }.updateMouseEvent i.tick i.x i.y).map fun t =>
    (t, t.gui.mouseInfo.event)

theorem Mouse.feed_step {s t : Mouse} {l : ClickInput × Int} (h : s.feed l.1 = some (t, l.2)) :
    s.ClickStep l t := by
  obtain ⟨u, call, e⟩ := Option.map_eq_some_iff.mp h
  rw [Prod.mk.injEq] at e
  obtain ⟨rfl, event⟩ := e
  exact ⟨{ s with leftDown := l.1.left, rightDown := l.1.right }, rfl, rfl, rfl, call, event.symm⟩

/-- A packet in the middle of the screen. -/
def packetAt (left right : Bool) (tick : UInt32) : ClickInput := ⟨left, right, tick, 640, 512⟩

theorem feed_steps {labels : List (ClickInput × Int)}
    (h : (execOut Mouse.feed deskReady (labels.map Prod.fst)).map Prod.snd = some labels) :
    ∃ s, Steps Mouse.ClickStep deskReady labels s := by
  obtain ⟨⟨s, _⟩, run, rfl⟩ := Option.map_eq_some_iff.mp h
  exact ⟨s, (Steps.of_execOut run).mono fun step => Mouse.feed_step step⟩

/-- Two clicks in short succession, up to the second release. -/
def twoClicks : List (ClickInput × Int) :=
  [(packetAt true false 100, 0), (packetAt false false 105, leftClick),
    (packetAt true false 110, 0)]

theorem click_outcome_iff_twoClicks : ∃ s t, Steps Mouse.ClickStep deskReady twoClicks s ∧
    s.ClickStep (packetAt false false 115, leftDoubleClick) t ∧
    leftOutcome leftDoubleClick = (ClickHistory.after twoClicks).outcome 115 := by
  have result : ((execOut Mouse.feed deskReady (twoClicks.map Prod.fst)).bind fun r =>
      (r.1.feed (packetAt false false 115)).map fun q => (r.2, q.2,
        decide (r.1.clicks.Reported (ClickHistory.after twoClicks) (packetAt false false 115)))) =
      some (twoClicks, leftDoubleClick, true) := by
    decide +kernel
  obtain ⟨⟨s, labels⟩, run, result⟩ := Runs.bind_some.mp result
  obtain ⟨⟨t, event⟩, fed, e⟩ := Option.map_eq_some_iff.mp result
  simp only [Prod.mk.injEq, decide_eq_true_eq] at e
  obtain ⟨rfl, rfl, reported⟩ := e
  have steps : Steps Mouse.ClickStep deskReady twoClicks s :=
    (Steps.of_execOut run).mono fun step => Mouse.feed_step step
  have step : s.ClickStep (packetAt false false 115, leftDoubleClick) t := Mouse.feed_step fed
  exact ⟨s, t, steps, step,
    (click_outcome_iff (by decide +kernel) (by decide) steps step (by decide) rfl).mpr reported⟩

/-- After the labels, the left button is released and the event is not what it should be. -/
def Misreported (labels : List (ClickInput × Int)) (i : ClickInput) (event : Int) : Prop :=
  (∃ s, Steps Mouse.ClickStep deskReady (labels ++ [(i, event)]) s) ∧
    (ClickHistory.after labels).down = true ∧ i.left = false ∧
    leftOutcome event ≠ (ClickHistory.after labels).outcome i.tick

/-- A click soon after a drag is a double click.  So is a drag soon after a click, and a click at
boot.  A right click replaces a click. -/
theorem click_misreported :
    Misreported [(packetAt true false 100, 0), (packetAt true false 101, mouseDragging),
        (packetAt false false 102, 0), (packetAt true false 110, 0)]
      (packetAt false false 112) leftDoubleClick ∧
    Misreported [(packetAt true false 100, 0), (packetAt false false 105, leftClick),
        (packetAt true false 110, 0), (packetAt true false 111, mouseDragging)]
      (packetAt false false 112) leftDoubleClick ∧
    Misreported [(packetAt true false 0, 0)] (packetAt false false 0) leftDoubleClick ∧
    Misreported [(packetAt true true 100, 0)] (packetAt false false 105) rightClick := by
  refine ⟨⟨feed_steps ?_, ?_⟩, ⟨feed_steps ?_, ?_⟩, ⟨feed_steps ?_, ?_⟩, feed_steps ?_, ?_⟩ <;>
    decide +kernel

end Xv6Gui
