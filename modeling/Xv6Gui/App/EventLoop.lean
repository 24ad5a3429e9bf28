import Xv6Gui.Lib.Runs

/-!
# The event loop of an application

`handleEvent` of `uwindow.c` against a kernel that may set a flag at any
moment.  A flag is the field `triggered` of a handler: that of a window, or that
of a widget, found through the type and the context pointer of the widget.

An application is a stack of calls of `handleEvent`.  The function of a handler
may do anything an application does: overwrite flags and widgets (`memset`, as
`ls` and `showDialog` of the explorer do), or loop over `handleEvent` of another
window, which is a call on top of the stack.  `sys_fileSystemChanged`, by this or
another process, is a trigger for each window.

`handleEvent` reads `window->widgets[i]` anew when it clears the flag, under the
type it switched on.  It clears the flag *after* the function has returned, so it
also erases a trigger that came while the function ran.
-/

namespace Xv6Gui.App

open Function (update update_of_ne)

/-- The types of widgets that have handlers. -/
inductive WidgetType where
  | button
  | imageView
  | iconView
deriving DecidableEq

/-- A handler: of the window, or of the widget of some type at an address. -/
inductive Loc where
  | fileSystem (window : Int)
  | widget (type : WidgetType) (addr : Int)
deriving DecidableEq

/-- A widget.  A type without a handler is `none`. -/
structure Widget where
  type : Option WidgetType
  context : Int

/-- The widgets of a window. -/
structure Layout where
  widgetsNum : Nat
  widgets : Nat → Widget

/-- Where `handleEvent` is: at the handler of the window, or at a widget. -/
inductive Place where
  | fileSystem
  | widget (i : Nat)
deriving DecidableEq

/-- What `handleEvent` does there.  In `run` and `clear` a widget keeps the type
that was switched on. -/
inductive Phase where
  | test (place : Place)
  | run (place : Place) (type : Option WidgetType)
  | clear (place : Place) (type : Option WidgetType)

/-- A call of `handleEvent`. -/
structure Frame where
  window : Int
  phase : Phase

/-- The handlers of a process, and its calls. -/
structure State where
  triggered : Loc → Bool
  handlerFunction : Loc → Bool
  layout : Int → Layout
  /-- The calls of `handleEvent`, the innermost first. -/
  stack : List Frame
  /-- Ghost: a trigger has not been followed by the start of an invocation. -/
  pending : Loc → Bool

namespace State

/-- The handler at a place of a window, for a widget under the type `type`. -/
def locAt (s : State) (window : Int) (type : Option WidgetType) : Place → Option Loc
  | .fileSystem => some (.fileSystem window)
  | .widget i => type.map fun t => .widget t ((s.layout window).widgets i).context

/-- The type of a widget, as it is now. -/
def typeAt (s : State) (window : Int) : Place → Option WidgetType
  | .fileSystem => none
  | .widget i => ((s.layout window).widgets i).type

/-- What the loop looks at next. -/
def next : Place → Place
  | .fileSystem => .widget 0
  | .widget i => .widget (i + 1)

/-- Store a flag. -/
def setTriggered (s : State) (l : Loc) (v : Bool) : State :=
  { s with triggered := update s.triggered l v }

/-- The kernel sets a flag. -/
def trigger (s : State) (l : Loc) : State :=
  { s.setTriggered l true with pending := update s.pending l true }

/-- The handler that runs here, if any. -/
def ready (s : State) (window : Int) (place : Place) : Option Loc :=
  (s.locAt window (s.typeAt window place) place).filter fun l =>
    s.triggered l && s.handlerFunction l

/-- The loop of `handleEvent` is past the last widget. -/
def done (s : State) (window : Int) : Place → Bool
  | .fileSystem => false
  | .widget i => (s.layout window).widgetsNum ≤ i

/-- Test the flag at a place: leave the loop, start the function, or go on. -/
def test (s : State) (window : Int) (place : Place) (rest : List Frame) : State :=
  if s.done window place then
    { s with stack := rest }
  else
    match s.ready window place with
    | some l =>
      { s with
        stack := ⟨window, .run place (s.typeAt window place)⟩ :: rest
        pending := update s.pending l false }
    | none => { s with stack := ⟨window, .test (next place)⟩ :: rest }

/-- Clear the flag of the handler that has run. -/
def clear (s : State) (window : Int) (place : Place) (type : Option WidgetType)
    (rest : List Frame) : State :=
  let s := { s with stack := ⟨window, .test (next place)⟩ :: rest }
  match s.locAt window type place with
  | some l => s.setTriggered l false
  | none => s

/-- Application code runs: outside `handleEvent`, or in a function it called. -/
def InCode (s : State) : Prop :=
  match s.stack with
  | [] => True
  | f :: _ => match f.phase with
    | .run _ _ => True
    | _ => False

instance (s : State) : Decidable s.InCode :=
  match h : s.stack with
  | [] => isTrue (by simp [InCode, h])
  | ⟨_, .run _ _⟩ :: _ => isTrue (by simp [InCode, h])
  | ⟨_, .test _⟩ :: _ => isFalse (by simp [InCode, h])
  | ⟨_, .clear _ _⟩ :: _ => isFalse (by simp [InCode, h])

end State

/-- What happens to a process. -/
inductive Event where
  /-- The kernel sets a flag. -/
  | trigger (l : Loc)
  /-- Application code calls `handleEvent`. -/
  | handleEvent (window : Int)
  /-- Application code sets flags to 0 and writes widgets and functions. -/
  | write (zeroed : List Loc) (layout : Int → Layout) (handlerFunction : Loc → Bool)
  /-- `handleEvent` makes its next step. -/
  | advance
  /-- The function of the handler returns. -/
  | return

namespace State

/-- One event. -/
def step (s : State) : Event → Option State
  | .trigger l => some (s.trigger l)
  | .handleEvent window =>
    if s.InCode then some { s with stack := ⟨window, .test .fileSystem⟩ :: s.stack } else none
  | .write zeroed layout handlerFunction =>
    if s.InCode then
      some { s with
        triggered := fun l => s.triggered l && l ∉ zeroed
        layout := layout
        handlerFunction := handlerFunction }
    else none
  | .advance =>
    match s.stack with
    | ⟨window, .test place⟩ :: rest => some (s.test window place rest)
    | ⟨window, .clear place type⟩ :: rest => some (s.clear window place type rest)
    | _ => none
  | .return =>
    match s.stack with
    | ⟨window, .run place type⟩ :: rest =>
      some { s with stack := ⟨window, .clear place type⟩ :: rest }
    | _ => none

/-! ## Triggers that are not lost -/

/-- The flag a call of `handleEvent` clears when the function it runs has
returned, with the widgets as they are. -/
def clears (s : State) (f : Frame) : Option Loc :=
  match f.phase with
  | .test _ => none
  | .run place type => s.locAt f.window type place
  | .clear place type => s.locAt f.window type place

/-- A handler is running. -/
def Running (s : State) (l : Loc) : Prop := ∃ f ∈ s.stack, s.clears f = some l
  deriving Decidable

/-- A trigger that waits for an invocation has its flag set, and no call of
`handleEvent` will clear it. -/
def Kept (s : State) : Prop := ∀ l, s.pending l = true → s.triggered l = true ∧ ¬ s.Running l

variable {s t : State}

/-- A step that changes neither flags nor widgets, and adds no invocation. -/
theorem Kept.of_stack (h : s.Kept) {stack : List Frame}
    (hs : ∀ f ∈ stack, ∀ l, s.clears f = some l → s.Running l) :
    ({ s with stack := stack } : State).Kept := by
  intro l hl
  obtain ⟨set, idle⟩ := h l hl
  refine ⟨set, ?_⟩
  rintro ⟨f, hf, hc⟩
  exact idle (hs f hf l hc)

theorem trigger_triggered (s : State) (l : Loc) :
    (s.trigger l).triggered = update s.triggered l true := rfl

theorem trigger_pending (s : State) (l : Loc) :
    (s.trigger l).pending = update s.pending l true := rfl

theorem Kept.trigger (h : s.Kept) {l : Loc} (hg : ¬ s.Running l) : (s.trigger l).Kept := by
  intro l' hl'
  rw [trigger_triggered]
  by_cases e : l' = l
  · subst e
    rw [Function.update_self]
    exact ⟨rfl, hg⟩
  · rw [trigger_pending, update_of_ne e] at hl'
    obtain ⟨set, idle⟩ := h l' hl'
    rw [update_of_ne e]
    exact ⟨set, idle⟩

theorem Kept.test (h : s.Kept) {window : Int} {place : Place} {rest : List Frame}
    (hs : s.stack = ⟨window, .test place⟩ :: rest) : (s.test window place rest).Kept := by
  have tail : ∀ f ∈ rest, ∀ l, s.clears f = some l → s.Running l := by
    intro f hf l hc
    exact ⟨f, hs ▸ .tail _ hf, hc⟩
  rw [State.test]
  split
  · exact h.of_stack tail
  · split
    · rename_i l hready
      have here : s.locAt window (s.typeAt window place) place = some l :=
        (Option.filter_eq_some_iff.mp hready).1
      intro l' hl'
      change update s.pending l false l' = true at hl'
      have ne : l' ≠ l := by
        rintro rfl
        rw [Function.update_self] at hl'
        cases hl'
      rw [update_of_ne ne] at hl'
      obtain ⟨set, idle⟩ := h l' hl'
      refine ⟨set, ?_⟩
      rintro ⟨f, hf, hc⟩
      obtain rfl | hf := List.mem_cons.mp hf
      · exact ne (Option.some.inj (hc.symm.trans here))
      · exact idle (tail f hf l' hc)
    · refine h.of_stack ?_
      intro f hf l hc
      obtain rfl | hf := List.mem_cons.mp hf
      · cases hc
      · exact tail f hf l hc

theorem Kept.clear (h : s.Kept) {window : Int} {place : Place} {type : Option WidgetType}
    {rest : List Frame} (hs : s.stack = ⟨window, .clear place type⟩ :: rest) :
    (s.clear window place type rest).Kept := by
  have moved : ({ s with stack := ⟨window, .test (next place)⟩ :: rest } : State).Kept := by
    refine h.of_stack ?_
    intro f hf l hc
    obtain rfl | hf := List.mem_cons.mp hf
    · cases hc
    · exact ⟨f, hs ▸ .tail _ hf, hc⟩
  rw [State.clear]
  split
  · rename_i l hl
    intro l' hl'
    obtain ⟨set, idle⟩ := moved l' hl'
    refine ⟨?_, idle⟩
    have ne : l' ≠ l := by
      rintro rfl
      have top : (⟨window, .clear place type⟩ : Frame) ∈ s.stack := by
        rw [hs]
        exact .head _
      exact (h l' hl').2 ⟨⟨window, .clear place type⟩, top, hl⟩
    change update s.triggered l false l' = true
    rw [update_of_ne ne]
    exact set
  · exact moved

/-- A trigger comes while no invocation of its handler runs, and application
code neither zeroes the flag of a waiting trigger nor moves the widgets so that
a running invocation will clear it. -/
def KeepsTriggers (s : State) : Event → Prop
  | .trigger l => ¬ s.Running l
  | .write zeroed layout _ =>
    (∀ l ∈ zeroed, s.pending l = false) ∧
      ∀ f ∈ s.stack, ∀ l ∈ ({ s with layout := layout } : State).clears f, s.pending l = false
  | _ => True

instance (s : State) : ∀ e, Decidable (s.KeepsTriggers e)
  | .trigger _ => inferInstanceAs (Decidable (¬ _))
  | .write _ _ _ => inferInstanceAs (Decidable (_ ∧ _))
  | .handleEvent _ | .advance | .return => inferInstanceAs (Decidable True)

theorem step_kept {e : Event} (h : s.Kept) (hg : s.KeepsTriggers e) (hs : s.step e = some t) :
    t.Kept := by
  cases e with
  | trigger l =>
    cases hs
    exact h.trigger hg
  | handleEvent window =>
    obtain ⟨_, hs⟩ := Option.ite_none_right_eq_some.mp hs
    cases hs
    refine h.of_stack ?_
    intro f hf l hc
    obtain rfl | hf := List.mem_cons.mp hf
    · cases hc
    · exact ⟨f, hf, hc⟩
  | write zeroed layout handlerFunction =>
    obtain ⟨_, hs⟩ := Option.ite_none_right_eq_some.mp hs
    cases hs
    intro l hl
    refine ⟨?_, ?_⟩
    · have kept : l ∉ zeroed := by
        intro hz
        rw [hg.1 l hz] at hl
        cases hl
      simp [(h l hl).1, kept]
    · rintro ⟨f, hf, hc⟩
      rw [hg.2 f hf l hc] at hl
      cases hl
  | advance =>
    simp only [step] at hs
    split at hs
    · rename_i stack
      cases hs
      exact h.test stack
    · rename_i stack
      cases hs
      exact h.clear stack
    · cases hs
  | «return» =>
    simp only [step] at hs
    split at hs
    · rename_i window place type rest stack
      cases hs
      refine h.of_stack ?_
      intro f hf l hc
      obtain rfl | hf := List.mem_cons.mp hf
      · have top : (⟨window, .run place type⟩ : Frame) ∈ s.stack := by
          rw [stack]
          exact .head _
        exact ⟨⟨window, .run place type⟩, top, hc⟩
      · exact ⟨f, stack ▸ .tail _ hf, hc⟩
    · cases hs

/-- Nothing was triggered yet. -/
def Initial (s : State) : Prop := s.stack = [] ∧ ∀ l, s.pending l = false

/-- In every run whose steps all keep waiting triggers, a trigger that no later
invocation of its handler has followed still has its flag set. -/
theorem trigger_not_lost {s₀ : State} {es : List Event} (init : s₀.Initial)
    (run : Runs.Steps (Runs.Guarded (fun s e t => s.step e = some t) KeepsTriggers) s₀ es s)
    {l : Loc} (hl : s.pending l = true) : s.triggered l = true := by
  have start : s₀.Kept := by
    intro l hl
    rw [init.2 l] at hl
    cases hl
  have kept : s.Kept := run.invariant start fun h hs => step_kept h hs.1 hs.2
  exact (kept l hl).1

/-- A window without widgets, whose handler has a function. -/
def sampleApp : State where
  triggered _ := false
  handlerFunction _ := true
  layout _ := ⟨0, fun _ => ⟨none, 0⟩⟩
  stack := []
  pending _ := false

/-- The function runs once, and another trigger comes when `handleEvent` is
done with it. -/
def sampleKept : List Event :=
  [.trigger (.fileSystem 0), .handleEvent 0, .advance, .return, .advance, .trigger (.fileSystem 0)]

theorem trigger_not_lost_sample :
    ∃ s, Runs.Steps (Runs.Guarded (fun s e t => s.step e = some t) KeepsTriggers)
      sampleApp sampleKept s ∧ s.pending (.fileSystem 0) = true ∧
        s.triggered (.fileSystem 0) = true := by
  have found : (Runs.exec (Runs.guardedBy step KeepsTriggers) sampleApp sampleKept).any
      (fun s => s.pending (.fileSystem 0)) = true := by
    decide +kernel
  cases hs : Runs.exec (Runs.guardedBy step KeepsTriggers) sampleApp sampleKept with
  | none =>
    rw [hs] at found
    cases found
  | some s =>
    rw [hs] at found
    have run := Runs.Steps.of_exec_guardedBy hs
    exact ⟨s, run, found, trigger_not_lost ⟨rfl, fun _ => rfl⟩ run found⟩

/-- A second trigger comes while the function runs.  When it returns,
`handleEvent` clears the flag. -/
theorem trigger_not_lost_during_handler :
    ∃ s, sampleApp.Initial ∧ Runs.Steps (fun s e t => step s e = some t) sampleApp
      [.trigger (.fileSystem 0), .handleEvent 0, .advance, .trigger (.fileSystem 0), .return,
        .advance] s ∧
        s.pending (.fileSystem 0) = true ∧ s.triggered (.fileSystem 0) = false :=
  ⟨_, ⟨rfl, fun _ => rfl⟩, .of_exec rfl, rfl, rfl⟩

end State

end Xv6Gui.App
