import Xv6Gui.Gui.Frame
import Xv6Gui.Mouse.Handlers

/-!
# Ownership of the focused icon

`focusIcon` is used under the page table of `lastWindow->proc`.  A click raises
a window only after `focusDismiss`, so clicks keep the focused icon an icon of
the last window.  `sys_createWindow`, `sys_deleteWindow` and the start of a drag
change `lastWindow` without dismissing the focus.
-/

namespace Xv6Gui

open Runs (bind_some)
open Option (map_eq_some_iff)

namespace Gui

variable {s t : Gui}

variable {addr : Int} {window : Window} {q : Node}

/-- The focused icon is an icon of the last window, now and at every call of a
focus function so far. -/
structure FocusOwned (s : Gui) : Prop where
  calls : ∀ c ∈ s.focusCalls, c.Owned
  now : s.focusCall.Owned

/-! ## Redraws -/

theorem Redrawn.focusCall (h : Redrawn s t) : t.focusCall = s.focusCall := by
  simp only [Gui.focusCall, lastEntry, h.queue, h.focusIcon, h.focusOwner, h.icons]

theorem Redrawn.focusOwned (h : Redrawn s t) (ho : s.FocusOwned) : t.FocusOwned where
  calls := h.focusCalls ▸ ho.calls
  now := h.focusCall ▸ ho.now

/-- Without an icon in focus any window may become the last one. -/
theorem FocusOwned.of_null (hc : ∀ c ∈ s.focusCalls, c.Owned) (hn : s.focusIcon = 0) :
    s.FocusOwned where
  calls := hc
  now h := absurd hn h

theorem FocusOwned.drawMouse (h : s.FocusOwned) : s.drawMouse.FocusOwned := ⟨h.calls, h.now⟩

theorem FocusOwned.setMousePosition (h : s.FocusOwned) (x y : Int) :
    (s.setMousePosition x y).FocusOwned := ⟨h.calls, h.now⟩

theorem FocusOwned.updateBackWindows (ho : s.FocusOwned) (h : s.updateBackWindows = some t) :
    t.FocusOwned := by
  obtain ⟨u, hu, rfl⟩ := updateBackWindows_eq_some h
  exact ((moveFrame_unmoved u _ _).focusOwned (hu.focusOwned ho)).drawMouse

theorem FocusOwned.updateLastWindow (ho : s.FocusOwned) (h : s.updateLastWindow = some t) :
    t.FocusOwned := by
  obtain ⟨u, hu, rfl⟩ := updateLastWindow_eq_some h
  exact ((moveFrame_unmoved u _ _).focusOwned (hu.focusOwned ho)).drawMouse

/-! ## The focus functions -/

/-- Writes to icons and pixels, which no part of `focusCall` reads. -/
structure IconsWritten (s t : Gui) : Prop where
  queue : t.queue = s.queue
  window : t.window = s.window
  focusIcon : t.focusIcon = s.focusIcon
  focusOwner : t.focusOwner = s.focusOwner
  focusCalls : t.focusCalls = s.focusCalls

/-- They are no part of the pointer, and the process stays the same. -/
structure Painted (s t : Gui) : Prop extends IconsWritten s t where
  mouseInfo : t.mouseInfo = s.mouseInfo
  proc : t.proc = s.proc

theorem Painted.refl (s : Gui) : Painted s s := ⟨⟨rfl, rfl, rfl, rfl, rfl⟩, rfl, rfl⟩

theorem Painted.trans {u : Gui} (h : Painted s t) (k : Painted t u) : Painted s u :=
  ⟨⟨k.queue.trans h.queue, k.window.trans h.window, k.focusIcon.trans h.focusIcon,
    k.focusOwner.trans h.focusOwner, k.focusCalls.trans h.focusCalls⟩,
    k.mouseInfo.trans h.mouseInfo, k.proc.trans h.proc⟩

theorem storeIcon_painted {icon : IconView} (h : s.storeIcon addr icon = some t) :
    Painted s t := by
  obtain ⟨p, _, rfl⟩ := map_eq_some_iff.mp h
  exact ⟨⟨rfl, rfl, rfl, rfl, rfl⟩, rfl, rfl⟩

theorem drawFocus_painted (h : s.drawFocus window = some t) :
    Painted s t := by
  simp only [drawFocus, bind_some] at h
  obtain ⟨icon, _, h⟩ := h
  rw [← Option.some.inj h]
  exact ⟨⟨rfl, rfl, rfl, rfl, rfl⟩, rfl, rfl⟩

theorem restoreFocus_painted (h : s.restoreFocus window = some t) :
    Painted s t := by
  simp only [restoreFocus, bind_some] at h
  obtain ⟨icon, _, u, hu, h⟩ := h
  exact (storeIcon_painted hu).trans (drawFocus_painted h)

theorem clearFocus_painted (h : s.clearFocus = some t) : Painted s t := by
  simp only [clearFocus, bind_some] at h
  obtain ⟨icon, _, u, hu, h⟩ := h
  rw [← Option.some.inj h]
  exact (storeIcon_painted hu).trans ⟨⟨rfl, rfl, rfl, rfl, rfl⟩, rfl, rfl⟩

theorem takeFocus_painted (h : s.takeFocus window = some t) :
    Painted s t := by
  simp only [takeFocus, bind_some] at h
  obtain ⟨icon, _, u, hu, h⟩ := h
  have saved : Painted s (s.saveUnder window icon) := by
    refine ⟨⟨?_, ?_, ?_, ?_, ?_⟩, ?_, ?_⟩ <;> rw [saveUnder]
  exact (saved.trans (storeIcon_painted hu)).trans (drawFocus_painted h)

theorem undrawFocus_painted (h : s.undrawFocus window = some t) :
    Painted s t := by
  rw [undrawFocus] at h
  split at h
  · rw [← Option.some.inj h]
    exact .refl s
  · exact restoreFocus_painted h

theorem leaveFocus_painted (h : s.leaveFocus window = some t) :
    Painted s t := by
  rw [leaveFocus] at h
  split at h
  · rw [← Option.some.inj h]
    exact .refl s
  · obtain ⟨u, hu, h⟩ := bind_some.mp h
    exact (restoreFocus_painted hu).trans (clearFocus_painted h)

/-- The call a focus function records is owned when the focus is. -/
theorem FocusOwned.enterFocus (h : s.FocusOwned) : s.enterFocus.FocusOwned where
  calls c hc := by
    obtain hc | hc := List.mem_append.mp hc
    · exact h.calls c hc
    · rw [List.mem_singleton.mp hc]
      exact h.now
  now := h.now

/-- `focusDismiss` leaves no icon in focus, and the queue and the windows as
they were. -/
theorem FocusOwned.focusDismiss (ho : s.FocusOwned) (h : s.focusDismiss = some t) :
    t.FocusOwned ∧ t.focusIcon = 0 ∧ t.queue = s.queue ∧ t.window = s.window := by
  simp only [Gui.focusDismiss, bind_some] at h
  obtain ⟨s₁, h₁, window, _, s₂, h₂, s₃, h₃, h₄⟩ := h
  have e := switchuvm_eq_some h₁
  have written := (undrawFocus_painted h₂).trans (clearFocus_painted h₃)
  have calls : ∀ c ∈ s₃.focusCalls, c.Owned := by
    rw [written.focusCalls, e]
    exact ho.enterFocus.calls
  rw [switchBack_eq_some h₄]
  refine ⟨.of_null calls rfl, rfl, ?_, ?_⟩
  · exact written.queue.trans (by rw [e]; rfl)
  · exact written.window.trans (by rw [e]; rfl)

/-- `focusIconView` with an icon of the last window, read under the page table
of its process. -/
theorem FocusOwned.focusIconView {icon : Int} (ho : s.FocusOwned)
    (hl : s.loaded = s.lastEntry.proc) (hi : icon ∈ s.focusCall.icons)
    (h : s.focusIconView icon = some t) : t.FocusOwned := by
  simp only [Gui.focusIconView, bind_some] at h
  obtain ⟨s₁, h₁, h⟩ := h
  have e := switchuvm_eq_some h₁
  split at h
  · rw [← Option.some.inj h]
    exact (switchuvm_unmoved h₁).focusOwned ho.enterFocus
  · simp only [moveFocus, bind_some] at h
    obtain ⟨window, _, s₂, h₂, s₃, h₃, h₄⟩ := h
    have left := leaveFocus_painted h₂
    have taken := takeFocus_painted h₃
    have hq : s₃.queue = s.queue := taken.queue.trans (left.queue.trans (by rw [e]; rfl))
    have hw : s₃.window = s.window := taken.window.trans (left.window.trans (by rw [e]; rfl))
    refine (switchBack_unmoved h₄).focusOwned ⟨?_, ?_⟩
    · rw [taken.focusCalls]
      change ∀ c ∈ s₂.focusCalls, c.Owned
      rw [left.focusCalls, e]
      exact ho.enterFocus.calls
    · intro _
      simp only [Gui.focusCall, lastEntry, hq, hw, taken.focusIcon, taken.focusOwner]
      exact ⟨hl, hi⟩

/-! ## Handlers -/

/-- No icon is in focus and every call so far was owned. -/
def Unfocused (s : Gui) : Prop := (∀ c ∈ s.focusCalls, c.Owned) ∧ s.focusIcon = 0

theorem Unfocused.focusOwned (h : s.Unfocused) : s.FocusOwned := .of_null h.1 h.2

theorem Redrawn.unfocused (h : Redrawn s t) (hu : s.Unfocused) : t.Unfocused :=
  ⟨h.focusCalls ▸ hu.1, h.focusIcon.trans hu.2⟩

theorem Unfocused.updateBackWindows (hu : s.Unfocused) (h : s.updateBackWindows = some t) :
    t.Unfocused ∧ t.queue = s.queue := by
  obtain ⟨u, hr, rfl⟩ := updateBackWindows_eq_some h
  exact ⟨(moveFrame_unmoved u screen screenTemp2).unfocused (hr.unfocused hu), hr.queue⟩

theorem storeWindow_unfocused {w : Window} (hu : s.Unfocused)
    (h : s.storeWindow addr w = some t) : t.Unfocused := by
  obtain ⟨p, _, rfl⟩ := map_eq_some_iff.mp h
  exact hu

theorem storeWidget_unfocused {k : Int} {widget : Widget} (hu : s.Unfocused)
    (h : s.storeWidget addr k widget = some t) : t.Unfocused := by
  simp only [storeWidget, bind_some] at h
  obtain ⟨w, _, h⟩ := h
  exact storeWindow_unfocused hu h

theorem FocusOwned.dismissFor (ho : s.FocusOwned) (h : s.dismissFor q = some t) :
    t.Unfocused := by
  simp only [Gui.dismissFor, bind_some] at h
  obtain ⟨u, hu, h⟩ := h
  obtain ⟨owned, null, -, -⟩ := ho.focusDismiss hu
  exact (switchuvm_unmoved h).unfocused ⟨owned.calls, null⟩

/-- The walk back over the queue changes the page table only, to the one of the
window it finds. -/
theorem windowAt_eq_some {x y : Int} {fuel : Nat} {p hit : Option Node}
    (h : s.windowAt x y fuel p = some (t, hit)) :
    Unmoved s t ∧ ∀ q, hit = some q → t.loaded = (t.queue.entry q).proc := by
  induction fuel generalizing s p with
  | zero =>
    cases p with
    | none =>
      cases h
      exact ⟨.refl _, fun q hq => by cases hq⟩
    | some p => cases h
  | succ fuel ih =>
    cases p with
    | none =>
      cases h
      exact ⟨.refl _, fun q hq => by cases hq⟩
    | some p =>
      simp only [windowAt, bind_some] at h
      obtain ⟨u, hu, w, _, h⟩ := h
      have e := switchuvm_eq_some hu
      split at h
      · cases h
        refine ⟨switchuvm_unmoved hu, ?_⟩
        intro q hq
        cases hq
        rw [e]
      · obtain ⟨hr, hq⟩ := ih h
        exact ⟨(switchuvm_unmoved hu).trans hr, hq⟩

theorem getClickedWidget_mem {w : Window} {k : Int}
    (h : s.getClickedWidget w = some (some k)) (hk : w.widgets k = .iconView addr) :
    addr ∈ w.icons := by
  simp only [getClickedWidget, bind_some] at h
  obtain ⟨p, _, h⟩ := h
  have hm := List.mem_of_find?_eq_some (Option.some.inj h)
  refine List.mem_filterMap.mpr ⟨k, List.mem_reverse.mp hm, ?_⟩
  rw [hk]

/-- A click on the last window. -/
theorem FocusOwned.clickWidget (ho : s.FocusOwned) (hl : s.loaded = s.lastEntry.proc)
    (h : s.clickWidget s.queue.lastWindow = some t) : t.FocusOwned := by
  simp only [Gui.clickWidget, bind_some] at h
  obtain ⟨w, hw, hit, hh, h⟩ := h
  cases hit with
  | none => exact (ho.dismissFor h).focusOwned
  | some k =>
    simp only at h
    split at h
    · obtain ⟨u, hu, h⟩ := bind_some.mp h
      exact (storeWidget_unfocused (ho.dismissFor hu) h).focusOwned
    · obtain ⟨u, hu, h⟩ := bind_some.mp h
      exact (storeWidget_unfocused (ho.dismissFor hu) h).focusOwned
    · rename_i icon hk
      refine ho.focusIconView hl ?_ h
      obtain ⟨p, hp, rfl⟩ := map_eq_some_iff.mp hw
      have mem := getClickedWidget_mem hh hk
      simp only [Gui.focusCall, ← hl, hp, Option.map_some, Option.getD_some]
      exact mem
    · exact (ho.dismissFor h).focusOwned

theorem FocusOwned.switchBack (ho : s.FocusOwned) (h : s.switchBack = some t) : t.FocusOwned :=
  (switchBack_unmoved h).focusOwned ho

theorem reorderQueue_last {a b : Queue} (h : a.reorderQueue q = some b) :
    b.lastWindow = q := by
  simp only [Queue.reorderQueue, bind_some] at h
  obtain ⟨_, _, _, _, _, _, _, _, h⟩ := h
  rw [← Option.some.inj h]
  rfl

/-- Raising a window is safe without an icon in focus. -/
theorem Unfocused.reorderQueue (hu : s.Unfocused) (h : s.reorderQueue q = some t) :
    t.Unfocused ∧ t.queue.lastWindow = q := by
  simp only [Gui.reorderQueue, bind_some] at h
  obtain ⟨queue, hq, h⟩ := h
  obtain ⟨unfocused, same⟩ := Unfocused.updateBackWindows (s := { s with queue := queue }) hu h
  exact ⟨unfocused, by rw [same]; exact reorderQueue_last hq⟩

theorem FocusOwned.handleLeftClick (ho : s.FocusOwned) (h : s.handleLeftClick = some t) :
    t.FocusOwned := by
  simp only [Gui.handleLeftClick, bind_some] at h
  obtain ⟨⟨s₁, hit⟩, h₁, h⟩ := h
  obtain ⟨redrawn, loaded⟩ := windowAt_eq_some h₁
  have ho₁ := redrawn.focusOwned ho
  cases hit with
  | none => exact ho₁.switchBack h
  | some q =>
    simp only at h
    split at h
    · rename_i hq
      obtain ⟨u, hu, h⟩ := bind_some.mp h
      rw [hq] at hu loaded
      exact (ho₁.clickWidget (loaded _ rfl) hu).switchBack h
    · split at h
      · exact ho₁.switchBack h
      · simp only [bind_some] at h
        obtain ⟨s₂, h₂, s₃, h₃, s₄, h₄, s₅, h₅, h⟩ := h
        obtain ⟨owned, null, -, -⟩ := ho₁.focusDismiss h₂
        obtain ⟨unfocused, last⟩ := Unfocused.reorderQueue ⟨owned.calls, null⟩ h₃
        have e := switchuvm_eq_some h₄
        have owned₄ := (switchuvm_unmoved h₄).focusOwned unfocused.focusOwned
        have last₄ : s₄.queue.lastWindow = q := by rw [e]; exact last
        rw [← last₄] at h₅
        refine (owned₄.clickWidget ?_ h₅).switchBack h
        rw [lastEntry, last₄, e]

theorem Unfocused.doubleClickWidget (hu : s.Unfocused)
    (h : s.doubleClickWidget q = some t) : t.Unfocused := by
  simp only [Gui.doubleClickWidget, bind_some] at h
  obtain ⟨w, _, hit, _, h⟩ := h
  cases hit with
  | none =>
    rw [← Option.some.inj h]
    exact hu
  | some k =>
    simp only at h
    split at h
    · obtain ⟨i, _, h⟩ := bind_some.mp h
      have written := storeIcon_painted h
      exact ⟨written.focusCalls ▸ hu.1, written.focusIcon.trans hu.2⟩
    · rw [← Option.some.inj h]
      exact hu

theorem FocusOwned.handleLeftDoubleClick (ho : s.FocusOwned)
    (h : s.handleLeftDoubleClick = some t) : t.FocusOwned := by
  simp only [Gui.handleLeftDoubleClick, bind_some] at h
  obtain ⟨⟨s₁, hit⟩, h₁, h⟩ := h
  have ho₁ := (windowAt_eq_some h₁).1.focusOwned ho
  cases hit with
  | none => exact ho₁.switchBack h
  | some q =>
    simp only [bind_some] at h
    obtain ⟨s₂, h₂, s₃, h₃, h⟩ := h
    exact ((ho₁.dismissFor h₂).doubleClickWidget h₃).focusOwned.switchBack h

theorem FocusOwned.handleRightClick (ho : s.FocusOwned) (h : s.handleRightClick = some t) :
    t.FocusOwned := by
  simp only [Gui.handleRightClick, bind_some] at h
  obtain ⟨⟨s₁, hit⟩, h₁, h⟩ := h
  exact ((windowAt_eq_some h₁).1.focusOwned ho).switchBack h

theorem FocusOwned.moveWindow {fx fy tx ty : Int} {isdraw : Bool} (ho : s.FocusOwned)
    (h : s.moveWindow addr fx fy tx ty isdraw = some t) : t.FocusOwned := by
  simp only [Gui.moveWindow, bind_some] at h
  obtain ⟨w, hw, s₁, h₁, h⟩ := h
  have ho₁ := (storeWindow_redrawn hw (by rfl) h₁).focusOwned ho
  split at h
  · exact ho₁.updateLastWindow h
  · rw [← Option.some.inj h]
    exact ho₁

/-! ## Calls -/

/-- A creation that finds no slot changes nothing; without an icon in focus any
creation is safe. -/
theorem FocusOwned.sysCreateWindow {arg : Option Int} {r : Int} (ho : s.FocusOwned)
    (hg : s.focusIcon = 0 ∨ arg = none ∨ s.queue.acquireWindow = none)
    (h : s.sysCreateWindow arg = some (r, t)) : t.FocusOwned := by
  simp only [Gui.sysCreateWindow, bind_some] at h
  obtain ⟨p, _, ⟨r', queue⟩, hq, h⟩ := h
  split at h
  · cases h
    exact ho
  · rename_i hr
    obtain ⟨u, hu, h⟩ := bind_some.mp h
    cases h
    obtain null | rest := hg
    · exact FocusOwned.updateBackWindows (s := { s with queue := queue })
        (.of_null ho.calls null) hu
    · have failed : s.queue.sysCreateWindow p arg = some (-1, s.queue) := by
        obtain rfl | full := rest
        · rfl
        · cases arg with
          | none => rfl
          | some window => rw [Queue.sysCreateWindow, full]
      rw [failed] at hq
      cases hq
      exact absurd (show (-1 : Int) < 0 by decide) hr

/-- Deleting another entry than the last window keeps the last window and its
owner. -/
theorem deleteFrom_last {a b : Queue} {hWind r : Int} {fuel : Nat} {p : Node}
    (hn : ∀ i, Queue.windowLineAt hWind = some i → .windowLine i ≠ a.lastWindow)
    (h : a.deleteFrom hWind fuel p = some (r, b)) :
    b.lastWindow = a.lastWindow ∧ b.owner a.lastWindow = a.owner a.lastWindow := by
  induction fuel generalizing p with
  | zero => cases h
  | succ fuel ih =>
    rw [Queue.deleteFrom] at h
    split at h
    · cases h
      exact ⟨rfl, rfl⟩
    · rename_i d _
      split at h
      · rename_i hd
        obtain ⟨i, hi, rfl⟩ := map_eq_some_iff.mp hd.symm
        have ne := hn i hi
        cases h
        rw [Queue.deleteAfter]
        split <;> simp [Queue.retreatLast, ne, ne.symm]
      · exact ih h

theorem FocusOwned.sysDeleteWindow {arg : Option Int} {r : Int} (ho : s.FocusOwned)
    (hg : s.focusIcon = 0 ∨ ∀ hWind i, arg = some hWind →
      Queue.windowLineAt hWind = some i → .windowLine i ≠ s.queue.lastWindow)
    (h : s.sysDeleteWindow arg = some (r, t)) : t.FocusOwned := by
  simp only [Gui.sysDeleteWindow, bind_some] at h
  obtain ⟨⟨r', queue⟩, hq, h⟩ := h
  split at h
  · cases h
    exact ho
  · rename_i hr
    obtain ⟨u, hu, h⟩ := bind_some.mp h
    cases h
    obtain null | other := hg
    · exact FocusOwned.updateBackWindows (s := { s with queue := queue })
        (.of_null ho.calls null) hu
    · cases arg with
      | none =>
        cases hq
        exact absurd (show (-1 : Int) < 0 by decide) hr
      | some hWind =>
        obtain ⟨last, owner⟩ := deleteFrom_last (fun i hi => other hWind i rfl hi) hq
        refine FocusOwned.updateBackWindows (s := { s with queue := queue }) ⟨ho.calls, ?_⟩ hu
        have hp := congrArg Prod.fst owner
        have hw := congrArg Prod.snd owner
        simp only [Queue.owner] at hp hw
        have now := ho.now
        simp only [Gui.focusCall, lastEntry, last, hp, hw] at now ⊢
        exact now

end Gui

namespace Mouse

variable {s t : Mouse}

/-- The window under the position where the button went down would be raised. -/
def raised (s : Mouse) : Bool :=
  match s.getDraggedWindowQueue with
  | some (_, some q) => q ≠ s.gui.queue.lastWindow ∧ q ≠ .windowLine 0
  | _ => false

/-- The start of a drag raises a window. -/
def RaisesByDrag (s : Mouse) : Prop := s.dragState = 0 ∧ s.raised
  deriving Decidable

theorem getDraggedWindowQueue_unmoved {g : Gui} {hit : Option Node}
    (h : s.getDraggedWindowQueue = some (g, hit)) : Gui.Unmoved s.gui g := by
  rw [getDraggedWindowQueue] at h
  split at h
  · cases h
    exact .refl _
  · simp only [bind_some] at h
    obtain ⟨⟨g₁, hit₁⟩, h₁, h⟩ := h
    have redrawn := (Gui.windowAt_eq_some h₁).1
    cases hit₁ with
    | none =>
      cases h
      exact redrawn
    | some p =>
      obtain ⟨w, _, h⟩ := bind_some.mp h
      cases h
      exact redrawn

theorem startDrag_focusOwned (ho : s.gui.FocusOwned) (hd : s.dragState = 0)
    (hg : s.RaisesByDrag → s.gui.focusIcon = 0) (h : s.startDrag = some t) :
    t.gui.FocusOwned := by
  simp only [startDrag, bind_some] at h
  obtain ⟨⟨g, hit⟩, h₁, h⟩ := h
  have redrawn := getDraggedWindowQueue_unmoved h₁
  have ho₁ := redrawn.focusOwned ho
  cases hit with
  | none =>
    cases h
    exact ho₁
  | some q =>
    simp only at h
    split at h
    · rename_i hq
      obtain ⟨g₂, h₂, h⟩ := bind_some.mp h
      cases h
      have null : s.gui.focusIcon = 0 := by
        refine hg ⟨hd, ?_⟩
        rw [raised, h₁]
        exact decide_eq_true ⟨redrawn.queue ▸ hq.1, hq.2⟩
      have unfocused : g.Unfocused := ⟨ho₁.calls, redrawn.focusIcon.trans null⟩
      exact (unfocused.reorderQueue h₂).1.focusOwned
    · cases h
      exact ho₁

/-- What a packet does to a drag. -/
inductive Drags (s : Mouse) : Mouse → Prop where
  | start {t : Mouse} (zero : s.dragState = 0) (h : s.startDrag = some t) : Drags s t
  | move {q : Node} {g g' : Gui} (zero : s.dragState ≠ 0) (queued : s.pwque = some q)
      (switched : s.gui.switchuvm (s.gui.queue.entry q).proc = some g)
      (moved : g.moveWindow (g.queue.entry q).window g.mouseInfo.xPosition g.mouseInfo.yPosition
        s.downPosX s.downPosY ((s.counter + 1) % 20 = 0) = some g') :
      Drags s { s with gui := g', counter := (s.counter + 1) % 20 }
  | idle (zero : s.dragState ≠ 0) (one : s.dragState ≠ 1) : Drags s s

theorem drag_cases (h : s.drag = some t) : s.Drags t := by
  rw [drag] at h
  split at h
  · rename_i zero
    exact .start zero h
  rename_i zero
  split at h
  · simp only [continueDrag, bind_some] at h
    obtain ⟨q, queued, g, switched, g', moved, h⟩ := h
    cases h
    exact .move zero queued switched moved
  · rename_i one
    cases h
    exact .idle zero one

/-- The handlers of the events. -/
inductive Dispatched (s : Mouse) : Int → Mouse → Prop where
  | left {g : Gui} (h : s.gui.handleLeftClick = some g) :
      Dispatched s leftClick { s with gui := g }
  | double {g : Gui} (h : s.gui.handleLeftDoubleClick = some g) :
      Dispatched s leftDoubleClick { s with gui := g }
  | drag {u : Mouse} {g : Gui} (drags : s.Drags u) (back : u.gui.switchBack = some g) :
      Dispatched s mouseDragging { u with gui := g }
  | right {g : Gui} (h : s.gui.handleRightClick = some g) :
      Dispatched s rightClick { s with gui := g }
  | settle {g : Gui} (one : s.dragState = 1) (h : s.gui.updateLastWindow = some g) :
      Dispatched s 0 { s with gui := g, dragState := 0 }
  | release (one : s.dragState ≠ 1) : Dispatched s 0 { s with dragState := 0 }
  | other {event : Int} (left : event ≠ leftClick) (double : event ≠ leftDoubleClick)
      (drag : event ≠ mouseDragging) (right : event ≠ rightClick) (zero : event ≠ 0) :
      Dispatched s event s

theorem dispatch_cases {event : Int} (h : s.dispatch event = some t) : s.Dispatched event t := by
  rw [dispatch] at h
  split at h
  · rename_i e
    obtain ⟨g, clicked, rfl⟩ := map_eq_some_iff.mp h
    exact e ▸ .left clicked
  rename_i left
  split at h
  · rename_i e
    obtain ⟨g, clicked, rfl⟩ := map_eq_some_iff.mp h
    exact e ▸ .double clicked
  rename_i double
  split at h
  · rename_i e
    simp only [handleMouseDrag, bind_some] at h
    obtain ⟨u, dragged, g, back, h⟩ := h
    cases h
    exact e ▸ .drag (drag_cases dragged) back
  rename_i drag
  split at h
  · rename_i e
    obtain ⟨g, clicked, rfl⟩ := map_eq_some_iff.mp h
    exact e ▸ .right clicked
  rename_i right
  split at h
  · rename_i e
    obtain ⟨g, settled, h⟩ := bind_some.mp h
    cases h
    rw [settleDrag] at settled
    split at settled
    · rename_i one
      exact e ▸ .settle one settled
    · rename_i one
      cases settled
      exact e ▸ .release one
  · rename_i zero
    cases h
    exact .other left double drag right zero

theorem dispatch_focusOwned {event : Int} (ho : s.gui.FocusOwned)
    (hg : event = mouseDragging → s.RaisesByDrag → s.gui.focusIcon = 0)
    (h : s.dispatch event = some t) : t.gui.FocusOwned := by
  cases dispatch_cases h with
  | left clicked => exact ho.handleLeftClick clicked
  | double clicked => exact ho.handleLeftDoubleClick clicked
  | drag drags back =>
    refine Gui.FocusOwned.switchBack ?_ back
    cases drags with
    | start zero dragged => exact startDrag_focusOwned ho zero (hg rfl) dragged
    | move zero queued switched moved =>
      exact ((Gui.switchuvm_unmoved switched).focusOwned ho).moveWindow moved
    | idle => exact ho
  | right clicked => exact ho.handleRightClick clicked
  | settle _ settled => exact ho.updateLastWindow settled
  | release | other => exact ho

/-- Decoding notes the event and changes the variables of the buttons. -/
theorem decodeEvent_frame (s : Mouse) (tick : UInt32) (x y : Int) :
    ∃ left px py right last, (s.decodeEvent tick x y).1 =
      { s with
        gui := { s.gui with
          mouseInfo := { s.gui.mouseInfo with event := (s.decodeEvent tick x y).2 } }
        leftBtnDown := left, downPosX := px, downPosY := py, rightBtnDown := right
        lastTick := last } := by
  have left : ∃ left px py last, (s.leftButton tick x y).1 =
      { s with leftBtnDown := left, downPosX := px, downPosY := py, lastTick := last } := by
    rw [leftButton]
    split
    · exact ⟨true, x, y, s.lastTick, rfl⟩
    split
    · dsimp only
      split
      · exact ⟨false, 0, 0, -30, rfl⟩
      · exact ⟨false, 0, 0, tick, rfl⟩
    · exact ⟨s.leftBtnDown, s.downPosX, s.downPosY, s.lastTick, rfl⟩
  have right : ∀ (m : Mouse) e, ∃ right, (m.rightButton e).1 = { m with rightBtnDown := right } := by
    intro m e
    rw [rightButton]
    split
    · exact ⟨true, rfl⟩
    split
    · exact ⟨false, rfl⟩
    · exact ⟨m.rightBtnDown, rfl⟩
  obtain ⟨l, px, py, last, left⟩ := left
  obtain ⟨r, right⟩ := right (s.leftButton tick x y).1 (s.leftButton tick x y).2
  refine ⟨l, px, py, r, last, ?_⟩
  simp only [decodeEvent]
  rw [right, left]

/-- Decoding a packet notes the event and changes nothing else of the graphical part. -/
theorem packetEvent_gui (s : Mouse) (tick : UInt32) (ch : UInt8) :
    (s.packetEvent tick ch).1.gui = { s.gui with
      mouseInfo := { s.gui.mouseInfo with event := (s.packetEvent tick ch).2 } } := by
  obtain ⟨l, px, py, r, last, frame⟩ := (s.readY ch).decodeEvent_frame tick
    (s.gui.mouseInfo.xPosition + s.disX) (s.gui.mouseInfo.yPosition + -movement ch s.ySign)
  exact congrArg Mouse.gui frame

/-- The byte completes a packet that starts a drag which raises a window. -/
def DragRaises (s : Mouse) (tick : UInt32) (status ch : UInt8) : Prop :=
  status &&& 0x01 ≠ 0 ∧ s.toRead = .yMovement ∧ (s.packetEvent tick ch).2 = mouseDragging ∧
    (s.packetEvent tick ch).1.RaisesByDrag
  deriving Decidable

theorem mouseint_focusOwned {tick : UInt32} {status ch : UInt8} (ho : s.gui.FocusOwned)
    (hg : s.DragRaises tick status ch → s.gui.focusIcon = 0)
    (h : s.mouseint tick status ch = some t) : t.gui.FocusOwned := by
  rw [mouseint] at h
  split at h
  · cases h
    exact ho
  rename_i ready
  split at h
  · split at h
    · cases h
      exact ho
    · cases h
      exact ho
  · cases h
    exact ho
  · rename_i third
    obtain ⟨u, hu, h⟩ := bind_some.mp h
    cases h
    have hi := packetEvent_gui s tick ch
    have ho₁ : (s.packetEvent tick ch).1.gui.FocusOwned := by
      rw [hi]
      exact ⟨ho.calls, ho.now⟩
    refine Gui.FocusOwned.setMousePosition (dispatch_focusOwned ho₁ ?_ hu) _ _
    intro hd hr
    rw [hi]
    exact hg ⟨ready, third, hd, hr⟩

end Mouse

/-! ## Runs -/

/-- What changes the focus. -/
inductive FocusEvent where
  | mouseint (tick : UInt32) (status ch : UInt8)
  | createWindow (arg : Option Int)
  | deleteWindow (arg : Option Int)
  | reorderQueue (q : Node)
  /-- Another process runs, or none. -/
  | schedule (p : Option ProcPtr)

namespace Mouse

/-- One event. -/
def step (s : Mouse) : FocusEvent → Option Mouse
  | .mouseint tick status ch => s.mouseint tick status ch
  | .createWindow arg => (s.gui.sysCreateWindow arg).map fun r => { s with gui := r.2 }
  | .deleteWindow arg => (s.gui.sysDeleteWindow arg).map fun r => { s with gui := r.2 }
  | .reorderQueue q => (s.gui.reorderQueue q).map fun g => { s with gui := g }
  | .schedule p => some { s with gui := { s.gui with proc := p, loaded := p } }

/-- After `initWindow` no window is queued and no icon is in focus. -/
structure AtBoot (s : Mouse) : Prop where
  queue : s.gui.queue = Queue.initWindow
  focusIcon : s.gui.focusIcon = 0
  focusCalls : s.gui.focusCalls = []

/-- No icon is in focus when the event gives `lastWindow` another window
without dismissing the focus. -/
def KeepsOwner (s : Mouse) : FocusEvent → Prop
  | .mouseint tick status ch => s.DragRaises tick status ch → s.gui.focusIcon = 0
  | .createWindow arg =>
    s.gui.focusIcon = 0 ∨ arg = none ∨ s.gui.queue.acquireWindow = none
  | .deleteWindow arg =>
    s.gui.focusIcon = 0 ∨
      (arg.bind Queue.windowLineAt).map .windowLine ≠ some s.gui.queue.lastWindow
  | .reorderQueue _ => s.gui.focusIcon = 0
  | .schedule _ => True

instance (s : Mouse) : ∀ e, Decidable (s.KeepsOwner e)
  | .mouseint _ _ _ => inferInstanceAs (Decidable (_ → _))
  | .createWindow _ => inferInstanceAs (Decidable (_ ∨ _))
  | .deleteWindow _ => inferInstanceAs (Decidable (_ ∨ _))
  | .reorderQueue _ => inferInstanceAs (Decidable (_ = _))
  | .schedule _ => inferInstanceAs (Decidable True)

theorem step_focusOwned {s t : Mouse} {e : FocusEvent} (ho : s.gui.FocusOwned)
    (hg : s.KeepsOwner e) (h : s.step e = some t) : t.gui.FocusOwned := by
  cases e with
  | mouseint tick status ch => exact mouseint_focusOwned ho hg h
  | createWindow arg =>
    obtain ⟨⟨r, g⟩, hr, rfl⟩ := map_eq_some_iff.mp h
    exact ho.sysCreateWindow hg hr
  | deleteWindow arg =>
    obtain ⟨⟨r, g⟩, hr, rfl⟩ := map_eq_some_iff.mp h
    refine ho.sysDeleteWindow (hg.imp_right ?_) hr
    rintro other hWind i rfl hi last
    rw [Option.bind_some, hi, Option.map_some, last] at other
    exact other rfl
  | reorderQueue q =>
    obtain ⟨g, hr, rfl⟩ := map_eq_some_iff.mp h
    exact (Gui.Unfocused.reorderQueue ⟨ho.calls, hg⟩ hr).1.focusOwned
  | schedule p =>
    cases h
    exact ⟨ho.calls, ho.now⟩

end Mouse

/-- From boot on, in every run in which no event takes the last window away
under a focused icon, every call of a focus function finds `focusIcon` null or
an icon of the last window, in the memory of its process. -/
theorem focusIcon_of_lastWindow {s₀ s : Mouse} {es : List FocusEvent} (boot : s₀.AtBoot)
    (run : Runs.Steps (Runs.Guarded (fun s e t => s.step e = some t) Mouse.KeepsOwner) s₀ es s) :
    s.gui.focusCall.Owned ∧ ∀ c ∈ s.gui.focusCalls, c.Owned := by
  have start : s₀.gui.FocusOwned := .of_null (by simp [boot.focusCalls]) boot.focusIcon
  have owned : s.gui.FocusOwned :=
    run.invariant (I := fun s => s.gui.FocusOwned) start fun ho h => Mouse.step_focusOwned ho h.1 h.2
  exact ⟨owned.now, owned.calls⟩

/-- The machine after `mouseinit`.  Process 1 has a window with an icon under
the pointer, process 2 a window without widgets in the same place. -/
def sampleBoot : Mouse where
  gui :=
    { queue := Queue.initWindow
      window := fun p _ =>
        { shown := 1, hasCaption := 1, hasMenu := false, hasFooter := false
          lastLeftTopX := 600, lastLeftTopY := 450, leftTopX := 600, leftTopY := 450
          width := 400, height := 300, caption := fun _ => 0
          widgetsNum := if p = 1 then 1 else 0
          widgets := fun _ => .iconView 64, onFileSystemChangedHandler := ⟨0, false⟩ }
      icon := fun _ _ => ⟨20, 40, 96, 96, fun _ => white, fun _ => 0, ⟨0, false⟩⟩
      pixels := fun _ => black
      mouseInfo := ⟨640, 512, 640, 512, 0⟩
      focusIcon := 0, background := fun _ => black, isBg := fun _ => false
      character := fun _ _ _ => false, loaded := some 1, proc := some 1
      focusOwner := none, focusCalls := [] }
  toRead := .mouseInfo
  leftDown := false
  rightDown := false
  xSign := false
  ySign := false
  counter := 0
  disX := 0
  disY := 0
  leftBtnDown := false
  downPosX := 0
  downPosY := 0
  rightBtnDown := false
  lastTick := -30
  dragState := 0
  pwque := none

/-- The left button goes down and up, without a movement. -/
def sampleClick (tick : UInt32) : List FocusEvent :=
  [.mouseint tick 1 9, .mouseint tick 1 0, .mouseint tick 1 0,
    .mouseint tick 1 8, .mouseint tick 1 0, .mouseint tick 1 0]

/-- Process 2 creates a window while an icon of process 1 is in focus.  The next
click dismisses the icon under the page table of process 2. -/
theorem focusIcon_of_lastWindow_createWindow :
    ∃ es s, sampleBoot.AtBoot ∧ Runs.Steps (fun s e t => Mouse.step s e = some t) sampleBoot es s ∧
      ∃ c ∈ s.gui.focusCalls, c.icon = 64 ∧ c.owner = some 1 ∧ c.proc = some 2 ∧ ¬ c.Owned := by
  let es := .createWindow (some 4096) :: sampleClick 100 ++
    [.schedule (some 2), .createWindow (some 8192)] ++ sampleClick 200
  have found : (Runs.exec Mouse.step sampleBoot es).any (fun s => s.gui.focusCalls.any fun c =>
      c.icon = 64 ∧ c.owner = some 1 ∧ c.proc = some 2 ∧ ¬ c.Owned) = true := by
    decide +kernel
  cases hs : Runs.exec Mouse.step sampleBoot es with
  | none =>
    rw [hs] at found
    cases found
  | some s =>
    rw [hs, Option.any_some, List.any_eq_true] at found
    obtain ⟨c, hc, h⟩ := found
    exact ⟨es, s, ⟨rfl, rfl, rfl⟩, .of_exec hs, c, hc, of_decide_eq_true h⟩

theorem focusIcon_of_lastWindow_click :
    ∃ s, Runs.Steps (Runs.Guarded (fun s e t => Mouse.step s e = some t) Mouse.KeepsOwner)
      sampleBoot (.createWindow (some 4096) :: sampleClick 100 ++ sampleClick 200) s ∧
        s.gui.focusCall.Owned ∧ ∀ c ∈ s.gui.focusCalls, c.Owned := by
  have defined : (Runs.exec (Runs.guardedBy Mouse.step Mouse.KeepsOwner) sampleBoot
      (.createWindow (some 4096) :: sampleClick 100 ++ sampleClick 200)).isSome = true := by
    decide +kernel
  obtain ⟨s, hs⟩ := Option.isSome_iff_exists.mp defined
  have run := Runs.Steps.of_exec_guardedBy hs
  exact ⟨s, run, focusIcon_of_lastWindow ⟨rfl, rfl, rfl⟩ run⟩

end Xv6Gui
