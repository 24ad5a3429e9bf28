import Xv6Gui.Gui.Focus
import Xv6Gui.Lib.Runs

/-!
# What a redraw leaves alone

Drawing changes pixels, the page table that is loaded, and the position a
window was last drawn at.  `Redrawn s t` says that `t` differs from `s` in
nothing else that the handlers read.  It holds for every part of an update up to
`drawMouse`.
-/

namespace Xv6Gui.Gui

/-- `t` is `s` after some drawing. -/
structure Redrawn (s t : Gui) : Prop where
  queue : t.queue = s.queue
  icons : ∀ p addr, (t.window p addr).icons = (s.window p addr).icons
  mouseInfo : t.mouseInfo = s.mouseInfo
  focusIcon : t.focusIcon = s.focusIcon
  focusOwner : t.focusOwner = s.focusOwner
  focusCalls : t.focusCalls = s.focusCalls
  proc : t.proc = s.proc

namespace Redrawn

variable {s t u : Gui}

theorem refl (s : Gui) : Redrawn s s :=
  ⟨rfl, fun _ _ => rfl, rfl, rfl, rfl, rfl, rfl⟩

theorem trans (h : Redrawn s t) (k : Redrawn t u) : Redrawn s u where
  queue := k.queue.trans h.queue
  icons p addr := (k.icons p addr).trans (h.icons p addr)
  mouseInfo := k.mouseInfo.trans h.mouseInfo
  focusIcon := k.focusIcon.trans h.focusIcon
  focusOwner := k.focusOwner.trans h.focusOwner
  focusCalls := k.focusCalls.trans h.focusCalls
  proc := k.proc.trans h.proc

end Redrawn

/-- No window has moved, either. -/
structure Unmoved (s t : Gui) : Prop extends Redrawn s t where
  rect : ∀ p addr, (t.window p addr).rect = (s.window p addr).rect

namespace Unmoved

variable {s t u : Gui}

theorem refl (s : Gui) : Unmoved s s := ⟨.refl s, fun _ _ => rfl⟩

theorem trans (h : Unmoved s t) (k : Unmoved t u) : Unmoved s u :=
  ⟨h.toRedrawn.trans k.toRedrawn, fun p addr => (k.rect p addr).trans (h.rect p addr)⟩

/-- New pixels and another page table. -/
theorem of_pixels (s : Gui) (pixels : Int → RGB) (loaded : Option ProcPtr) :
    Unmoved s { s with pixels := pixels, loaded := loaded } :=
  ⟨⟨rfl, fun _ _ => rfl, rfl, rfl, rfl, rfl, rfl⟩, fun _ _ => rfl⟩

end Unmoved

variable {s t : Gui}

/-! ## Page tables and stores -/

theorem switchuvm_eq_some {p : Option ProcPtr} (h : s.switchuvm p = some t) :
    t = { s with loaded := p } := by
  simp only [switchuvm, Runs.bind_some] at h
  obtain ⟨_, _, q, rfl, h⟩ := h
  exact (Option.some.inj h).symm

theorem switchuvm_unmoved {p : Option ProcPtr} (h : s.switchuvm p = some t) : Unmoved s t := by
  rw [switchuvm_eq_some h]
  exact .of_pixels s s.pixels p

theorem switchBack_eq_some (h : s.switchBack = some t) : t = { s with loaded := s.proc } := by
  rw [switchBack] at h
  split at h
  · rename_i hp
    rw [← Option.some.inj h, switchkvm]
    simp only [hp]
  · rename_i p hp
    rw [switchuvm_eq_some h]
    simp only [hp]

theorem switchBack_unmoved (h : s.switchBack = some t) : Unmoved s t := by
  rw [switchBack_eq_some h]
  exact .of_pixels s s.pixels s.proc

theorem draw_unmoved (s : Gui) (buf : Int) (picture : Picture) : Unmoved s (s.draw buf picture) :=
  .of_pixels s _ s.loaded

/-- What a store into a window keeps of it. -/
theorem storeWindow_keeps {β : Type} (f : Window → β) {addr : Int} {v w : Window}
    (hv : s.loadWindow addr = some v) (hw : f w = f v) (h : s.storeWindow addr w = some t)
    (q : ProcPtr) (a : Int) : f (t.window q a) = f (s.window q a) := by
  obtain ⟨p, hp, rfl⟩ := Option.map_eq_some_iff.mp h
  obtain ⟨p', hp', rfl⟩ := Option.map_eq_some_iff.mp hv
  obtain rfl := Option.some.inj (hp.symm.trans hp')
  by_cases hq : q = p
  · subst hq
    by_cases ha : a = addr
    · subst ha
      simpa using hw
    · simp [ha]
  · simp [hq]

theorem storeWindow_redrawn {addr : Int} {v w : Window} (hv : s.loadWindow addr = some v)
    (hw : w.icons = v.icons) (h : s.storeWindow addr w = some t) : Redrawn s t := by
  have icons := storeWindow_keeps Window.icons hv hw h
  obtain ⟨p, _, rfl⟩ := Option.map_eq_some_iff.mp h
  exact ⟨rfl, icons, rfl, rfl, rfl, rfl, rfl⟩

/-! ## Windows -/

theorem drawEntry_unmoved (s : Gui) (buf : Int) (p : ProcPtr) (addr : Int) (focus : Bool) :
    Unmoved s (s.drawEntry buf p addr focus) := by
  rw [drawEntry]
  split
  · exact .refl s
  · exact draw_unmoved s buf _

theorem drawBackFrom_unmoved {fuel : Nat} {p : Node} (h : s.drawBackFrom fuel p = some t) :
    Unmoved s t := by
  induction fuel generalizing s p with
  | zero => cases h
  | succ fuel ih =>
    rw [drawBackFrom] at h
    split at h
    · rw [← Option.some.inj h]
      exact .refl s
    · simp only [Runs.bind_some] at h
      obtain ⟨q, _, s₁, h₁, owner, _, h₂⟩ := h
      exact ((switchuvm_unmoved h₁).trans (drawEntry_unmoved s₁ _ _ _ _)).trans (ih h₂)

theorem drawBackWindows_unmoved (h : s.drawBackWindows = some t) : Unmoved s t := by
  simp only [drawBackWindows, Runs.bind_some] at h
  obtain ⟨s₁, h₁, h₂⟩ := h
  exact (drawBackFrom_unmoved h₁).trans (switchBack_unmoved h₂)

theorem removeLastWindow_unmoved (h : s.removeLastWindow = some t) : Unmoved s t := by
  simp only [removeLastWindow, Runs.bind_some] at h
  obtain ⟨s₁, h₁, w, _, h₂⟩ := h
  exact ((switchuvm_unmoved h₁).trans (.of_pixels s₁ _ s₁.loaded)).trans (switchBack_unmoved h₂)

theorem drawLastWindow_unmoved (h : s.drawLastWindow = some t) : Unmoved s t := by
  simp only [drawLastWindow, Runs.bind_some] at h
  obtain ⟨s₁, h₁, owner, _, w, hw, s₂, h₂, h₃⟩ := h
  have drawn := (switchuvm_unmoved h₁).trans
    (drawEntry_unmoved s₁ screenTemp2 owner s₁.lastEntry.window true)
  have stored : Unmoved _ s₂ :=
    ⟨storeWindow_redrawn hw (by rfl) h₂, storeWindow_keeps Window.rect hw (by rfl) h₂⟩
  exact (drawn.trans stored).trans (switchBack_unmoved h₃)

theorem moveFrame_unmoved (s : Gui) (dst src : Int) : Unmoved s (s.moveFrame dst src) :=
  .of_pixels s _ s.loaded

/-! ## Updates -/

/-- A full redraw copies `screen_temp2` to `screen` and draws the pointer. -/
theorem updateBackWindows_eq_some (h : s.updateBackWindows = some t) :
    ∃ u, Unmoved s u ∧ t = (u.moveFrame screen screenTemp2).drawMouse := by
  simp only [updateBackWindows, Runs.bind_some] at h
  obtain ⟨s₁, h₁, s₂, h₂, h₃⟩ := h
  have back : Unmoved s s₁ := .trans (.of_pixels s _ s.loaded) (drawBackWindows_unmoved h₁)
  have last := (moveFrame_unmoved s₁ screenTemp2 screenTemp1).trans (drawLastWindow_unmoved h₂)
  exact ⟨s₂, back.trans last, (Option.some.inj h₃).symm⟩

/-- So does a redraw of the last window. -/
theorem updateLastWindow_eq_some (h : s.updateLastWindow = some t) :
    ∃ u, Unmoved s u ∧ t = (u.moveFrame screen screenTemp2).drawMouse := by
  simp only [updateLastWindow, Runs.bind_some] at h
  obtain ⟨s₁, h₁, s₂, h₂, h₃⟩ := h
  exact ⟨s₂, (removeLastWindow_unmoved h₁).trans (drawLastWindow_unmoved h₂),
    (Option.some.inj h₃).symm⟩

end Xv6Gui.Gui
