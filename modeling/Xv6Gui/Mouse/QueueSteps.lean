import Xv6Gui.Mouse.FocusSafety
import Xv6Gui.Window.QueueSafety

/-!
# What the handlers do to the windows

The lookup of a window walks back from `lastWindow` and stops at the first window around a
position.  If there is none, it comes to the sentinel.

A handler leaves every window in its place (`Framed`), but for a drag that goes on.  It leaves
the queue as it is (`Kept`), but for a click or the start of a drag on a window that is not the
last one: that window is raised.
-/

namespace Xv6Gui

open Linked
open Runs (bind_some)

namespace Queue

/-- The queue holds the slots `l`, and the sentinel has no process. -/
structure Windows (s : Queue) (l : List Slot) : Prop extends s.Represents l where
  sentinel : (s.owner .windowQueue).1 = none

theorem initWindow_windows : initWindow.Windows [] := ⟨initWindow_represents, rfl⟩

namespace Windows

variable {s t : Queue} {l : List Slot}

/-- The owner of a slot says nothing of the sentinel. -/
theorem of_update {l' : List Slot} {i : Slot} {o : Option ProcPtr × Int} (h : s.Windows l)
    (rep : t.Represents l') (owner : t.owner = Function.update s.owner (.windowLine i) o) :
    t.Windows l' where
  toRepresents := rep
  sentinel := by
    rw [owner, Function.update_of_ne (by simp)]
    exact h.sentinel

theorem sysCreateWindow {proc : ProcPtr} {arg : Option Int} {r : Int} (h : s.Windows l)
    (call : s.sysCreateWindow proc arg = some (r, t)) :
    (r = -1 ∧ t = s) ∨ ∃ (w : Int) (i : Slot), arg = some w ∧ r = (i : Nat) ∧ i ∉ l ∧
      t.Windows (l ++ [i]) ∧ t.owner = Function.update s.owner (.windowLine i) (some proc, w) := by
  obtain ⟨r', t', call', spec⟩ := h.toRepresents.sysCreateWindow proc arg
  obtain ⟨rfl, rfl⟩ := Prod.mk.inj (Option.some.inj (call.symm.trans call'))
  rcases spec with ⟨hr, same, -⟩ | ⟨w, i, harg, hr, hi, rep, owner⟩
  · exact .inl ⟨hr, same⟩
  · exact .inr ⟨w, i, harg, hr, hi, h.of_update rep owner, owner⟩

theorem sysDeleteWindow {arg : Option Int} {r : Int} (h : s.Windows l)
    (call : s.sysDeleteWindow arg = some (r, t)) :
    (r = -1 ∧ t = s ∧ ∀ i ∈ l, arg ≠ some ((i : Nat) : Int)) ∨
      ∃ i ∈ l, arg = some ((i : Nat) : Int) ∧ r = 0 ∧ t.Windows (l.erase i) ∧
        t.owner = Function.update s.owner (.windowLine i) (none, 0) := by
  obtain ⟨r', t', call', spec⟩ := h.toRepresents.sysDeleteWindow arg
  obtain ⟨rfl, rfl⟩ := Prod.mk.inj (Option.some.inj (call.symm.trans call'))
  rcases spec with failed | ⟨i, hi, harg, hr, rep, owner⟩
  · exact .inl failed
  · exact .inr ⟨i, hi, harg, hr, h.of_update rep owner, owner⟩

theorem reorderQueue {q : Slot} (h : s.Windows l) (hq : q ∈ l)
    (last : .windowLine q ≠ s.lastWindow) (call : s.reorderQueue (.windowLine q) = some t) :
    t.Windows (l.erase q ++ [q]) ∧ t.owner = s.owner := by
  obtain ⟨t', call', rep, owner⟩ := h.toRepresents.reorderQueue hq last
  obtain rfl := Option.some.inj (call.symm.trans call')
  refine ⟨⟨rep, ?_⟩, owner⟩
  rw [owner]
  exact h.sentinel

theorem onQueue_iff (h : s.Windows l) {i : Slot} : s.OnQueue (.windowLine i) ↔ i ∈ l :=
  ⟨fun on => on.mem h.toRepresents, fun mem => ⟨_, h.links.chain, mem_map_windowLine.mpr mem⟩⟩

theorem proc_ne_none (h : s.Windows l) {i : Slot} (hi : i ∈ l) :
    (s.entry (.windowLine i)).proc ≠ none := (h.used i).mp hi

end Windows

end Queue

namespace Gui

variable {s t u : Gui}

/-! ## The walk over the queue -/

/-- The window of an entry is around a position. -/
def around (s : Gui) (x y : Int) (n : Node) : Bool :=
  (s.queue.entry n).proc.any fun p => inWindowRange (s.window p (s.queue.entry n).window) x y

/-- The entries a lookup comes to, from a pointer on. -/
def visited (s : Gui) (x y : Int) : Nat → Option Node → List Node
  | _, none => []
  | 0, some _ => []
  | fuel + 1, some p => p :: if s.around x y p then [] else s.visited x y fuel (s.queue.prev p)

/-- The entries a lookup of a position comes to. -/
def lookup (s : Gui) (x y : Int) : List Node :=
  s.visited x y Queue.queueFuel (some s.queue.lastWindow)

section Walk

variable {x y : Int} {hd : Node}

variable {l : List Node}

/-- The walk comes to the head of the list if no window of the list is around the position. -/
theorem head_mem_visited (back : Back s.queue.prev hd l)
    (nodup : (hd :: l).Nodup) : ∀ {fuel : Nat}, l.length < fuel →
    (hd ∈ s.visited x y fuel (some (l.getLastD hd)) ↔ ∀ n ∈ l, s.around x y n = false) := by
  induction l using List.reverseRecOn with
  | nil =>
    intro fuel room
    obtain ⟨fuel, rfl⟩ := Nat.exists_eq_succ_of_ne_zero (Nat.ne_of_gt room)
    simp [visited]
  | append_singleton l q ih =>
    intro fuel room
    obtain ⟨fuel, rfl⟩ := Nat.exists_eq_succ_of_ne_zero (Nat.ne_of_gt (Nat.zero_lt_of_lt room))
    have before := (back.split l).1
    have ne : hd ≠ q := by
      rintro rfl
      simp at nodup
    have rest := ih (back.left l) (nodup.sublist (by simp)) (by simpa using room)
    rw [List.getLastD_concat, visited, List.mem_cons, before]
    cases hit : s.around x y q with
    | true => simp [ne, hit]
    | false =>
      rw [if_neg Bool.false_ne_true, rest]
      simp [ne, hit, or_imp, forall_and]

/-- Without a process of its own the head ends the walk badly.  Otherwise the walk ends at the
last window around the position. -/
theorem windowAt_hit (back : Back s.queue.prev hd l)
    (head : (s.queue.entry hd).proc = none) {hit : Option Node} : ∀ {fuel : Nat},
    s.windowAt x y fuel (some (l.getLastD hd)) = some (t, hit) →
      ∃ before q after, l = before ++ q :: after ∧ hit = some q ∧ s.around x y q = true ∧
        ∀ n ∈ after, s.around x y n = false := by
  induction l using List.reverseRecOn generalizing s with
  | nil =>
    intro fuel h
    cases fuel with
    | zero => cases h
    | succ fuel => simp [windowAt, switchuvm, head] at h
  | append_singleton l q ih =>
    intro fuel h
    cases fuel with
    | zero => cases h
    | succ fuel =>
      rw [List.getLastD_concat] at h
      simp only [windowAt, bind_some] at h
      obtain ⟨u, hu, w, hw, h⟩ := h
      have e := switchuvm_eq_some hu
      subst e
      obtain ⟨p, hp, rfl⟩ := Option.map_eq_some_iff.mp hw
      dsimp only at hp
      have here : s.around x y q = inWindowRange (s.window p (s.queue.entry q).window) x y := by
        rw [around, hp]
        rfl
      split at h
      · rename_i inside
        cases h
        exact ⟨l, q, [], rfl, rfl, here.trans inside, by simp⟩
      · rename_i outside
        have before : s.queue.prev q = some (l.getLastD hd) := (back.split l).1
        rw [show Queue.prev _ q = _ from before] at h
        obtain ⟨bs, q', as, split, e, inside, others⟩ :=
          ih (s := { s with loaded := (s.queue.entry q).proc }) (back.left l) head h
        refine ⟨bs, q', as ++ [q], by simp [split], e, inside, ?_⟩
        intro n hn
        rcases List.mem_append.mp hn with hn | hn
        · exact others n hn
        · rw [List.mem_singleton.mp hn, here]
          exact Bool.eq_false_iff.mpr outside

/-- With a current process, the walk ends well if some window of the list is around the
position. -/
theorem windowAt_isSome (back : Back s.queue.prev hd l)
    (procs : ∀ n ∈ l, (s.queue.entry n).proc ≠ none) (current : s.proc ≠ none)
    {n : Node} (hn : n ∈ l) (inside : s.around x y n = true) : ∀ {fuel : Nat}, l.length < fuel →
    (s.windowAt x y fuel (some (l.getLastD hd))).isSome := by
  induction l using List.reverseRecOn generalizing s with
  | nil => cases hn
  | append_singleton l q ih =>
    intro fuel room
    obtain ⟨fuel, rfl⟩ := Nat.exists_eq_succ_of_ne_zero (Nat.ne_of_gt (Nat.zero_lt_of_lt room))
    obtain ⟨c, hc⟩ := Option.ne_none_iff_exists'.mp current
    obtain ⟨p, hp⟩ := Option.ne_none_iff_exists'.mp (procs q (by simp))
    have before : s.queue.prev q = some (l.getLastD hd) := (back.split l).1
    rw [List.getLastD_concat, windowAt]
    simp only [switchuvm, hc, hp, loadWindow, Option.bind_eq_bind, Option.bind_some,
      Option.pure_def, Option.map_some]
    split
    · rfl
    · rename_i outside
      have hn : n ∈ l := by
        rcases List.mem_append.mp hn with hn | hn
        · exact hn
        · rw [List.mem_singleton.mp hn, around, hp] at inside
          exact absurd inside outside
      rw [show Queue.prev _ q = _ from before]
      exact ih (s := { s with loaded := some p, proc := some c }) (back.left l)
        (fun m hm => procs m (by simp [hm])) (by simp) hn inside (by simpa using room)

end Walk

section Lookup

variable {l : List Slot} {x y : Int}

theorem length_lt_queueFuel (h : s.queue.Windows l) :
    (l.map Node.windowLine).length < Queue.queueFuel := by
  rw [List.length_map]
  exact Nat.lt_succ_of_le h.length_le

/-- A lookup comes to the sentinel if no window is around the position. -/
theorem sentinel_mem_lookup (h : s.queue.Windows l) :
    .windowQueue ∈ s.lookup x y ↔ ∀ i ∈ l, s.around x y (.windowLine i) = false := by
  rw [lookup, h.last, head_mem_visited h.links.back h.links.nodup (length_lt_queueFuel h)]
  simp

/-- The topmost window around a position. -/
def topmost (s : Gui) (l : List Slot) (x y : Int) : Option Slot :=
  l.reverse.find? fun i => s.around x y (.windowLine i)

theorem topmost_eq_some {i : Slot} : s.topmost l x y = some i ↔
    ∃ before after, l = before ++ i :: after ∧ s.around x y (.windowLine i) = true ∧
      ∀ j ∈ after, s.around x y (.windowLine j) = false := by
  rw [topmost, List.find?_eq_some_iff_append]
  constructor
  · rintro ⟨inside, as, bs, split, others⟩
    refine ⟨bs.reverse, as.reverse, ?_, inside, ?_⟩
    · simpa using congrArg List.reverse split
    · intro j hj
      simpa using others j (List.mem_reverse.mp hj)
  · rintro ⟨bs, as, rfl, inside, others⟩
    refine ⟨inside, as.reverse, bs.reverse, by simp, ?_⟩
    intro j hj
    simpa using others j (List.mem_reverse.mp hj)

/-- A lookup that returns finds the topmost window. -/
theorem windowAt_topmost (h : s.queue.Windows l) {hit : Option Node}
    (call : s.windowAt x y Queue.queueFuel (some s.queue.lastWindow) = some (t, hit)) :
    ∃ i, s.topmost l x y = some i ∧ hit = some (.windowLine i) := by
  rw [h.last] at call
  obtain ⟨bs, q, as, split, e, inside, others⟩ := windowAt_hit h.links.back h.sentinel call
  obtain ⟨bs', qs, rfl, rfl, tail⟩ := List.map_eq_append_iff.mp split
  obtain ⟨i, as', rfl, rfl, rfl⟩ := List.map_eq_cons_iff.mp tail
  refine ⟨i, topmost_eq_some.mpr ⟨bs', as', rfl, inside, ?_⟩, e⟩
  exact fun j hj => others _ (List.mem_map_of_mem hj)

theorem windowAt_slot (h : s.queue.Windows l) {hit : Option Node}
    (call : s.windowAt x y Queue.queueFuel (some s.queue.lastWindow) = some (t, hit)) :
    ∃ i ∈ l, hit = some (.windowLine i) ∧ s.around x y (.windowLine i) = true := by
  obtain ⟨i, top, e⟩ := windowAt_topmost h call
  obtain ⟨bs, as, rfl, inside, -⟩ := topmost_eq_some.mp top
  exact ⟨i, by simp, e, inside⟩

/-- With a current process, a lookup returns if it does not come to the sentinel. -/
theorem windowAt_isSome_iff (h : s.queue.Windows l) (current : s.proc ≠ none) :
    (s.windowAt x y Queue.queueFuel (some s.queue.lastWindow)).isSome ↔
      .windowQueue ∉ s.lookup x y := by
  rw [sentinel_mem_lookup h]
  constructor
  · intro some none
    obtain ⟨⟨t, hit⟩, call⟩ := Option.isSome_iff_exists.mp some
    obtain ⟨i, hi, -, inside⟩ := windowAt_slot h call
    rw [none i hi] at inside
    cases inside
  · intro inside
    push Not at inside
    obtain ⟨i, hi, inside⟩ := inside
    rw [h.last]
    refine windowAt_isSome h.links.back ?_ current (n := .windowLine i) (by simpa using hi)
      (by simpa using inside) (length_lt_queueFuel h)
    intro n hn
    obtain ⟨j, hj, rfl⟩ := List.mem_map.mp hn
    exact h.proc_ne_none hj

end Lookup

variable {addr : Int} {window : Window} {q : Node} {l : List Slot}

/-! ## Frames -/

/-- The windows and the pointer are where they were.  The noted event and the current process are
the same, too. -/
structure Framed (s t : Gui) : Prop where
  rect : ∀ p addr, (t.window p addr).rect = (s.window p addr).rect
  xPosition : t.mouseInfo.xPosition = s.mouseInfo.xPosition
  yPosition : t.mouseInfo.yPosition = s.mouseInfo.yPosition
  event : t.mouseInfo.event = s.mouseInfo.event
  proc : t.proc = s.proc

theorem Framed.trans (h : Framed s t) (k : Framed t u) : Framed s u where
  rect p addr := (k.rect p addr).trans (h.rect p addr)
  xPosition := k.xPosition.trans h.xPosition
  yPosition := k.yPosition.trans h.yPosition
  event := k.event.trans h.event
  proc := k.proc.trans h.proc

/-- The queue is as it was, too. -/
structure Kept (s t : Gui) : Prop extends Framed s t where
  queue : t.queue = s.queue

theorem Kept.refl (s : Gui) : Kept s s := ⟨⟨fun _ _ => rfl, rfl, rfl, rfl, rfl⟩, rfl⟩

theorem Kept.trans (h : Kept s t) (k : Kept t u) : Kept s u :=
  ⟨h.toFramed.trans k.toFramed, k.queue.trans h.queue⟩

theorem Unmoved.kept (h : Unmoved s t) : Kept s t :=
  ⟨⟨h.rect, by rw [h.mouseInfo], by rw [h.mouseInfo], by rw [h.mouseInfo], h.proc⟩, h.queue⟩

theorem storeWidget_kept {k : Int} {widget : Widget}
    (h : s.storeWidget addr k widget = some t) : Kept s t := by
  simp only [storeWidget, bind_some] at h
  obtain ⟨w, load, h⟩ := h
  have rect := storeWindow_keeps Window.rect load (by rfl) h
  obtain ⟨p, _, rfl⟩ := Option.map_eq_some_iff.mp h
  exact ⟨⟨rect, rfl, rfl, rfl, rfl⟩, rfl⟩

theorem drawMouse_kept (s : Gui) : Kept s s.drawMouse := ⟨⟨fun _ _ => rfl, rfl, rfl, rfl, rfl⟩, rfl⟩

theorem switchuvm_kept {p : Option ProcPtr} (h : s.switchuvm p = some t) : Kept s t :=
  (switchuvm_unmoved h).kept

theorem switchBack_kept (h : s.switchBack = some t) : Kept s t := (switchBack_unmoved h).kept

theorem updateBackWindows_kept (h : s.updateBackWindows = some t) : Kept s t := by
  obtain ⟨u, drawn, rfl⟩ := updateBackWindows_eq_some h
  exact (drawn.trans (moveFrame_unmoved u _ _)).kept.trans (drawMouse_kept _)

theorem updateLastWindow_kept (h : s.updateLastWindow = some t) : Kept s t := by
  obtain ⟨u, drawn, rfl⟩ := updateLastWindow_eq_some h
  exact (drawn.trans (moveFrame_unmoved u _ _)).kept.trans (drawMouse_kept _)

/-! ## The focus -/

theorem Painted.kept (h : Painted s t) : Kept s t :=
  ⟨⟨fun _ _ => by rw [h.window], by rw [h.mouseInfo], by rw [h.mouseInfo], by rw [h.mouseInfo],
    h.proc⟩, h.queue⟩

theorem focusDismiss_kept (h : s.focusDismiss = some t) : Kept s t := by
  simp only [focusDismiss, bind_some] at h
  obtain ⟨s₁, h₁, window, _, s₂, h₂, s₃, h₃, h₄⟩ := h
  have entered : Kept s s.enterFocus := ⟨⟨fun _ _ => rfl, rfl, rfl, rfl, rfl⟩, rfl⟩
  have undrawn := (undrawFocus_painted h₂).trans (clearFocus_painted h₃)
  have cleared : Kept s₃ (s₃.setFocus 0 none) := ⟨⟨fun _ _ => rfl, rfl, rfl, rfl, rfl⟩, rfl⟩
  exact (((entered.trans (switchuvm_kept h₁)).trans undrawn.kept).trans cleared).trans
    (switchBack_kept h₄)

theorem focusIconView_kept {icon : Int} (h : s.focusIconView icon = some t) : Kept s t := by
  simp only [focusIconView, bind_some] at h
  obtain ⟨s₁, h₁, h⟩ := h
  have entered : Kept s s.enterFocus := ⟨⟨fun _ _ => rfl, rfl, rfl, rfl, rfl⟩, rfl⟩
  have switched := entered.trans (switchuvm_kept h₁)
  split at h
  · cases h
    exact switched
  · simp only [moveFocus, bind_some] at h
    obtain ⟨window, _, s₂, h₂, s₃, h₃, h₄⟩ := h
    have focused : Kept s₂ (s₂.setFocus icon s.loaded) := ⟨⟨fun _ _ => rfl, rfl, rfl, rfl, rfl⟩, rfl⟩
    exact ((switched.trans (leaveFocus_painted h₂).kept).trans
      (focused.trans (takeFocus_painted h₃).kept)).trans (switchBack_kept h₄)

/-! ## Handlers -/

theorem dismissFor_kept (h : s.dismissFor q = some t) : Kept s t := by
  simp only [dismissFor, bind_some] at h
  obtain ⟨u, hu, h⟩ := h
  exact (focusDismiss_kept hu).trans (switchuvm_kept h)

theorem clickWidget_kept (h : s.clickWidget q = some t) : Kept s t := by
  simp only [clickWidget, bind_some] at h
  obtain ⟨w, _, hit, _, h⟩ := h
  cases hit with
  | none => exact dismissFor_kept h
  | some k =>
    simp only at h
    split at h
    · obtain ⟨u, hu, h⟩ := bind_some.mp h
      exact (dismissFor_kept hu).trans (storeWidget_kept h)
    · obtain ⟨u, hu, h⟩ := bind_some.mp h
      exact (dismissFor_kept hu).trans (storeWidget_kept h)
    · exact focusIconView_kept h
    · exact dismissFor_kept h

theorem doubleClickWidget_kept (h : s.doubleClickWidget q = some t) : Kept s t := by
  simp only [doubleClickWidget, bind_some] at h
  obtain ⟨w, _, hit, _, h⟩ := h
  cases hit with
  | none =>
    cases h
    exact .refl s
  | some k =>
    simp only at h
    split at h
    · obtain ⟨i, _, h⟩ := bind_some.mp h
      exact (storeIcon_painted h).kept
    · cases h
      exact .refl s

theorem handleLeftDoubleClick_kept (h : s.handleLeftDoubleClick = some t) : Kept s t := by
  simp only [handleLeftDoubleClick, bind_some] at h
  obtain ⟨⟨s₁, hit⟩, h₁, h⟩ := h
  have found := (windowAt_eq_some h₁).1.kept
  cases hit with
  | none => exact found.trans (switchBack_kept h)
  | some q =>
    simp only [bind_some] at h
    obtain ⟨s₂, h₂, s₃, h₃, h⟩ := h
    exact (found.trans ((dismissFor_kept h₂).trans (doubleClickWidget_kept h₃))).trans
      (switchBack_kept h)

theorem handleRightClick_kept (h : s.handleRightClick = some t) : Kept s t := by
  simp only [handleRightClick, bind_some] at h
  obtain ⟨⟨s₁, hit⟩, h₁, h⟩ := h
  exact (windowAt_eq_some h₁).1.kept.trans (switchBack_kept h)

/-! ## Changes of the queue -/

/-- A redraw after a change of the queue. -/
theorem Framed.of_redraw {queue : Queue} (h : { s with queue := queue }.updateBackWindows = some t) :
    Framed s t ∧ t.queue = queue := by
  have kept := updateBackWindows_kept h
  exact ⟨⟨kept.rect, kept.xPosition, kept.yPosition, kept.event, kept.proc⟩, kept.queue⟩

theorem sysCreateWindow_framed {arg : Option Int} {r : Int}
    (windows : s.queue.Windows l) (h : s.sysCreateWindow arg = some (r, t)) :
    Framed s t ∧ ∃ p, s.proc = some p ∧ s.queue.sysCreateWindow p arg = some (r, t.queue) := by
  simp only [sysCreateWindow, bind_some] at h
  obtain ⟨p, current, ⟨r', queue⟩, call, h⟩ := h
  split at h
  · rename_i failed
    cases h
    refine ⟨(Kept.refl _).toFramed, p, current, ?_⟩
    obtain ⟨-, rfl⟩ | ⟨w, i, -, rfl, -⟩ := windows.sysCreateWindow call
    · exact call
    · omega
  · obtain ⟨u, drawn, h⟩ := bind_some.mp h
    cases h
    obtain ⟨framed, rfl⟩ := Framed.of_redraw drawn
    exact ⟨framed, p, current, call⟩

theorem sysDeleteWindow_framed {arg : Option Int} {r : Int}
    (windows : s.queue.Windows l) (h : s.sysDeleteWindow arg = some (r, t)) :
    Framed s t ∧ s.queue.sysDeleteWindow arg = some (r, t.queue) := by
  simp only [sysDeleteWindow, bind_some] at h
  obtain ⟨⟨r', queue⟩, call, h⟩ := h
  split at h
  · rename_i failed
    cases h
    refine ⟨(Kept.refl _).toFramed, ?_⟩
    obtain ⟨-, rfl, -⟩ | ⟨i, -, -, rfl, -⟩ := windows.sysDeleteWindow call
    · exact call
    · omega
  · obtain ⟨u, drawn, h⟩ := bind_some.mp h
    cases h
    obtain ⟨framed, rfl⟩ := Framed.of_redraw drawn
    exact ⟨framed, call⟩

theorem reorderQueue_framed (h : s.reorderQueue q = some t) :
    Framed s t ∧ s.queue.reorderQueue q = some t.queue := by
  simp only [reorderQueue, bind_some] at h
  obtain ⟨queue, hq, h⟩ := h
  obtain ⟨framed, rfl⟩ := Framed.of_redraw h
  exact ⟨framed, hq⟩

/-- The window that is clicked. -/
def clicked (s : Gui) : Option Node := s.getClickedWindowQueue.bind Prod.snd

/-- An entry is neither the last window nor the first slot, so that it is raised. -/
def Raises (s : Gui) (hit : Option Node) : Prop :=
  ∃ q ∈ hit, q ≠ s.queue.lastWindow ∧ q ≠ .windowLine 0
  deriving Decidable

/-- A click raises the window under the pointer, unless it is the last one or in the first
slot. -/
theorem handleLeftClick_framed (h : s.handleLeftClick = some t) :
    Framed s t ∧ ((¬ s.Raises s.clicked ∧ t.queue = s.queue) ∨
      ∃ q, s.clicked = some q ∧ q ≠ s.queue.lastWindow ∧ q ≠ .windowLine 0 ∧
        s.queue.reorderQueue q = some t.queue) := by
  simp only [handleLeftClick, bind_some] at h
  obtain ⟨⟨s₁, hit⟩, h₁, h⟩ := h
  have found := (windowAt_eq_some h₁).1.kept
  have clicked : s.clicked = hit := by
    rw [Gui.clicked, h₁]
    rfl
  cases hit with
  | none =>
    have kept := found.trans (switchBack_kept h)
    refine ⟨kept.toFramed, .inl ⟨?_, kept.queue⟩⟩
    rw [clicked]
    rintro ⟨q, hq, -⟩
    cases hq
  | some q =>
    simp only at h
    split at h
    · rename_i last
      obtain ⟨u, hu, h⟩ := bind_some.mp h
      have kept := (found.trans (clickWidget_kept hu)).trans (switchBack_kept h)
      refine ⟨kept.toFramed, .inl ⟨?_, kept.queue⟩⟩
      rw [clicked]
      rintro ⟨q', hq', other, -⟩
      cases hq'
      exact other (found.queue ▸ last)
    · rename_i last
      split at h
      · rename_i first
        have kept := found.trans (switchBack_kept h)
        refine ⟨kept.toFramed, .inl ⟨?_, kept.queue⟩⟩
        rw [clicked]
        rintro ⟨q', hq', -, other⟩
        cases hq'
        exact other first
      · rename_i first
        simp only [bind_some] at h
        obtain ⟨s₂, h₂, s₃, h₃, s₄, h₄, s₅, h₅, h⟩ := h
        have before := found.trans (focusDismiss_kept h₂)
        obtain ⟨framed, raised⟩ := reorderQueue_framed h₃
        have after := ((switchuvm_kept h₄).trans (clickWidget_kept h₅)).trans (switchBack_kept h)
        refine ⟨(before.toFramed.trans framed).trans after.toFramed, .inr ⟨q, clicked, ?_, first, ?_⟩⟩
        · exact fun e => last (found.queue ▸ e)
        · rw [after.queue, ← before.queue]
          exact raised

/-- The window of a process at an address after a drag by `(dx, dy)`. -/
def draggedTo (s : Gui) (p : ProcPtr) (addr dx dy : Int) : Gui :=
  let w := s.window p addr
  { s with
    window := Function.update s.window p (Function.update (s.window p) addr { w with
      leftTopX := w.leftTopX + clampMove w.leftTopX w.width screenWidth dx
      leftTopY := w.leftTopY + clampMove w.leftTopY w.height screenHeight dy }) }

/-- The other windows stay where they are. -/
theorem draggedTo_of_ne (s : Gui) {p q : ProcPtr} {a dx dy : Int} (h : p = q → a ≠ addr) :
    (s.draggedTo q addr dx dy).window p a = s.window p a := by
  by_cases hp : p = q
  · subst hp
    simp [draggedTo, h rfl]
  · simp [draggedTo, hp]

/-- `moveWindow` moves the window and may redraw. -/
theorem moveWindow_kept {fx fy tx ty : Int} {isdraw : Bool}
    (h : s.moveWindow addr fx fy tx ty isdraw = some t) :
    ∃ p, s.loaded = some p ∧ Kept (s.draggedTo p addr (tx - fx) (ty - fy)) t := by
  simp only [moveWindow, bind_some] at h
  obtain ⟨w, load, u, store, h⟩ := h
  obtain ⟨p, loaded, rfl⟩ := Option.map_eq_some_iff.mp load
  obtain ⟨p', loaded', rfl⟩ := Option.map_eq_some_iff.mp store
  obtain rfl := Option.some.inj (loaded.symm.trans loaded')
  refine ⟨p, loaded, ?_⟩
  split at h
  · exact updateLastWindow_kept h
  · cases h
    exact .refl _

theorem clicked_slot (windows : s.queue.Windows l)
    (h : s.clicked = some q) : ∃ i ∈ l, q = .windowLine i := by
  obtain ⟨⟨t, hit⟩, call, e⟩ := bind_some.mp h
  obtain ⟨i, hi, hit, -⟩ := windowAt_slot windows call
  exact ⟨i, hi, Option.some.inj (e.symm.trans hit)⟩

end Gui

namespace Mouse

variable {s t : Mouse}

/-! ## Drags -/

/-- The window that is dragged. -/
def dragged (s : Mouse) : Option Node := s.getDraggedWindowQueue.bind Prod.snd

theorem dragged_slot {l : List Slot} {q : Node} (windows : s.gui.queue.Windows l)
    (h : s.dragged = some q) : ∃ i ∈ l, q = .windowLine i := by
  obtain ⟨⟨g, hit⟩, call, e⟩ := bind_some.mp h
  rw [getDraggedWindowQueue] at call
  split at call
  · cases call
    cases e
  · simp only [bind_some] at call
    obtain ⟨⟨g₁, hit₁⟩, h₁, call⟩ := call
    obtain ⟨i, hi, rfl, -⟩ := Gui.windowAt_slot windows h₁
    obtain ⟨w, _, call⟩ := bind_some.mp call
    cases call
    dsimp only at e
    split at e
    · exact ⟨i, hi, (Option.some.inj e).symm⟩
    · cases e

/-- A drag that starts on the caption of a window raises it, unless it is the last one or in
the first slot. -/
theorem startDrag_framed (h : s.startDrag = some t) :
    Gui.Framed s.gui t.gui ∧ t.pwque = s.dragged ∧
      ((s.dragged = none ∧ t.dragState = 2 ∧ t.gui.queue = s.gui.queue) ∨
        ∃ q, s.dragged = some q ∧ t.dragState = 1 ∧
          (((q = s.gui.queue.lastWindow ∨ q = .windowLine 0) ∧ t.gui.queue = s.gui.queue) ∨
            q ≠ s.gui.queue.lastWindow ∧ s.gui.queue.reorderQueue q = some t.gui.queue)) := by
  simp only [startDrag, bind_some] at h
  obtain ⟨⟨g, hit⟩, h₁, h⟩ := h
  have found := (getDraggedWindowQueue_unmoved h₁).kept
  have dragged : s.dragged = hit := by
    rw [Mouse.dragged, h₁]
    rfl
  rw [dragged]
  cases hit with
  | none =>
    cases h
    exact ⟨found.toFramed, rfl, .inl ⟨rfl, rfl, found.queue⟩⟩
  | some q =>
    simp only at h
    split at h
    · rename_i raises
      obtain ⟨g₂, h₂, h⟩ := bind_some.mp h
      cases h
      obtain ⟨framed, raised⟩ := Gui.reorderQueue_framed h₂
      rw [found.queue] at raises raised
      exact ⟨found.toFramed.trans framed, rfl, .inr ⟨q, rfl, rfl, .inr ⟨raises.1, raised⟩⟩⟩
    · rename_i raises
      cases h
      rw [found.queue, ← not_or, not_not] at raises
      exact ⟨found.toFramed, rfl, .inr ⟨q, rfl, rfl, .inl ⟨raises, found.queue⟩⟩⟩

end Mouse

end Xv6Gui
