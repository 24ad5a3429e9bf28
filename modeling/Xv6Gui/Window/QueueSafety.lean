import Xv6Gui.Window.Queue
import Xv6Gui.Lib.Runs

/-!
# The representation invariant of the window queue

`Represents s l` says that the links of `s` are a doubly linked list of the
slots `l` behind the sentinel, that `lastWindow` is its last node, and that the
slots on the list are exactly those with a process.  Each operation is then an
operation on `l`: creating a window appends a slot, deleting one erases it, and
reordering erases a slot and appends it again.  The loops of the operations
return because the list is finite.

A run records the calls with their results.  `storedBy` reads off a run the
pair that the call which returned a slot stored there, and the invariant says
that this pair is still in the slot.
-/

namespace Xv6Gui

open Linked Runs

open Function (update)

namespace Queue

/-! ## The invariant -/

/-- The queue `s` holds the slots `l`, in this order. -/
structure Represents (s : Queue) (l : List Slot) : Prop where
  /-- The links, from the sentinel. -/
  links : DList s.next s.prev .windowQueue (l.map .windowLine)
  /-- The tail pointer. -/
  last : s.lastWindow = (l.map .windowLine).getLastD .windowQueue
  /-- The slots on the list are those with a process. -/
  used : ∀ i, i ∈ l ↔ (s.owner (.windowLine i)).1 ≠ none

theorem initWindow_represents : initWindow.Represents [] where
  links := ⟨rfl, trivial, List.nodup_singleton _⟩
  last := rfl
  used := by
    intro i
    simp [initWindow, owner, entry]

theorem windowLine_injective : Function.Injective Node.windowLine := by
  intro i j h
  cases h
  rfl

@[simp] theorem mem_map_windowLine {l : List Slot} {i : Slot} :
    Node.windowLine i ∈ l.map Node.windowLine ↔ i ∈ l :=
  List.mem_map_of_injective windowLine_injective

namespace Represents

variable {s : Queue} {l : List Slot}

theorem nodup (h : s.Represents l) : l.Nodup :=
  (List.nodup_map_iff windowLine_injective).1 (List.nodup_cons.1 h.links.nodup).2

theorem length_le (h : s.Represents l) : l.length ≤ maxWindowNum := by
  have := h.nodup.length_le_card
  simpa using this

/-- `lastWindow` is the sentinel exactly when the list is empty. -/
theorem last_eq_sentinel_iff (h : s.Represents l) :
    s.lastWindow = .windowQueue ↔ l = [] := by
  rw [h.last]
  constructor
  · intro he
    by_contra hne
    obtain ⟨l', i, rfl⟩ := List.eq_nil_or_concat l |>.resolve_left hne
    simp at he
  · rintro rfl
    rfl

end Represents

variable {s : Queue} {l : List Slot} {hWind : Int} {l₂ l₁ : List Node} {hd : Node}

/-! ## Creating a window -/

theorem endOfQueue_eq : ∀ {fuel : Nat} {p : Node} {l : List Node},
    Chain s.next p l → l.length < fuel → s.endOfQueue fuel p = some (l.getLastD p)
  | 0, _, _, _, hf => absurd hf (Nat.not_lt_zero _)
  | fuel + 1, p, [], h, _ => by
    rw [Chain] at h
    simp [endOfQueue, h]
  | fuel + 1, p, b :: l, h, hf => by
    have hl : l.length < fuel := Nat.lt_of_succ_lt_succ hf
    simp only [endOfQueue, h.1, List.getLastD_cons]
    exact endOfQueue_eq h.2 hl

theorem acquireWindow_eq_none (h : s.Represents l)
    (ha : s.acquireWindow = none) : ∀ i, i ∈ l := by
  intro i
  rw [acquireWindow, List.find?_eq_none] at ha
  rw [h.used]
  simpa [owner, entry] using ha i (List.mem_finRange i)

theorem acquireWindow_eq_some {i : Slot} (h : s.Represents l)
    (ha : s.acquireWindow = some i) : i ∉ l := by
  have hp := List.find?_some ha
  rw [h.used]
  simpa [owner, entry] using hp

/-- `addWindow` on a slot off the list whose process has been stored. -/
theorem addWindow_spec {x : Slot} (hx : x ∉ l)
    (links : DList s.next s.prev .windowQueue (l.map .windowLine))
    (room : l.length < maxWindowNum + 1)
    (used : ∀ i, i ∈ l ++ [x] ↔ (s.owner (.windowLine i)).1 ≠ none) :
    ∃ t, s.addWindow x = some t ∧ t.Represents (l ++ [x]) ∧ t.owner = s.owner := by
  have hend : s.endOfQueue queueFuel .windowQueue = some _ :=
    endOfQueue_eq links.chain (by simpa [queueFuel] using room)
  have hfresh : Node.windowLine x ∉ Node.windowQueue :: l.map Node.windowLine := by
    simpa using hx
  refine ⟨_, by simp only [addWindow, hend, Option.bind_eq_bind, Option.bind_some]; rfl, ?_, ?_⟩
  · constructor
    · simpa using links.push hfresh
    · simp
    · simpa using used
  · simp

/-- Creating a window appends a slot that was not on the list, or does nothing
when there is none. -/
theorem Represents.sysCreateWindow (h : s.Represents l)
    (proc : ProcPtr) (arg : Option Int) :
    ∃ r t, s.sysCreateWindow proc arg = some (r, t) ∧
      ((r = -1 ∧ t = s ∧ (arg = none ∨ ∀ i, i ∈ l)) ∨
        ∃ (w : Int) (i : Slot), arg = some w ∧ r = (i : Nat) ∧ i ∉ l ∧ t.Represents (l ++ [i]) ∧
          t.owner = update s.owner (.windowLine i) (some proc, w)) := by
  cases arg with
  | none => exact ⟨-1, s, rfl, .inl ⟨rfl, rfl, .inl rfl⟩⟩
  | some window =>
    cases ha : s.acquireWindow with
    | none =>
      refine ⟨-1, s, by simp [Queue.sysCreateWindow, ha], .inl ⟨rfl, rfl, .inr ?_⟩⟩
      exact acquireWindow_eq_none h ha
    | some i =>
      have hi := acquireWindow_eq_some h ha
      have used : ∀ j, j ∈ l ++ [i] ↔
          ((s.setOwner (.windowLine i) (some proc) window).owner (.windowLine j)).1 ≠ none := by
        intro j
        by_cases hj : j = i
        · subst hj
          simp
        · have hne : Node.windowLine j ≠ .windowLine i := by
            intro he
            exact hj (windowLine_injective he)
          simpa [hj, Function.update_of_ne hne] using h.used j
      obtain ⟨t, ht, hrep, howner⟩ := addWindow_spec hi
        (s := s.setOwner (.windowLine i) (some proc) window) (by simpa using h.links)
        (Nat.lt_succ_of_le h.length_le) used
      refine ⟨(i : Nat), t, ?_, .inr ⟨window, i, rfl, rfl, hi, hrep, ?_⟩⟩
      · simp [Queue.sysCreateWindow, ha, ht]
      · rw [howner, owner_setOwner]

/-! ## Deleting a window -/

theorem deleteFrom_missing : ∀ {fuel : Nat} {p : Node} {l : List Node},
    Chain s.next p l → l.length < fuel →
    (∀ d ∈ l, some d ≠ (windowLineAt hWind).map .windowLine) →
    s.deleteFrom hWind fuel p = some (-1, s)
  | 0, _, _, _, hf, _ => absurd hf (Nat.not_lt_zero _)
  | fuel + 1, p, [], h, _, _ => by
    rw [Chain] at h
    simp [deleteFrom, h]
  | fuel + 1, p, b :: l, h, hf, hno => by
    simp only [deleteFrom, h.1, if_neg (hno b (.head _))]
    exact deleteFrom_missing h.2 (Nat.lt_of_succ_lt_succ hf) (fun d hd => hno d (.tail _ hd))

theorem deleteFrom_found {d : Node}
    (hd : some d = (windowLineAt hWind).map .windowLine) :
    ∀ {fuel : Nat} {p : Node} {l₁ : List Node},
      Chain s.next p (l₁ ++ d :: l₂) → l₁.length < fuel → d ∉ l₁ →
      s.deleteFrom hWind fuel p = some (0, s.deleteAfter (l₁.getLastD p) d)
  | 0, _, _, _, hf, _ => absurd hf (Nat.not_lt_zero _)
  | fuel + 1, p, [], h, _, _ => by
    simp only [deleteFrom, h.1, if_pos hd, List.getLastD_nil]
  | fuel + 1, p, b :: l₁, h, hf, hno => by
    have hb : some b ≠ (windowLineAt hWind).map .windowLine := by
      rw [← hd]
      rintro he
      cases he
      exact hno (.head _)
    simp only [deleteFrom, h.1, if_neg hb, List.getLastD_cons]
    exact deleteFrom_found hd h.2 (Nat.lt_of_succ_lt_succ hf) (fun hm => hno (.tail _ hm))

/-- What the loop body of `sys_deleteWindow` stores. -/
theorem deleteAfter_fields (s : Queue) (p d : Node) :
    (s.deleteAfter p d).next = update s.next p (s.next d) ∧
      (s.deleteAfter p d).prev =
        (match s.next d with
          | none => s.prev
          | some b => update s.prev b (some p)) ∧
      (s.deleteAfter p d).owner = update s.owner d (none, 0) ∧
      (s.deleteAfter p d).lastWindow = if d = s.lastWindow then p else s.lastWindow := by
  cases hn : s.next d with
  | none | some b => simp [deleteAfter, hn]

/-- The loop body of `sys_deleteWindow` takes the entry out of the list. -/
theorem deleteAfter_links {d : Node}
    (links : DList s.next s.prev hd (l₁ ++ d :: l₂)) :
    DList (s.deleteAfter (l₁.getLastD hd) d).next (s.deleteAfter (l₁.getLastD hd) d).prev
      hd (l₁ ++ l₂) := by
  have hunlink := links.unlink
  have hrest := (links.chain.split l₁).2
  obtain ⟨hnext, hprev, -, -⟩ := deleteAfter_fields s (l₁.getLastD hd) d
  rw [hnext, hprev]
  cases l₂ with
  | nil =>
    rw [Chain] at hrest
    rw [hrest] at hunlink ⊢
    exact hunlink
  | cons b l₂ =>
    rw [hrest.1] at hunlink ⊢
    exact hunlink

/-- The tail of a list after one of its nodes is taken out. -/
theorem getLastD_erase {d : Node} (nodup : (l₁ ++ d :: l₂).Nodup) :
    (if d = (l₁ ++ d :: l₂).getLastD hd then l₁.getLastD hd else (l₁ ++ d :: l₂).getLastD hd) =
      (l₁ ++ l₂).getLastD hd := by
  rw [getLastD_append_cons]
  cases l₂ with
  | nil => rw [List.getLastD_nil, if_pos rfl, List.append_nil]
  | cons b l₂ =>
    have hne : d ≠ l₂.getLastD b := by
      intro he
      have hmem : l₂.getLastD b ∈ b :: l₂ := List.getLastD_mem_cons
      rw [← he] at hmem
      exact (List.nodup_cons.1 (List.nodup_append.1 nodup).2.1).1 hmem
    rw [List.getLastD_cons, if_neg hne, getLastD_append_cons]

theorem windowLineAt_eq_some {i : Slot} :
    windowLineAt hWind = some i ↔ hWind = (i : Nat) := by
  unfold windowLineAt
  constructor
  · intro h
    split at h
    next hr =>
      cases h
      simp [hr.1]
    next => cases h
  · rintro rfl
    have hi := i.isLt
    simp

/-- Deleting a handle erases its slot from the list, or does nothing when the
slot is not queued. -/
theorem Represents.sysDeleteWindow (h : s.Represents l)
    (arg : Option Int) :
    ∃ r t, s.sysDeleteWindow arg = some (r, t) ∧
      ((r = -1 ∧ t = s ∧ ∀ i ∈ l, arg ≠ some ((i : Nat) : Int)) ∨
        ∃ i ∈ l, arg = some ((i : Nat) : Int) ∧ r = 0 ∧ t.Represents (l.erase i) ∧
          t.owner = update s.owner (.windowLine i) (none, 0)) := by
  have hfuel : ∀ l' : List Node, l'.length ≤ l.length → l'.length < queueFuel := by
    intro l' hl
    exact Nat.lt_succ_of_le (hl.trans h.length_le)
  cases arg with
  | none => exact ⟨-1, s, rfl, .inl ⟨rfl, rfl, by simp⟩⟩
  | some hWind =>
    by_cases hq : ∃ i ∈ l, hWind = ((i : Nat) : Int)
    · obtain ⟨i, hi, rfl⟩ := hq
      obtain ⟨l₁, l₂, rfl⟩ := List.append_of_mem hi
      have hnodup := h.nodup
      have hi₁ : i ∉ l₁ := fun hm =>
        (List.nodup_append.1 hnodup).2.2 i hm i (.head _) rfl
      have hlinks := h.links
      rw [List.map_append, List.map_cons] at hlinks
      have hdel := deleteFrom_found (d := .windowLine i)
        (by rw [windowLineAt_eq_some.2 rfl]; rfl) hlinks.chain
        (hfuel (l₁.map .windowLine) (by simp)) (by simpa using hi₁)
      obtain ⟨-, -, howner, hlast⟩ :=
        deleteAfter_fields s ((l₁.map .windowLine).getLastD .windowQueue) (.windowLine i)
      refine ⟨0, _, hdel, .inr ⟨i, hi, rfl, rfl, ?_, howner⟩⟩
      have herase : (l₁ ++ i :: l₂).erase i = l₁ ++ l₂ := by
        rw [List.erase_append_right _ hi₁, List.erase_cons_head]
      rw [herase]
      refine ⟨by simpa using deleteAfter_links hlinks, ?_, ?_⟩
      · rw [hlast, h.last, List.map_append, List.map_cons, List.map_append]
        exact getLastD_erase (List.nodup_cons.1 hlinks.nodup).2
      · intro j
        rw [howner]
        by_cases hj : j = i
        · subst hj
          have hj₂ : j ∉ l₂ := (List.nodup_cons.1 (List.nodup_append.1 hnodup).2.1).1
          simp [hi₁, hj₂]
        · have hne : Node.windowLine j ≠ .windowLine i := by
            intro he
            exact hj (windowLine_injective he)
          rw [Function.update_of_ne hne, ← h.used j]
          simp [hj]
    · have hno : ∀ d ∈ l.map Node.windowLine,
          some d ≠ (windowLineAt hWind).map .windowLine := by
        intro d hd he
        obtain ⟨i, hi, rfl⟩ := List.mem_map.1 hd
        obtain ⟨j, hj, hij⟩ := Option.map_eq_some_iff.1 he.symm
        rw [windowLine_injective hij, windowLineAt_eq_some] at hj
        exact hq ⟨i, hi, hj⟩
      refine ⟨-1, s, ?_, .inl ⟨rfl, rfl, ?_⟩⟩
      · exact deleteFrom_missing h.links.chain (hfuel _ (by simp)) hno
      · intro i hi he
        exact hq ⟨i, hi, Option.some.inj he⟩

/-! ## Reordering -/

/-- Walking back from the last node finds any node of the list. -/
theorem findBack_eq {q : Node}
    (back : Back s.prev hd (l₁ ++ q :: l₂)) (nodup : (l₁ ++ q :: l₂).Nodup) :
    ∀ {fuel : Nat}, l₂.length < fuel →
      s.findBack q fuel (some (l₂.getLastD q)) = some (some q) := by
  induction l₂ using List.reverseRecOn with
  | nil =>
    intro fuel hf
    cases fuel with
    | zero => exact absurd hf (Nat.not_lt_zero _)
    | succ fuel => simp [findBack]
  | append_singleton l x ih =>
    intro fuel hf
    have hx : x ≠ q := by
      rintro rfl
      exact (List.nodup_cons.1 (List.nodup_append.1 nodup).2.1).1 (by simp)
    have hsplit : l₁ ++ q :: (l ++ [x]) = (l₁ ++ q :: l) ++ [x] := by simp
    rw [hsplit] at back nodup
    have hprev := (back.split _).1
    rw [getLastD_append_cons] at hprev
    cases fuel with
    | zero => exact absurd hf (Nat.not_lt_zero _)
    | succ fuel =>
      rw [List.getLastD_concat, findBack, if_neg hx, hprev]
      exact ih (back.left _) (List.nodup_append.1 nodup).1 (by simpa using hf)

/-- The stores of `reorderQueue` take an entry out of the list and put it back
at the end. -/
theorem reorderQueue_links {q b : Node}
    (links : DList s.next s.prev hd (l₁ ++ q :: b :: l₂))
    (last : s.lastWindow = (l₁ ++ q :: b :: l₂).getLastD hd)
    (room : (b :: l₂).length < queueFuel) :
    ∃ t, s.reorderQueue q = some t ∧
      DList t.next t.prev hd (l₁ ++ b :: l₂ ++ [q]) ∧ t.lastWindow = q ∧ t.owner = s.owner := by
  have hnodup := (List.nodup_cons.1 links.nodup).2
  have hlast : s.lastWindow = (b :: l₂).getLastD q := by
    rw [last, getLastD_append_cons]
  have hfind := findBack_eq links.back hnodup room
  rw [← hlast] at hfind
  have hprev := (links.back.split l₁).1
  have hnext := (links.chain.split l₁).2.1
  have hsep : ((hd :: l₁) ++ q :: b :: l₂).Nodup := links.nodup
  have hbefore : q ≠ l₁.getLastD hd := by
    intro he
    have hmem : l₁.getLastD hd ∈ hd :: l₁ := List.getLastD_mem_cons
    rw [← he] at hmem
    exact (List.nodup_append.1 hsep).2.2 q hmem q (.head _) rfl
  have hfresh : q ∉ hd :: (l₁ ++ b :: l₂) := by
    have := List.nodup_cons.1 (List.nodup_middle.1 hsep)
    simpa using this.1
  have hpush := links.unlink.push hfresh
  have hlast' : (l₁ ++ b :: l₂).getLastD hd = s.lastWindow := by
    rw [getLastD_append_cons, hlast, List.getLastD_cons]
  rw [hlast', hnext, unlinkPrev] at hpush
  generalize hp : l₁.getLastD hd = p at hpush hprev hbefore
  let t := (((((s.setNext p (some b)).setPrev b (some p)).setNext s.lastWindow (some q)).setPrev q
    (some s.lastWindow)).setNext q none).setLast q
  have ht : s.reorderQueue q = some t := by
    simp [reorderQueue, hfind, hprev, hnext, Function.update_of_ne hbefore, t]
  refine ⟨t, ht, ?_, rfl, ?_⟩
  · simpa [t] using hpush
  · simp [t]

/-- Reordering erases an entry that is not the last one and appends it again. -/
theorem Represents.reorderQueue (h : s.Represents l) {q : Slot}
    (hq : q ∈ l) (hlast : .windowLine q ≠ s.lastWindow) :
    ∃ t, s.reorderQueue (.windowLine q) = some t ∧ t.Represents (l.erase q ++ [q]) ∧
      t.owner = s.owner := by
  obtain ⟨l₁, l₂, rfl⟩ := List.append_of_mem hq
  have hq₁ : q ∉ l₁ := fun hm => (List.nodup_append.1 h.nodup).2.2 q hm q (.head _) rfl
  have hlinks := h.links
  have htail := h.last
  rw [List.map_append, List.map_cons] at hlinks htail
  cases l₂ with
  | nil =>
    rw [List.map_nil, getLastD_append_cons] at htail
    exact absurd htail.symm hlast
  | cons b l₂ =>
    have hroom : ((b :: l₂).map Node.windowLine).length < queueFuel := by
      have := h.length_le
      simp only [List.length_append, List.length_cons, List.length_map, queueFuel] at this ⊢
      omega
    obtain ⟨t, ht, hlist, htl, howner⟩ := reorderQueue_links hlinks htail hroom
    refine ⟨t, ht, ?_, howner⟩
    have herase : (l₁ ++ q :: b :: l₂).erase q ++ [q] = l₁ ++ b :: l₂ ++ [q] := by
      rw [List.erase_append_right _ hq₁, List.erase_cons_head]
    rw [herase]
    refine ⟨by simpa using hlist, ?_, ?_⟩
    · rw [htl, List.map_append, List.map_singleton, List.getLastD_concat]
    · intro i
      rw [howner, ← h.used i]
      simp only [List.mem_append, List.mem_cons, List.not_mem_nil]
      tauto

/-! ## Runs -/

/-- A call of one of the three operations, with its arguments. -/
inductive Call where
  | createWindow (proc : ProcPtr) (arg : Option Int)
  | deleteWindow (arg : Option Int)
  | reorderQueue (q : Slot)

/-- The node `n` is met when `next` is followed from the sentinel. -/
def OnQueue (s : Queue) (n : Node) : Prop :=
  ∃ l, Chain s.next .windowQueue l ∧ n ∈ l

/-- A call, with the value it returns.  `reorderQueue` is only called on a
queued entry that is not `lastWindow`, and it returns nothing. -/
inductive Step : Queue → Call × Int → Queue → Prop where
  | createWindow {s t : Queue} {proc : ProcPtr} {arg : Option Int} {r : Int} :
      s.sysCreateWindow proc arg = some (r, t) → Step s (.createWindow proc arg, r) t
  | deleteWindow {s t : Queue} {arg : Option Int} {r : Int} :
      s.sysDeleteWindow arg = some (r, t) → Step s (.deleteWindow arg, r) t
  | reorderQueue {s t : Queue} {q : Slot} :
      s.OnQueue (.windowLine q) → .windowLine q ≠ s.lastWindow →
      s.reorderQueue (.windowLine q) = some t → Step s (.reorderQueue q, 0) t

/-- The pair a call stored in slot `i`, if it is a `createWindow` call that
returned `i`. -/
def storesAt (i : Slot) : Call × Int → Option (ProcPtr × Int)
  | (.createWindow proc (some window), r) =>
    if r = ((i : Nat) : Int) then some (proc, window) else none
  | _ => none

/-- The pair that the last `createWindow` call to return `i` stored. -/
def storedBy (calls : List (Call × Int)) (i : Slot) : Option (ProcPtr × Int) :=
  calls.reverse.findSome? (storesAt i)

theorem storedBy_snoc (calls : List (Call × Int)) (call : Call × Int) (i : Slot) :
    storedBy (calls ++ [call]) i = (storesAt i call).or (storedBy calls i) := by
  rw [storedBy, List.reverse_append, List.reverse_singleton, List.singleton_append,
    List.findSome?_cons]
  cases storesAt i call <;> rfl

/-- Every queued slot holds the pair that the call which returned it stored. -/
def Holds (calls : List (Call × Int)) (s : Queue) (l : List Slot) : Prop :=
  ∀ i ∈ l, ∃ p w, storedBy calls i = some (p, w) ∧ s.owner (.windowLine i) = (some p, w)

/-- A call that stores nothing in the slots of `l` keeps what they hold. -/
theorem Holds.snoc {calls : List (Call × Int)} {call : Call × Int} {t : Queue}
    {l' : List Slot} (h : Holds calls s l) (hl : ∀ i ∈ l', i ∈ l)
    (hstores : ∀ i ∈ l', storesAt i call = none)
    (howner : ∀ i ∈ l', t.owner (.windowLine i) = s.owner (.windowLine i)) :
    Holds (calls ++ [call]) t l' := by
  intro i hi
  obtain ⟨p, w, hstored, hs⟩ := h i (hl i hi)
  refine ⟨p, w, ?_, (howner i hi).trans hs⟩
  rw [storedBy_snoc, hstores i hi, Option.none_or, hstored]

theorem OnQueue.mem {q : Slot} (h : s.Represents l)
    (hq : s.OnQueue (.windowLine q)) : q ∈ l := by
  obtain ⟨l', hchain, hmem⟩ := hq
  rw [hchain.unique h.links.chain] at hmem
  exact mem_map_windowLine.1 hmem

theorem storesAt_createWindow_neg {i : Slot} (proc : ProcPtr) (arg : Option Int) :
    storesAt i (.createWindow proc arg, -1) = none := by
  cases arg with
  | none => rfl
  | some w =>
    rw [storesAt, if_neg]
    omega

/-- One call keeps the invariant. -/
theorem Step.represents {calls : List (Call × Int)} {call : Call × Int} {t : Queue}
    (inv : ∃ l, s.Represents l ∧ Holds calls s l) (step : Step s call t) :
    ∃ l, t.Represents l ∧ Holds (calls ++ [call]) t l := by
  obtain ⟨l, h, hholds⟩ := inv
  cases step with
  | @createWindow _ proc arg r hcall =>
    obtain ⟨r', t', hcall', hspec⟩ := h.sysCreateWindow proc arg
    obtain ⟨rfl, rfl⟩ := Prod.mk.inj (Option.some.inj (hcall.symm.trans hcall'))
    rcases hspec with ⟨rfl, rfl, -⟩ | ⟨w, i, rfl, rfl, hi, hrep, howner⟩
    · refine ⟨l, h, hholds.snoc (fun _ hj => hj) ?_ (fun _ _ => rfl)⟩
      intro j _
      exact storesAt_createWindow_neg proc arg
    · have hkeep : Holds (calls ++ [(Call.createWindow proc (some w), ((i : Nat) : Int))]) t l := by
        refine hholds.snoc (fun _ hj => hj) ?_ ?_
        · intro j hj
          rw [storesAt, if_neg]
          intro he
          have hji : j = i := Fin.ext (by omega)
          exact hi (hji ▸ hj)
        · intro j hj
          rw [howner, Function.update_of_ne]
          intro he
          exact hi (windowLine_injective he ▸ hj)
      refine ⟨l ++ [i], hrep, ?_⟩
      intro j hj
      rcases List.mem_append.1 hj with hj | hj
      · exact hkeep j hj
      · rw [List.mem_singleton] at hj
        subst hj
        refine ⟨proc, w, ?_, ?_⟩
        · rw [storedBy_snoc, storesAt, if_pos rfl, Option.some_or]
        · rw [howner, Function.update_self]
  | @deleteWindow _ arg r hcall =>
    obtain ⟨r', t', hcall', hspec⟩ := h.sysDeleteWindow arg
    obtain ⟨rfl, rfl⟩ := Prod.mk.inj (Option.some.inj (hcall.symm.trans hcall'))
    rcases hspec with ⟨rfl, rfl, -⟩ | ⟨i, hi, rfl, rfl, hrep, howner⟩
    · exact ⟨l, h, hholds.snoc (fun _ hj => hj) (fun _ _ => rfl) (fun _ _ => rfl)⟩
    · refine ⟨l.erase i, hrep, hholds.snoc (fun _ hj => List.mem_of_mem_erase hj)
        (fun _ _ => rfl) ?_⟩
      intro j hj
      rw [howner, Function.update_of_ne]
      intro he
      exact (h.nodup.mem_erase_iff.1 hj).1 (windowLine_injective he)
  | @reorderQueue _ q hq hlast hcall =>
    have hmem := hq.mem h
    obtain ⟨t', hcall', hrep, howner⟩ := h.reorderQueue hmem hlast
    obtain rfl := Option.some.inj (hcall.symm.trans hcall')
    refine ⟨l.erase q ++ [q], hrep, hholds.snoc ?_ (fun _ _ => rfl) ?_⟩
    · intro j hj
      rcases List.mem_append.1 hj with hj | hj
      · exact List.mem_of_mem_erase hj
      · rw [List.mem_singleton] at hj
        exact hj ▸ hmem
    · intro j _
      rw [howner]

/-- After any calls from `initWindow` the queue is a list of slots, each with
the pair that the call which returned it stored, and each further call is the
operation on the list that it is for. -/
theorem windowQueue_representation {calls : List (Call × Int)} {s : Queue}
    (run : Steps Step initWindow calls s) :
    ∃ l : List Slot,
      s.Represents l ∧ l.Nodup ∧ (s.lastWindow = .windowQueue ↔ l = []) ∧
      (∀ i ∈ l, ∃ p w, storedBy calls i = some (p, w) ∧ s.owner (.windowLine i) = (some p, w)) ∧
      (∀ proc arg, ∃ r t, s.sysCreateWindow proc arg = some (r, t) ∧
        ((r = -1 ∧ t = s ∧ (arg = none ∨ ∀ i, i ∈ l)) ∨
          ∃ (w : Int) (i : Slot), arg = some w ∧ r = (i : Nat) ∧ i ∉ l ∧
            t.Represents (l ++ [i]) ∧ t.owner = update s.owner (.windowLine i) (some proc, w))) ∧
      (∀ arg, ∃ r t, s.sysDeleteWindow arg = some (r, t) ∧
        ((r = -1 ∧ t = s ∧ ∀ i ∈ l, arg ≠ some ((i : Nat) : Int)) ∨
          ∃ i ∈ l, arg = some ((i : Nat) : Int) ∧ r = 0 ∧ t.Represents (l.erase i) ∧
            t.owner = update s.owner (.windowLine i) (none, 0))) ∧
      (∀ q ∈ l, .windowLine q ≠ s.lastWindow →
        ∃ t, s.reorderQueue (.windowLine q) = some t ∧ t.Represents (l.erase q ++ [q]) ∧
          t.owner = s.owner) := by
  have inv : ∃ l, s.Represents l ∧ Holds calls s l :=
    run.invariant_hist (I := fun calls s => ∃ l, s.Represents l ∧ Holds calls s l)
      ⟨[], initWindow_represents, by intro i hi; cases hi⟩ (fun inv step => step.represents inv)
  obtain ⟨l, h, hholds⟩ := inv
  exact ⟨l, h, h.nodup, h.last_eq_sentinel_iff, hholds, h.sysCreateWindow, h.sysDeleteWindow,
    fun q hq hlast => h.reorderQueue hq hlast⟩

/-- Two windows are created, the first is raised and the second deleted. -/
def sampleCalls : List (Call × Int) :=
  [(.createWindow 3 (some 4096), 0), (.createWindow 5 (some 8192), 1),
    (.reorderQueue 0, 0), (.deleteWindow (some 1), 0)]

theorem windowQueue_representation_sample :
    ∃ s l, Steps Step initWindow sampleCalls s ∧ s.Represents l ∧
      ∀ i ∈ l, ∃ p w, storedBy sampleCalls i = some (p, w) ∧
        s.owner (.windowLine i) = (some p, w) := by
  have run : ∃ s, Steps Step initWindow sampleCalls s := by
    refine ⟨_, .snoc (.snoc (.snoc (.snoc .nil (.createWindow rfl)) (.createWindow rfl))
      (.reorderQueue ⟨[.windowLine 0, .windowLine 1], ⟨rfl, rfl, rfl⟩, by decide⟩ (by decide) rfl))
      (.deleteWindow rfl)⟩
  obtain ⟨s, run⟩ := run
  obtain ⟨l, h, -, -, hholds, -⟩ := windowQueue_representation run
  exact ⟨s, l, run, h, hholds⟩

end Queue

end Xv6Gui
