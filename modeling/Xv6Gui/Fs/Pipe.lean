import Xv6Gui.Lib.Ring
import Xv6Gui.Lib.Runs

/-!
# Pipes

`pipe.c` keeps the bytes of a pipe in a ring with two counters of 32 bits.  Its functions
hold the lock of the pipe except while they sleep, so a call is a sequence of segments: from
`acquire`, or the return of `sleep`, up to the next `sleep`, or `release`.  Any number of
callers take turns in any order, and a caller that sleeps may go on at any time, whether or
not it was woken up.  Both ends can be closed at any time, and when both are the page is
gone.

The bytes that readers get are those that were stored, in this order (`pipe_fifo`).
-/

namespace Xv6Gui

open Runs

/-- `PIPESIZE`. -/
def pipesize : Nat := 512

/-- `struct pipe`. -/
structure Pipe where
  data : Nat → UInt8
  nread : Nat
  nwrite : Nat
  readopen : Bool
  writeopen : Bool

namespace Pipe

/-- The pipe of `pipealloc`, on a page with anything in it. -/
def init (data : Nat → UInt8) : Pipe := ⟨data, 0, 0, true, true⟩

/-- `p->data[p->nwrite++ % PIPESIZE] = c`. -/
def store (p : Pipe) (c : UInt8) : Pipe :=
  { p with data := Function.update p.data (p.nwrite % pipesize) c, nwrite := (p.nwrite + 1) % 2 ^ 32 }

/-- `p->nread++`. -/
def skip (p : Pipe) : Pipe := { p with nread := (p.nread + 1) % 2 ^ 32 }

/-- The loop of `pipewrite` from `i` on, with what is left of its rounds, up to the next
sleep.  It returns `i` at that point, and the result if the function returns. -/
def pipewriteLoop (addr : Nat → UInt8) (n : Int) (killed : Bool) :
    Nat → Nat → Pipe → Pipe × Nat × Option Int
  | 0, i, p => (p, i, some n)
  | rounds + 1, i, p =>
    if p.nwrite = (p.nread + pipesize) % 2 ^ 32 then
      if p.readopen = false ∨ killed = true then
        (p, i, some (-1))
      else
        (p, i, none)
    else
      pipewriteLoop addr n killed rounds (i + 1) (p.store (addr i))

/-- The segment of `pipewrite` that starts with `i`. -/
def pipewrite (p : Pipe) (addr : Nat → UInt8) (n : Int) (i : Nat) (killed : Bool) :
    Pipe × Nat × Option Int :=
  pipewriteLoop addr n killed (n.toNat - i) i p

/-- The second loop of `piperead`, with what is left of its rounds.  It returns the bytes
copied to `addr`. -/
def pipereadLoop : Nat → Pipe → Pipe × List UInt8
  | 0, p => (p, [])
  | rounds + 1, p =>
    if p.nread = p.nwrite then
      (p, [])
    else
      let (q, bytes) := pipereadLoop rounds p.skip
      (q, p.data (p.nread % pipesize) :: bytes)

/-- A segment of `piperead`.  It returns the bytes copied to `addr`, and the result if the
function returns. -/
def piperead (p : Pipe) (n : Int) (killed : Bool) : Pipe × List UInt8 × Option Int :=
  if p.nread = p.nwrite ∧ p.writeopen = true then
    (p, [], if killed then some (-1) else none)
  else
    let (q, bytes) := pipereadLoop n.toNat p
    (q, bytes, some bytes.length)

/-- `pipeclose`.  If both ends are closed the page is freed. -/
def pipeclose (p : Pipe) (writable : Bool) : Option Pipe :=
  let p := if writable then { p with writeopen := false } else { p with readopen := false }
  if p.readopen = false ∧ p.writeopen = false then none else some p

end Pipe

/-! ## Callers -/

/-- A call on the pipe.  For `pipewrite` it has the number of bytes stored so far. -/
inductive PipeCall where
  | write (addr : Nat → UInt8) (n : Int) (i : Nat)
  | read (n : Int)

/-- A pipe, unless it was freed, and the calls on it. -/
structure PipeState (P : Type) where
  pipe : Option Pipe
  call : P → Option PipeCall

/-- What a process does with a pipe. -/
inductive PipeEvent (P : Type) where
  | write (p : P) (addr : Nat → UInt8) (n : Int)
  | read (p : P) (n : Int)
  | segment (p : P) (killed : Bool)
  | close (writable : Bool)

/-- What a segment stores, what it gets, and what the function returns. -/
structure PipeOutput where
  stored : List UInt8
  handed : List UInt8
  result : Option Int

/-- Nothing happens. -/
def PipeOutput.quiet : PipeOutput := ⟨[], [], none⟩

variable {P : Type} [DecidableEq P]

namespace PipeState

/-- A call up to its next sleep. -/
def segment (s : PipeState P) (pipe : Pipe) (p : P) (killed : Bool) :
    PipeCall → PipeState P × PipeOutput
  | .write addr n i =>
    let (q, j, result) := pipe.pipewrite addr n i killed
    (⟨some q, Function.update s.call p (if result = none then some (.write addr n j) else none)⟩,
      ⟨(List.range' i (j - i)).map addr, [], result⟩)
  | .read n =>
    let (q, bytes, result) := pipe.piperead n killed
    (⟨some q, Function.update s.call p (if result = none then some (.read n) else none)⟩,
      ⟨[], bytes, result⟩)

/-- One event. -/
def step (s : PipeState P) (pipe : Pipe) : PipeEvent P → Option (PipeState P × PipeOutput)
  | .write p addr n =>
    if (s.call p).isNone then
      some ({ s with call := Function.update s.call p (some (.write addr n 0)) }, .quiet)
    else
      none
  | .read p n =>
    if (s.call p).isNone then
      some ({ s with call := Function.update s.call p (some (.read n)) }, .quiet)
    else
      none
  | .segment p killed => (s.call p).map (s.segment pipe p killed)
  | .close writable => some ({ s with pipe := pipe.pipeclose writable }, .quiet)

end PipeState

/-- A step of a pipe that was not freed, with what it does. -/
def PipeStep (s : PipeState P) (label : PipeEvent P × PipeOutput) (t : PipeState P) : Prop :=
  ∃ pipe, s.pipe = some pipe ∧ s.step pipe label.1 = some (t, label.2)

/-- A new pipe. -/
def PipeState.start (data : Nat → UInt8) : PipeState P := ⟨some (.init data), fun _ => none⟩

/-! ## Segments -/

namespace Pipe

/-- The ring in `data`. -/
def ring (p : Pipe) : Ring.Buffer UInt8 := ⟨p.data, p.nread, p.nwrite⟩

/-- The bytes in a pipe, oldest first. -/
def pending (p : Pipe) : List UInt8 := Ring.queue pipesize (2 ^ 32) p.ring

/-- After `done` bytes were read, the pipe holds `q`. -/
abbrev Holds (p : Pipe) (done : Nat) (q : List UInt8) : Prop :=
  Ring.Holds pipesize (2 ^ 32) p.ring done q

variable {p p' : Pipe} {done rounds i j : Nat} {q bytes : List UInt8} {addr : Nat → UInt8} {n : Int}
  {killed : Bool} {r : Option Int}

theorem Holds.pending_eq (h : p.Holds done q) : p.pending = q :=
  Ring.Holds.queue_eq h (by decide) (by decide)

theorem Holds.full_iff (h : p.Holds done q) :
    p.nwrite = (p.nread + pipesize) % 2 ^ 32 ↔ q.length = pipesize :=
  Ring.Holds.full_iff h (by decide)

theorem Holds.empty_iff (h : p.Holds done q) : p.nread = p.nwrite ↔ q = [] :=
  Ring.Holds.empty_iff h (by decide)

theorem Holds.store (h : p.Holds done q) (room : ¬ p.nwrite = (p.nread + pipesize) % 2 ^ 32)
    (c : UInt8) : (p.store c).Holds done (q ++ [c]) := by
  rw [h.full_iff] at room
  exact Ring.Holds.push h (by decide) (Nat.lt_of_le_of_ne h.fits room)

/-- A segment of `pipewrite` stores bytes in their order.  It ends early only if the pipe
is full. -/
theorem pipewriteLoop_holds (h : p.Holds done q)
    (run : pipewriteLoop addr n killed rounds i p = (p', j, r)) :
    i ≤ j ∧ j ≤ i + rounds ∧ p'.Holds done (q ++ (List.range' i (j - i)).map addr) ∧
      (r = none ∨ r = some (-1) ∧ j < i + rounds ∨ r = some n ∧ j = i + rounds) := by
  induction rounds generalizing i p q with
  | zero =>
    cases run
    simpa using h
  | succ rounds ih =>
    rw [pipewriteLoop] at run
    split at run
    · split at run
      · cases run
        simpa using h
      · cases run
        simpa using h
    · rename_i room
      obtain ⟨low, high, holds, result⟩ := ih (h.store room (addr i)) run
      have range : List.range' i (j - i) = i :: List.range' (i + 1) (j - (i + 1)) := by
        have succ : j - i = j - (i + 1) + 1 := by omega
        rw [succ, List.range'_succ]
      refine ⟨by omega, by omega, ?_, ?_⟩
      · simpa [range] using holds
      · rwa [show i + 1 + rounds = i + (rounds + 1) by omega] at result

/-- `piperead` takes bytes out until it has enough or the pipe is empty. -/
theorem pipereadLoop_holds (h : p.Holds done q) (run : pipereadLoop rounds p = (p', bytes)) :
    bytes = q.take rounds ∧ p'.Holds (done + bytes.length) (q.drop rounds) := by
  induction rounds generalizing p p' q done bytes with
  | zero =>
    cases run
    simpa using h
  | succ rounds ih =>
    rw [pipereadLoop] at run
    split at run
    · rename_i empty
      rw [h.empty_iff] at empty
      cases run
      simpa [empty] using h
    · rename_i some
      rw [h.empty_iff] at some
      obtain ⟨c, rest, rfl⟩ := List.exists_cons_of_ne_nil some
      generalize loop : pipereadLoop rounds p.skip = result at run
      obtain ⟨p'', tail⟩ := result
      cases run
      have rest_ : p.skip.Holds (done + 1) rest := Ring.Holds.pop h
      obtain ⟨rfl, holds⟩ := ih rest_ loop
      have front : p.data (p.nread % pipesize) = c := Ring.Holds.front h (by decide)
      simp only [front, List.take_succ_cons, List.drop_succ_cons, List.length_cons, true_and]
      rwa [← Nat.add_assoc, Nat.add_right_comm]

theorem pipeclose_ring {writable : Bool} (h : p.pipeclose writable = some p') :
    p.ring = p'.ring := by
  simp only [pipeclose] at h
  cases writable with
  | false =>
    simp only [Bool.false_eq_true, if_false] at h
    split at h
    · cases h
    · cases h
      rfl
  | true =>
    simp only [if_true] at h
    split at h
    · cases h
    · cases h
      rfl

end Pipe

/-! ## Runs -/

/-- The bytes written. -/
def stored (labels : List (PipeEvent P × PipeOutput)) : List UInt8 :=
  labels.flatMap (·.2.stored)

/-- The bytes read. -/
def handed (labels : List (PipeEvent P × PipeOutput)) : List UInt8 :=
  labels.flatMap (·.2.handed)

/-- What an event adds to the bytes stored by the current call of `p`. -/
def storedBy.next (p : P) (bytes : List UInt8) : PipeEvent P × PipeOutput → List UInt8
  | (.write p' _ _, _) => if p' = p then [] else bytes
  | (.segment p' _, out) => if p' = p then bytes ++ out.stored else bytes
  | _ => bytes

/-- The bytes stored by the last call of `p`. -/
def storedBy (p : P) (labels : List (PipeEvent P × PipeOutput)) : List UInt8 :=
  labels.foldl (storedBy.next p) []

/-- The pipe holds what was stored and not read, and every call has stored what it is at. -/
structure PipeInv (labels : List (PipeEvent P × PipeOutput)) (s : PipeState P) : Prop where
  queue : ∃ q, stored labels = handed labels ++ q ∧
    ∀ pipe, s.pipe = some pipe → pipe.Holds (handed labels).length q
  own : ∀ p addr n i, s.call p = some (.write addr n i) →
    i ≤ n.toNat ∧ storedBy p labels = (List.range i).map addr

variable {s t : PipeState P} {labels : List (PipeEvent P × PipeOutput)}

omit [DecidableEq P] in
theorem stored_snoc (l : PipeEvent P × PipeOutput) :
    stored (labels ++ [l]) = stored labels ++ l.2.stored := by
  simp [stored]

omit [DecidableEq P] in
theorem handed_snoc (l : PipeEvent P × PipeOutput) :
    handed (labels ++ [l]) = handed labels ++ l.2.handed := by
  simp [handed]

theorem storedBy_snoc (p : P) (l : PipeEvent P × PipeOutput) :
    storedBy p (labels ++ [l]) = storedBy.next p (storedBy p labels) l := by
  simp [storedBy]

theorem PipeInv.start (data : Nat → UInt8) : PipeInv [] (PipeState.start data : PipeState P) := by
  refine ⟨⟨[], rfl, ?_⟩, ?_⟩
  · intro pipe e
    cases e
    exact Ring.holds_nil data
  · intro p addr n i call
    cases call

/-- Only the call of `p` changes. -/
theorem PipeInv.own_update (h : PipeInv labels s) {l : PipeEvent P × PipeOutput} {p : P}
    {c : Option PipeCall} (others : ∀ p', p' ≠ p → ∀ bytes, storedBy.next p' bytes l = bytes)
    (mine : ∀ addr n i, c = some (.write addr n i) →
      i ≤ n.toNat ∧ storedBy p (labels ++ [l]) = (List.range i).map addr)
    (p' : P) (addr : Nat → UInt8) (n : Int) (i : Nat)
    (call : Function.update s.call p c p' = some (.write addr n i)) :
    i ≤ n.toNat ∧ storedBy p' (labels ++ [l]) = (List.range i).map addr := by
  by_cases e : p' = p
  · subst e
    rw [Function.update_self] at call
    exact mine addr n i call
  · rw [Function.update_of_ne e] at call
    rw [storedBy_snoc, others p' e]
    exact h.own p' addr n i call

/-- A call, or the end of one of the ends. -/
theorem PipeInv.quiet (h : PipeInv labels s) {e : PipeEvent P} {call : P → Option PipeCall}
    (own : ∀ p addr n i, call p = some (.write addr n i) →
      i ≤ n.toNat ∧ storedBy p (labels ++ [(e, .quiet)]) = (List.range i).map addr)
    {pipe : Option Pipe} (same : ∀ p, pipe = some p → ∃ p', s.pipe = some p' ∧ p'.ring = p.ring) :
    PipeInv (labels ++ [(e, .quiet)]) ⟨pipe, call⟩ := by
  obtain ⟨q, all, holds⟩ := h.queue
  refine ⟨⟨q, ?_, ?_⟩, own⟩
  · simp [stored_snoc, handed_snoc, PipeOutput.quiet, all]
  · intro p hp
    obtain ⟨p', here, ring⟩ := same p hp
    have holds := holds p' here
    rw [Pipe.Holds, ring] at holds
    rw [handed_snoc]
    simpa only [PipeOutput.quiet, List.append_nil] using holds

/-- What a segment of `pipewrite` does. -/
theorem PipeInv.write (h : PipeInv labels s) {pipe p' : Pipe} {p : P} {killed : Bool}
    {addr : Nat → UInt8} {n : Int} {i j : Nat} {r : Option Int} (here : s.pipe = some pipe)
    (call : s.call p = some (.write addr n i))
    (run : pipe.pipewrite addr n i killed = (p', j, r)) :
    PipeInv (labels ++ [(.segment p killed, ⟨(List.range' i (j - i)).map addr, [], r⟩)])
      ⟨some p', Function.update s.call p (if r = none then some (.write addr n j) else none)⟩ ∧
    (r = none ∨ r = some (-1) ∧ j < n.toNat ∨ r = some n ∧
      storedBy p (labels ++ [(.segment p killed, ⟨(List.range' i (j - i)).map addr, [], r⟩)]) =
        (List.range n.toNat).map addr) := by
  obtain ⟨q, all, holds⟩ := h.queue
  obtain ⟨bound, mine⟩ := h.own p addr n i call
  obtain ⟨low, high, holds', result⟩ := Pipe.pipewriteLoop_holds (holds pipe here) run
  have total : i + (n.toNat - i) = n.toNat := by omega
  rw [total] at high result
  have bytes : storedBy p (labels ++ [(.segment p killed,
      ⟨(List.range' i (j - i)).map addr, [], r⟩)]) = (List.range j).map addr := by
    have range : List.range j = List.range i ++ List.range' i (j - i) := by
      simp only [List.range_eq_range']
      have both := List.range'_append_1 (s := 0) (m := i) (n := j - i)
      rw [Nat.zero_add, Nat.add_sub_cancel' low] at both
      exact both.symm
    simp [storedBy_snoc, storedBy.next, mine, range]
  refine ⟨⟨⟨q ++ (List.range' i (j - i)).map addr, ?_, ?_⟩, h.own_update ?_ ?_⟩, ?_⟩
  · simp [stored_snoc, handed_snoc, all]
  · intro pipe e
    cases e
    simpa [handed_snoc] using holds'
  · intro p₁ ne bytes
    simp [storedBy.next, ne.symm]
  · intro addr₁ n₁ i₁ call₁
    split at call₁
    · cases call₁
      exact ⟨high, bytes⟩
    · cases call₁
  · obtain none | short | ⟨all, rfl⟩ := result
    · exact .inl none
    · exact .inr (.inl short)
    · exact .inr (.inr ⟨all, bytes⟩)

/-- What a segment of `piperead` does. -/
theorem PipeInv.read (h : PipeInv labels s) {pipe p' : Pipe} {p : P} {killed : Bool} {n : Int}
    {bytes : List UInt8} {r : Option Int} (here : s.pipe = some pipe)
    (run : pipe.piperead n killed = (p', bytes, r)) :
    PipeInv (labels ++ [(.segment p killed, ⟨[], bytes, r⟩)])
      ⟨some p', Function.update s.call p (if r = none then some (.read n) else none)⟩ ∧
    (r = some 0 → n ≤ 0 ∨ pipe.pending = [] ∧ pipe.writeopen = false) := by
  obtain ⟨q, all, holds⟩ := h.queue
  have holds := holds pipe here
  have own := h.own_update (l := (.segment p killed, ⟨[], bytes, r⟩))
    (c := if r = none then some (.read n) else none) (p := p)
    (fun p₁ ne bytes => by simp [storedBy.next, ne.symm])
    (fun addr₁ n₁ i₁ call₁ => by split at call₁ <;> cases call₁)
  rw [Pipe.piperead] at run
  split at run
  · rename_i waits
    cases run
    refine ⟨⟨⟨q, ?_, ?_⟩, own⟩, ?_⟩
    · simp [stored_snoc, handed_snoc, all]
    · intro pipe e
      cases e
      simpa [handed_snoc] using holds
    · intro zero
      split at zero
      · cases zero
      · cases zero
  · rename_i goes
    generalize loop : Pipe.pipereadLoop n.toNat pipe = result at run
    obtain ⟨p'', bytes'⟩ := result
    cases run
    obtain ⟨rfl, holds'⟩ := Pipe.pipereadLoop_holds holds loop
    refine ⟨⟨⟨q.drop n.toNat, ?_, ?_⟩, own⟩, ?_⟩
    · simp [stored_snoc, handed_snoc, all]
    · intro pipe e
      cases e
      simpa [handed_snoc] using holds'
    · intro zero
      by_cases asked : n ≤ 0
      · exact .inl asked
      · have none : q = [] := by
          cases q with
          | nil => rfl
          | cons c q =>
            simp at zero
            omega
        rw [holds.pending_eq]
        rw [holds.empty_iff] at goes
        exact .inr ⟨none, by simpa [none] using goes⟩

/-- An event keeps the invariant. -/
theorem PipeInv.step (h : PipeInv labels s) {l : PipeEvent P × PipeOutput} (step : PipeStep s l t) :
    PipeInv (labels ++ [l]) t := by
  obtain ⟨pipe, here, run⟩ := step
  obtain ⟨e, out⟩ := l
  cases e with
  | write p addr n =>
    simp only [PipeState.step] at run
    split at run
    · cases run
      refine h.quiet (h.own_update ?_ ?_) fun p hp => ⟨p, hp, rfl⟩
      · intro p' ne bytes
        simp [storedBy.next, ne.symm]
      · intro addr' n' i' e
        cases e
        simp [storedBy_snoc, storedBy.next]
    · cases run
  | read p n =>
    simp only [PipeState.step] at run
    split at run
    · cases run
      refine h.quiet (h.own_update ?_ ?_) fun p hp => ⟨p, hp, rfl⟩
      · intro p' ne bytes
        rfl
      · intro addr' n' i' e
        cases e
    · cases run
  | segment p killed =>
    simp only [PipeState.step, Option.map_eq_some_iff] at run
    obtain ⟨c, call, run⟩ := run
    cases c with
    | write addr n i =>
      cases run
      exact (h.write here call rfl).1
    | read n =>
      cases run
      exact (h.read here rfl).1
  | close writable =>
    cases run
    refine h.quiet ?_ ?_
    · intro p addr n i call
      rw [storedBy_snoc]
      exact h.own p addr n i call
    · intro p hp
      exact ⟨pipe, here, Pipe.pipeclose_ring hp⟩

/-- Pipes are queues.  In every run readers get the bytes that were stored, in this order;
what they did not get yet is in the pipe, and these are at most `PIPESIZE` bytes.  A call of
`pipewrite` that returns `n` has stored its bytes once and in their order, and `piperead`
returns `0` only if nothing is asked for or the pipe is empty and nobody can write to it. -/
theorem pipe_fifo {data : Nat → UInt8} (run : Steps PipeStep (PipeState.start data) labels s) :
    handed labels <+: stored labels ∧
    (∀ pipe, s.pipe = some pipe →
      stored labels = handed labels ++ pipe.pending ∧ pipe.pending.length ≤ pipesize) ∧
    (∀ p killed out t pipe, PipeStep s (.segment p killed, out) t → s.pipe = some pipe →
      (∀ addr n i, s.call p = some (.write addr n i) → out.result = some n →
        storedBy p (labels ++ [(.segment p killed, out)]) = (List.range n.toNat).map addr) ∧
      ∀ n, s.call p = some (.read n) → out.result = some 0 →
        n ≤ 0 ∨ pipe.pending = [] ∧ pipe.writeopen = false) := by
  have inv : PipeInv labels s := run.invariant_hist (.start data) fun h step => h.step step
  obtain ⟨q, all, holds⟩ := inv.queue
  refine ⟨⟨q, all.symm⟩, ?_, ?_⟩
  · intro pipe here
    rw [(holds pipe here).pending_eq]
    exact ⟨all, (holds pipe here).fits⟩
  · rintro p killed out t pipe ⟨pipe', here, run⟩ here'
    obtain rfl : pipe' = pipe := Option.some.inj (here.symm.trans here')
    simp only [PipeState.step, Option.map_eq_some_iff] at run
    obtain ⟨c, call, run⟩ := run
    refine ⟨?_, ?_⟩
    · intro addr n i call' result
      obtain rfl := Option.some.inj (call.symm.trans call')
      cases run
      have segment : pipe'.pipewrite addr n i killed = (_, _, _) := rfl
      obtain none | ⟨minus, short⟩ | ⟨_, bytes⟩ := (inv.write here call segment).2
      · exact absurd (none.symm.trans result) (Option.some_ne_none n).symm
      · have : -1 = n := Option.some.inj (minus.symm.trans result)
        omega
      · exact bytes
    · intro n call' result
      obtain rfl := Option.some.inj (call.symm.trans call')
      cases run
      have segment : pipe'.piperead n killed = (_, _, _) := rfl
      exact (inv.read (p := p) here segment).2 result

theorem pipe_fifo_two_of_three :
    ∃ labels, ∃ s : PipeState Bool, ∃ pipe,
      Steps PipeStep (PipeState.start fun _ => 0) labels s ∧ s.pipe = some pipe ∧
      stored labels = [7, 8, 9] ∧ handed labels = [7, 8] ∧
        stored labels = handed labels ++ pipe.pending := by
  have run : Steps PipeStep (PipeState.start fun _ => 0 : PipeState Bool)
      ([] ++ [(.write true (fun i => UInt8.ofNat (i + 7)) 3, .quiet)] ++
        [(.segment true false, ⟨[7, 8, 9], [], some 3⟩)] ++ [(.read false 2, .quiet)] ++
          [(.segment false false, ⟨[], [7, 8], some 2⟩)]) _ :=
    .snoc (.snoc (.snoc (.snoc .nil ⟨_, rfl, rfl⟩) ⟨_, rfl, rfl⟩) ⟨_, rfl, rfl⟩) ⟨_, rfl, rfl⟩
  obtain ⟨_, pending, _⟩ := pipe_fifo run
  exact ⟨_, _, _, run, rfl, rfl, rfl, (pending _ rfl).1⟩

end Xv6Gui
