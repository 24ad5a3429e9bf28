import Mathlib.Data.List.Basic

/-!
# What code in a state monad leaves alone

Code that reads and writes a state and may fail is a `StateT σ (Except ε)`.  A
*frame* is a preorder on the states: what code of some kind may do to the state at
most.  Code *respects* a frame if its runs that succeed stay in it.

A frame is respected by a whole program if it is respected by its parts, so it is
shown of the primitives once, and of everything that is made of them by the rules
below.

A *triple* says what code does from the states with a precondition: it returns with
the postcondition, or it fails with one of some errors.  If no error is allowed, the
code returns.
-/

namespace Effect

variable {σ ε α β : Type}

/-- A preorder on the states. -/
structure Frame (σ : Type) where
  rel : σ → σ → Prop
  refl : ∀ s, rel s s
  trans : ∀ {s t u}, rel s t → rel t u → rel s u

/-- The runs of `x` that succeed stay in the frame. -/
structure Respects (F : Frame σ) (x : StateT σ (Except ε) α) : Prop where
  rel : ∀ {s a t}, x.run s = .ok (a, t) → F.rel s t

variable {F : Frame σ} {x : StateT σ (Except ε) α} {f : α → StateT σ (Except ε) β}

/-- A run of two pieces of code is a run of the first and then one of the
second. -/
theorem bind_ok {s t : σ} {b : β} : (x >>= f).run s = .ok (b, t) ↔
    ∃ a u, x.run s = .ok (a, u) ∧ (f a).run u = .ok (b, t) := by
  show Except.bind (x.run s) _ = _ ↔ _
  cases h : x.run s with
  | error e => simp [Except.bind]
  | ok r =>
    constructor
    · intro h
      exact ⟨r.1, r.2, rfl, h⟩
    · rintro ⟨a, u, e, rest⟩
      cases e
      exact rest

/-- If the first of two pieces of code returns, the second goes on. -/
theorem run_bind {s t : σ} {a : α} (h : x.run s = .ok (a, t)) :
    (x >>= f).run s = (f a).run t := by
  show Except.bind (x.run s) _ = _
  rw [h]
  rfl

theorem run_bind_error {s : σ} {e : ε} (h : x.run s = .error e) :
    (x >>= f).run s = .error e := by
  show Except.bind (x.run s) _ = _
  rw [h]
  rfl

theorem run_get_bind {g : σ → StateT σ (Except ε) α} {s : σ} :
    (get >>= g).run s = (g s).run s := rfl

theorem run_set_bind {g : PUnit → StateT σ (Except ε) α} {s t : σ} :
    (set t >>= g).run s = (g ⟨⟩).run t := rfl

theorem eq_ok_of_toOption {r : Except ε α} {a : α} (h : r.toOption = some a) : r = .ok a := by
  cases r with
  | error e => cases h
  | ok b => rw [Option.some.inj h]

namespace Respects

theorem pure (a : α) : Respects F (pure a : StateT σ (Except ε) α) := by
  constructor
  intro s b t run
  cases run
  exact F.refl s

theorem throw (e : ε) : Respects F (throw e : StateT σ (Except ε) α) := by
  constructor
  intro s b t run
  cases run

theorem bind (hx : Respects F x) (hf : ∀ a, Respects F (f a)) : Respects F (x >>= f) := by
  constructor
  intro s b t run
  obtain ⟨a, u, first, second⟩ := bind_ok.mp run
  exact F.trans (hx.rel first) ((hf a).rel second)

theorem get_bind {f : σ → StateT σ (Except ε) β} (hf : ∀ s, Respects F (f s)) :
    Respects F (get >>= f) := by
  constructor
  intro s b t run
  exact (hf s).rel run

theorem modify {g : σ → σ} (h : ∀ s, F.rel s (g s)) :
    Respects F (modify g : StateT σ (Except ε) PUnit) := by
  constructor
  intro s b t run
  cases run
  exact h s

theorem ite {p : Prop} [Decidable p] {y : StateT σ (Except ε) α} (hx : p → Respects F x)
    (hy : ¬ p → Respects F y) : Respects F (if p then x else y) := by
  split
  · rename_i h
    exact hx h
  · rename_i h
    exact hy h

theorem forM {l : List α} {g : α → StateT σ (Except ε) PUnit} (h : ∀ a ∈ l, Respects F (g a)) :
    Respects F (l.forM g) := by
  induction l with
  | nil => exact pure _
  | cons a l ih =>
    refine bind (h a List.mem_cons_self) fun _ => ih ?_
    intro b hb
    exact h b (List.mem_cons_of_mem _ hb)

end Respects

/-! ## Triples -/

/-- From a state with `P`, `x` returns with `Q` or fails with an error in `E`. -/
def Triple (P : σ → Prop) (x : StateT σ (Except ε) α) (Q : α → σ → Prop) (E : ε → Prop) : Prop :=
  ∀ s, P s → match x.run s with
    | .ok (a, t) => Q a t
    | .error e => E e

namespace Triple

variable {P P' : σ → Prop} {Q Q' : α → σ → Prop} {R : β → σ → Prop} {E : ε → Prop}

theorem ok {s t : σ} {a : α} (h : Triple P x Q E) (hs : P s) (run : x.run s = .ok (a, t)) :
    Q a t := by
  have result := h s hs
  rwa [run] at result

theorem error {s : σ} {e : ε} (h : Triple P x Q E) (hs : P s) (run : x.run s = .error e) :
    E e := by
  have result := h s hs
  rwa [run] at result

theorem of_run (ok : ∀ s a t, P s → x.run s = .ok (a, t) → Q a t)
    (error : ∀ s e, P s → x.run s = .error e → E e) : Triple P x Q E := by
  intro s hs
  cases run : x.run s with
  | error e => exact error s e hs run
  | ok r => exact ok s r.1 r.2 hs run

/-- Code that cannot fail returns. -/
theorem returns {s : σ} (h : Triple P x Q fun _ => False) (hs : P s) :
    ∃ a t, x.run s = .ok (a, t) ∧ Q a t := by
  cases run : x.run s with
  | error e => exact absurd (h.error hs run) id
  | ok r => exact ⟨r.1, r.2, rfl, h.ok hs run⟩

theorem conseq (h : Triple P x Q E) (pre : ∀ s, P' s → P s) (post : ∀ a s, Q a s → Q' a s) :
    Triple P' x Q' E := by
  intro s hs
  have result := h s (pre s hs)
  cases run : x.run s with
  | error e =>
    rw [run] at result
    exact result
  | ok r =>
    rw [run] at result
    exact post r.1 r.2 result

theorem pre (h : Triple P x Q E) (pre : ∀ s, P' s → P s) : Triple P' x Q E :=
  h.conseq pre fun _ _ hs => hs

theorem post (h : Triple P x Q E) (post : ∀ a s, Q a s → Q' a s) : Triple P x Q' E :=
  h.conseq (fun _ hs => hs) post

/-- More errors are allowed. -/
theorem weaken {E' : ε → Prop} (h : Triple P x Q E) (errors : ∀ e, E e → E' e) :
    Triple P x Q E' := by
  intro s hs
  cases run : x.run s with
  | error e => exact errors e (h.error hs run)
  | ok r => exact h.ok hs run

theorem pure {a : α} (h : ∀ s, P s → Q a s) :
    Triple P (pure a : StateT σ (Except ε) α) Q E := h

theorem bind (hx : Triple P x Q E) (hf : ∀ a, Triple (Q a) (f a) R E) :
    Triple P (x >>= f) R E := by
  intro s hs
  have first := hx s hs
  have split : (x >>= f).run s = Except.bind (x.run s) fun r => (f r.1).run r.2 := rfl
  rw [split]
  cases run : x.run s with
  | error e =>
    rw [run] at first
    exact first
  | ok r =>
    rw [run] at first
    exact hf r.1 r.2 first

/-- Two triples about the same code, of which the first says how it fails. -/
theorem both {P' : σ → Prop} {Q' : α → σ → Prop} (h : Triple P x Q E)
    (h' : Triple P' x Q' fun _ => True) :
    Triple (fun s => P s ∧ P' s) x (fun a s => Q a s ∧ Q' a s) E := by
  rintro s ⟨hs, hs'⟩
  cases run : x.run s with
  | error e => exact h.error hs run
  | ok r => exact ⟨h.ok hs run, h'.ok hs' run⟩

/-- From each state by itself. -/
theorem at_state (h : ∀ s, P s → Triple (· = s) x Q E) : Triple P x Q E := by
  intro s hs
  exact h s hs s rfl

/-- A part of the precondition that is not about the state. -/
theorem known {p : Prop} (h : p → Triple P x Q E) : Triple (fun s => p ∧ P s) x Q E := by
  rintro s ⟨hp, hs⟩
  exact h hp s hs

theorem get_bind {f : σ → StateT σ (Except ε) β} (h : ∀ s, P s → Triple (· = s) (f s) R E) :
    Triple P (get >>= f) R E := by
  intro s hs
  exact h s hs s rfl

/-- The state is read, and the precondition still holds. -/
theorem read_bind {f : σ → StateT σ (Except ε) β} (h : ∀ s, P s → Triple P (f s) R E) :
    Triple P (get >>= f) R E := by
  intro s hs
  exact h s hs s hs

theorem modify {g : σ → σ} {Q : PUnit → σ → Prop} (h : ∀ s, P s → Q ⟨⟩ (g s)) :
    Triple P (modify g : StateT σ (Except ε) PUnit) Q E := h

theorem ite {p : Prop} [Decidable p] {y : StateT σ (Except ε) α} (hx : p → Triple P x Q E)
    (hy : ¬ p → Triple P y Q E) : Triple P (if p then x else y) Q E := by
  split
  · rename_i h
    exact hx h
  · rename_i h
    exact hy h

/-- The rule for a loop over a list.  The invariant speaks about the part that is
done. -/
theorem forM {l : List α} {g : α → StateT σ (Except ε) PUnit} {I : List α → σ → Prop}
    (step : ∀ done a rest, l = done ++ a :: rest →
      Triple (I done) (g a) (fun _ => I (done ++ [a])) E) :
    Triple (I []) (l.forM g) (fun _ => I l) E := by
  suffices loop : ∀ rest done, l = done ++ rest →
      Triple (I done) (rest.forM g) (fun _ => I l) E from loop l [] rfl
  intro rest
  induction rest with
  | nil =>
    intro done e
    rw [List.append_nil] at e
    exact pure fun s hs => e ▸ hs
  | cons a rest ih =>
    intro done e
    refine bind (step done a rest e) fun _ => ih (done ++ [a]) ?_
    rw [e, List.append_assoc]
    rfl

end Triple

end Effect
