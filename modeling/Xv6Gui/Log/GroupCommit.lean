import Xv6Gui.Log.Operations

/-!
# Group commit

A commit runs only while no operation does.  That depends on `outstanding` and
`committing` alone, which are changed under the lock, so it holds in every run.

What is committed also depends on `log_write`.  Its search and its stores are
not protected against another `log_write`: two processes may find the same free
entry, store their sectors there one over the other, and count both.  Then the
header misses a sector that an operation has logged, and lists one that none
has.  As long as the calls of `log_write` do not overlap, each of them records
its sector as a single step would.
-/

namespace Xv6Gui.Ops

variable {P : Type*} {s t : Ops P} {p q : P} {a : Action} {c : Pc}

/-! ## Operations and commits -/

/-- What holds in every state of a run. -/
structure Inv (s : Ops P) : Prop where
  /-- `outstanding` counts the processes in an operation. -/
  active : ∃ A : Finset P, (∀ p, p ∈ A ↔ (s.pc p).op.isSome) ∧ s.log.log.outstanding = A.card
  flag : ∀ p, (s.pc p).isCommit → s.log.log.committing = true
  unique : ∀ p q, (s.pc p).isCommit → (s.pc q).isCommit → p = q
  quiet : s.log.log.committing = true → s.log.log.outstanding = 0
  owners : ∀ e ∈ s.entries, e.1 ∈ s.ended ∨ ∃ p, (s.pc p).op = some e.1
  history : ∀ T ∈ s.committed, ∀ e ∈ T.entries, e.1 ∈ T.ended
  calm : s.panicked ≠ some "log.committing"

theorem calm_of_none (h : s.panicked = none) : s.panicked ≠ some "log.committing" := by
  rw [h]
  exact (Option.some_ne_none _).symm

namespace Inv

theorem initial (h : s.Initial) : s.Inv where
  active := ⟨∅, fun p => by simp [h.pc p, Pc.op], by rw [h.outstanding]; rfl⟩
  flag p hp := by simp [h.pc p, Pc.isCommit] at hp
  unique p q hp := by simp [h.pc p, Pc.isCommit] at hp
  quiet _ := h.outstanding
  owners e he := by simp [h.entries] at he
  history T hT := by simp [h.committed] at hT
  calm := by simp [h.panicked]

/-- A step that keeps the flags, the records and the class of every process. -/
theorem congr (h : s.Inv) (hop : ∀ q, (t.pc q).op = (s.pc q).op)
    (hcommit : ∀ q, (t.pc q).isCommit = (s.pc q).isCommit)
    (hout : t.log.log.outstanding = s.log.log.outstanding)
    (hflag : t.log.log.committing = s.log.log.committing) (hended : t.ended = s.ended)
    (hentries : t.entries = s.entries) (hcommitted : t.committed = s.committed)
    (hcalm : t.panicked ≠ some "log.committing") : t.Inv where
  active := by
    obtain ⟨A, hA, hn⟩ := h.active
    exact ⟨A, fun p => by rw [hop, hA], hout.trans hn⟩
  flag p hp := by
    rw [hcommit] at hp
    rw [hflag, h.flag p hp]
  unique p q hp hq := by
    rw [hcommit] at hp hq
    exact h.unique p q hp hq
  quiet hc := by
    rw [hflag] at hc
    rw [hout, h.quiet hc]
  owners e he := by
    rw [hentries] at he
    simpa only [hended, hop] using h.owners e he
  history := hcommitted ▸ h.history
  calm := hcalm

theorem panic (h : s.Inv) (message : String) (hm : message ≠ "log.committing") :
    (s.panic message).Inv :=
  h.congr (fun _ => rfl) (fun _ => rfl) rfl rfl rfl rfl rfl fun e => hm (Option.some.inj e)

/-- While a commit is in progress no process is in an operation. -/
theorem no_op (h : s.Inv) (hc : s.log.log.committing = true) (q : P) : (s.pc q).op = none := by
  obtain ⟨A, hA, hn⟩ := h.active
  rw [h.quiet hc] at hn
  have empty : A = ∅ := Finset.card_eq_zero.mp (by exact_mod_cast hn.symm)
  have out := (not_congr (hA q)).mp (by simp [empty])
  exact Option.not_isSome_iff_eq_none.mp out

/-- While a process is in an operation no commit is in progress. -/
theorem not_committing {op : Nat} (h : s.Inv) (hp : (s.pc p).op = some op) :
    s.log.log.committing = false := by
  by_contra hc
  have none := h.no_op (Bool.not_eq_false _ ▸ hc) p
  rw [hp] at none
  cases none

end Inv

variable {lh : LogHeader}

/-! ## Recording sectors -/

/-- The place the search of `log_write` has found: the entry of the sector, or the
one behind the last. -/
def Found (lh : LogHeader) (sector i : Nat) : Prop :=
  ((i : Int) < lh.n ∧ lh.sector i = sector) ∨ ((i : Int) = lh.n ∧ sector ∉ lh.sectors)

/-- The header in the course of a `log_write` that nothing disturbs.  The sectors
in `E` have been logged before. -/
def Stage (lh : LogHeader) (E : Finset Nat) (sector : Nat) : LogWritePc → Prop
  | .checkSize => lh.sectors.toFinset = E
  | .checkOutstanding => lh.sectors.toFinset = E
  | .search i => lh.sectors.toFinset = E ∧ (i : Int) ≤ lh.n ∧ ∀ j < i, lh.sector j ≠ sector
  | .store i => lh.sectors.toFinset = E ∧ Found lh sector i
  | .test i => lh.sectors.toFinset = E ∧ Found lh sector i ∧ lh.sector i = sector
  | .increment =>
    lh.sectors.toFinset = E ∧ sector ∉ lh.sectors ∧ lh.sector lh.n.toNat = sector
  | .pin => lh.sectors.toFinset = insert sector E

theorem found_of_search {sector i : Nat} (hi : (i : Int) ≤ lh.n)
    (before : ∀ j < i, lh.sector j ≠ sector) (hs : ¬ ((i : Int) < lh.n ∧ lh.sector i ≠ sector)) :
    Found lh sector i := by
  by_cases lt : (i : Int) < lh.n
  · exact .inl ⟨lt, by_contra fun ne => hs ⟨lt, ne⟩⟩
  · refine .inr ⟨by omega, ?_⟩
    intro mem
    obtain ⟨j, hj, e⟩ := List.mem_map.mp mem
    have := List.mem_range.mp hj
    exact before j (by omega) e

theorem store_sectors {sector i : Nat} (h : Found lh sector i) :
    ({ lh with sector := Function.update lh.sector i sector } : LogHeader).sectors =
      lh.sectors := by
  refine List.map_congr_left ?_
  intro j hj
  have hj : j < lh.n.toNat := List.mem_range.mp hj
  obtain ⟨_, e⟩ | ⟨_, _⟩ := h
  · show Function.update lh.sector i sector j = lh.sector j
    rw [← e, Function.update_eq_self]
  · exact Function.update_of_ne (by omega) ..

theorem increment_sectors (hn : 0 ≤ lh.n) :
    ({ lh with n := lh.n + 1 } : LogHeader).sectors = lh.sectors ++ [lh.sector lh.n.toNat] := by
  have succ : (lh.n + 1).toNat = lh.n.toNat + 1 := by omega
  simp only [LogHeader.sectors, succ, List.range_succ, List.map_append, List.map_singleton]

/-- The distinct sectors that have been logged since the log was empty. -/
def logged (s : Ops P) : Finset Nat := s.entries.image Prod.snd

/-- What holds while calls of `log_write` do not overlap: the header lists the
logged sectors. -/
structure Tidy (s : Ops P) : Prop where
  alone : ∀ p q, (s.pc p).stage.isSome → (s.pc q).stage.isSome → p = q
  nonneg : 0 ≤ s.log.log.lh.n
  distinct : s.log.log.lh.sectors.Nodup
  settled : (∀ p, (s.pc p).stage = none) → s.log.log.lh.sectors.toFinset = s.logged
  staged : ∀ p sector c, (s.pc p).stage = some (sector, c) →
    Stage s.log.log.lh s.logged sector c
  history : ∀ T ∈ s.committed, T.sectors.toFinset = T.entries.image Prod.snd

namespace Tidy

theorem initial (h : s.Initial) : s.Tidy where
  alone p _ hp := by simp [h.pc p, Pc.stage] at hp
  nonneg := h.n.ge
  distinct := by
    rw [LogHeader.sectors, h.n]
    exact List.nodup_nil
  settled _ := by
    rw [LogHeader.sectors, h.n, logged, h.entries]
    rfl
  staged p _ _ hp := by simp [h.pc p, Pc.stage] at hp
  history T hT := by simp [h.committed] at hT

/-- A step that keeps the header, the records and the place of every process in
`log_write`. -/
theorem congr (h : s.Tidy) (hstage : ∀ q, (t.pc q).stage = (s.pc q).stage)
    (hlh : t.log.log.lh = s.log.log.lh) (hentries : t.entries = s.entries)
    (hcommitted : t.committed = s.committed) : t.Tidy where
  alone p q := by
    rw [hstage, hstage]
    exact h.alone p q
  nonneg := hlh ▸ h.nonneg
  distinct := hlh ▸ h.distinct
  settled none := by
    rw [hlh, logged, hentries]
    exact h.settled fun q => (hstage q).symm.trans (none q)
  staged p sector c hp := by
    rw [hlh, logged, hentries]
    exact h.staged p sector c ((hstage p).symm.trans hp)
  history := hcommitted ▸ h.history

/-- While nobody logs, a header of the logged sectors is all that is asked. -/
theorem of_quiet (none : ∀ q, (t.pc q).stage = none) (hn : 0 ≤ t.log.log.lh.n)
    (hd : t.log.log.lh.sectors.Nodup) (hs : t.log.log.lh.sectors.toFinset = t.logged)
    (history : ∀ T ∈ t.committed, T.sectors.toFinset = T.entries.image Prod.snd) : t.Tidy := by
  refine ⟨fun q _ hq => ?_, hn, hd, fun _ => hs, fun q _ _ hq => ?_, history⟩
  · rw [none q] at hq
    cases hq
  · rw [none q] at hq
    cases hq

end Tidy

/-! ## Steps -/

theorem wakeup_class {β : Type*} {f : Pc → β} (h : f .sleeping = f .beginOp) (q : P) :
    f (s.wakeup.pc q) = f (s.pc q) := by
  simp only [wakeup]
  split
  · rename_i hq
    rw [hq, h]
  · rfl

variable [DecidableEq P]

/-- The steps of a process, by where it is. -/
inductive Move (s : Ops P) (p : P) : Action → Ops P → Prop where
  | start : s.pc p = .idle → Move s p .beginOp (s.goto p .beginOp)
  | beginOp : s.pc p = .beginOp → Move s p .next (s.beginOp p)
  | call {op : Nat} (sector : Nat) (data : Block) :
      s.pc p = .running op → Move s p (.logWrite sector data) (s.callLogWrite p op sector data)
  | endOp {op : Nat} : s.pc p = .running op → Move s p .endOp (s.endOp p op)
  | logWrite {op sector : Nat} {c : LogWritePc} :
      s.pc p = .logWrite op sector c → Move s p .next (s.logWrite p op sector c)
  | commit {c : CommitPc} : s.pc p = .commit c → Move s p .next (s.commit p c)

theorem Step.move (h : Step s (p, a) t) : s.panicked = none ∧ Move s p a t := by
  simp only [Step, step] at h
  split at h
  · cases h
  · rename_i calm
    refine ⟨Option.not_isSome_iff_eq_none.mp calm, ?_⟩
    split at h <;> cases h
    · exact .start ‹_›
    · exact .beginOp ‹_›
    · exact .call _ _ ‹_›
    · exact .endOp ‹_›
    · exact .logWrite ‹_›
    · exact .commit ‹_›

theorem goto_self : (s.goto p c).pc p = c := Function.update_self ..

theorem goto_other (h : q ≠ p) : (s.goto p c).pc q = s.pc q := Function.update_of_ne h ..

/-- A process that moves inside a class of places leaves all in their classes. -/
theorem goto_class {β : Type*} {f : Pc → β} (h : f c = f (s.pc p)) (q : P) :
    f ((s.goto p c).pc q) = f (s.pc q) := by
  by_cases hq : q = p
  · rw [hq, goto_self, h]
  · rw [goto_other hq]

theorem wakeup_goto_class {β : Type*} {f : Pc → β} (hw : f .sleeping = f .beginOp)
    (hc : f c = f (s.pc p)) (q : P) : f ((s.wakeup.goto p c).pc q) = f (s.pc q) :=
  (goto_class (hc.trans (wakeup_class hw p).symm) q).trans (wakeup_class hw q)

/-! ## Every step keeps the invariant -/

namespace Inv

variable (h : s.Inv)

include h

/-- A move inside a class that changes at most the disk and the header. -/
theorem goto (hcalm : s.panicked = none) (hop : c.op = (s.pc p).op)
    (hcommit : c.isCommit = (s.pc p).isCommit) (m : LogState)
    (hout : m.log.outstanding = s.log.log.outstanding)
    (hflag : m.log.committing = s.log.log.committing) :
    (({ s with log := m } : Ops P).goto p c).Inv := by
  refine h.congr (goto_class (s := { s with log := m }) hop)
    (goto_class (s := { s with log := m }) hcommit) hout hflag rfl rfl rfl
    (calm_of_none hcalm)

theorem beginOp (hcalm : s.panicked = none) (hp : s.pc p = .beginOp) : (s.beginOp p).Inv := by
  have wait : (s.goto p .sleeping).Inv :=
    h.goto hcalm (by rw [hp]; rfl) (by rw [hp]; rfl) s.log rfl rfl
  simp only [Ops.beginOp]
  split
  · exact wait
  · rename_i hc
    split
    · exact wait
    · obtain ⟨A, hA, hn⟩ := h.active
      have out : p ∉ A := by
        rw [hA, hp]
        exact Bool.false_ne_true
      refine ⟨⟨insert p A, ?_, ?_⟩, ?_, ?_, ?_, ?_, h.history, ?_⟩
      · intro q
        by_cases hq : q = p
        · simp [hq, goto_self, Pc.op]
        · rw [goto_other hq, Finset.mem_insert, or_iff_right hq]
          exact hA q
      · show s.log.log.outstanding + 1 = _
        rw [Finset.card_insert_of_notMem out, hn]
        rfl
      · intro q hq
        by_cases e : q = p
        · rw [e, goto_self] at hq
          cases hq
        · rw [goto_other e] at hq
          exact h.flag q hq
      · intro q r hq hr
        by_cases e : q = p
        · rw [e, goto_self] at hq
          cases hq
        · rw [goto_other e] at hq
          exact absurd (h.flag q hq) hc
      · exact fun committing => absurd committing hc
      · intro e he
        refine (h.owners e he).imp_right ?_
        rintro ⟨q, hq⟩
        have ne : q ≠ p := by
          rintro rfl
          rw [hp] at hq
          cases hq
        exact ⟨q, by rw [goto_other ne]; exact hq⟩
      · exact calm_of_none hcalm

/-- A process leaves its operation. -/
theorem leave {op : Nat} (hp : (s.pc p).op = some op) (hself : (t.pc p).op = none)
    (hother : ∀ q ≠ p, (t.pc q).op = (s.pc q).op)
    (hout : t.log.log.outstanding = s.log.log.outstanding - 1)
    (hended : t.ended = insert op s.ended) (hentries : t.entries = s.entries) :
    (∃ A : Finset P, (∀ p, p ∈ A ↔ (t.pc p).op.isSome) ∧ t.log.log.outstanding = A.card) ∧
      ∀ e ∈ t.entries, e.1 ∈ t.ended ∨ ∃ p, (t.pc p).op = some e.1 := by
  obtain ⟨A, hA, hn⟩ := h.active
  have mem : p ∈ A := by rw [hA, hp]; rfl
  refine ⟨⟨A.erase p, ?_, ?_⟩, ?_⟩
  · intro q
    by_cases hq : q = p
    · simp [hq, hself]
    · rw [Finset.mem_erase, hother q hq, hA]
      exact and_iff_right hq
  · have pos := Finset.card_pos.mpr ⟨p, mem⟩
    rw [hout, hn, Finset.card_erase_of_mem mem]
    omega
  · intro e he
    rw [hentries] at he
    obtain ended | ⟨q, hq⟩ := h.owners e he
    · left
      rw [hended]
      exact Finset.mem_insert_of_mem ended
    · by_cases ne : q = p
      · left
        rw [ne, hp] at hq
        rw [hended, Option.some.inj hq]
        exact Finset.mem_insert_self ..
      · exact .inr ⟨q, (hother q ne).trans hq⟩

theorem endOp {op : Nat} (hcalm : s.panicked = none) (hp : s.pc p = .running op) :
    (s.endOp p op).Inv := by
  have hop : (s.pc p).op = some op := by rw [hp]; rfl
  have free := h.not_committing hop
  have nobody : ∀ q, ¬ (s.pc q).isCommit := by
    intro q hq
    rw [h.flag q hq] at free
    cases free
  simp only [Ops.endOp]
  split
  · rename_i committing
    exact absurd (free.symm.trans committing) Bool.false_ne_true
  · split
    · rename_i last
      obtain ⟨active, owners⟩ := h.leave
        (t := ((s.dropOp op).setCommitting true).goto p (.commit .test)) hop
        (by rw [goto_self]; rfl) (fun q hq => by rw [goto_other hq]; rfl) rfl rfl rfl
      have only : ∀ q, (((s.dropOp op).setCommitting true).goto p (.commit .test) |>.pc q).isCommit →
          q = p := by
        intro q hq
        by_contra ne
        rw [goto_other ne] at hq
        exact nobody q hq
      exact ⟨active, fun q _ => rfl, fun q r hq hr => (only q hq).trans (only r hr).symm,
        fun _ => last, owners, h.history, calm_of_none hcalm⟩
    · obtain ⟨active, owners⟩ := h.leave (t := (s.dropOp op).wakeup.goto p .idle) hop
        (by rw [goto_self]; rfl)
        (fun q hq => by rw [goto_other hq]; exact wakeup_class (s := s.dropOp op) rfl q) rfl rfl rfl
      have none : ∀ q, ¬ ((s.dropOp op).wakeup.goto p .idle |>.pc q).isCommit := by
        intro q hq
        by_cases e : q = p
        · rw [e, goto_self] at hq
          cases hq
        · rw [goto_other e, wakeup_class (f := Pc.isCommit) rfl] at hq
          exact nobody q hq
      refine ⟨active, fun q hq => absurd hq (none q), fun q _ hq => absurd hq (none q), ?_, owners,
        h.history, calm_of_none hcalm⟩
      intro committing
      exact absurd (free.symm.trans committing) Bool.false_ne_true

theorem callLogWrite {op : Nat} (hcalm : s.panicked = none) (hp : s.pc p = .running op)
    (sector : Nat) (data : Block) : (s.callLogWrite p op sector data).Inv :=
  h.goto hcalm (by rw [hp]; rfl) (by rw [hp]; rfl) _ rfl rfl

theorem logWrite {op sector : Nat} {c : LogWritePc} (hcalm : s.panicked = none)
    (hp : s.pc p = .logWrite op sector c) : (s.logWrite p op sector c).Inv := by
  have move : ∀ c' m, m.log.outstanding = s.log.log.outstanding →
      m.log.committing = s.log.log.committing →
        (({ s with log := m } : Ops P).goto p (.logWrite op sector c')).Inv := by
    intro c' m hout hflag
    exact h.goto hcalm (by rw [hp]; rfl) (by rw [hp]; rfl) m hout hflag
  cases c with
  | checkSize | checkOutstanding =>
    simp only [Ops.logWrite]
    split
    · exact h.panic _ (by decide)
    · exact move _ s.log rfl rfl
  | search i | test i =>
    simp only [Ops.logWrite]
    split <;> exact move _ s.log rfl rfl
  | store i => exact move (.test i) _ rfl rfl
  | increment => exact move .pin _ rfl rfl
  | pin =>
    have done : ((s.setDirty sector).goto p (.running op)).Inv :=
      h.goto hcalm (by rw [hp]; rfl) (by rw [hp]; rfl) _ rfl rfl
    refine ⟨done.active, done.flag, done.unique, done.quiet, ?_, done.history, done.calm⟩
    intro e he
    obtain rfl | old := Finset.mem_insert.mp he
    · exact .inr ⟨p, congrArg Pc.op goto_self⟩
    · exact done.owners e old

theorem commit {c : CommitPc} (hcalm : s.panicked = none) (hp : s.pc p = .commit c) :
    (s.commit p c).Inv := by
  have move : ∀ c' m, m.log.outstanding = s.log.log.outstanding →
      m.log.committing = s.log.log.committing →
        (({ s with log := m } : Ops P).goto p (.commit c')).Inv := by
    intro c' m hout hflag
    exact h.goto hcalm (by rw [hp]; rfl) (by rw [hp]; rfl) m hout hflag
  have flag : s.log.log.committing = true := h.flag p (by rw [hp]; rfl)
  cases c with
  | test =>
    simp only [Ops.commit]
    split <;> exact move _ s.log rfl rfl
  | writeLog tail | installTrans tail =>
    simp only [Ops.commit]
    split
    · exact move _ _ rfl rfl
    · exact move _ s.log rfl rfl
  | writeHead =>
    have done := move (.installTrans 0) s.log.writeHead rfl rfl
    refine ⟨done.active, done.flag, done.unique, done.quiet, done.owners, ?_, done.calm⟩
    intro T hT e he
    obtain old | new := List.mem_append.mp hT
    · exact h.history T old e he
    · rw [List.mem_singleton.mp new] at he ⊢
      obtain ended | ⟨q, hq⟩ := h.owners e he
      · exact ended
      · rw [h.no_op flag q] at hq
        cases hq
  | clear =>
    have done := move .eraseHead s.log.clearN rfl rfl
    exact ⟨done.active, done.flag, done.unique, done.quiet,
      fun e he => absurd he (Finset.notMem_empty e), done.history, done.calm⟩
  | eraseHead => exact move .done _ rfl rfl
  | done =>
    have hop : ∀ q, (((s.setCommitting false).wakeup.goto p .idle).pc q).op = (s.pc q).op :=
      wakeup_goto_class (s := s.setCommitting false) rfl (congrArg Pc.op hp).symm
    have none : ∀ q, ¬ (((s.setCommitting false).wakeup.goto p .idle).pc q).isCommit := by
      intro q hq
      by_cases e : q = p
      · rw [e, goto_self] at hq
        cases hq
      · rw [goto_other e, wakeup_class (f := Pc.isCommit) rfl] at hq
        exact e (h.unique q p hq (by rw [hp]; rfl))
    obtain ⟨A, hA, hn⟩ := h.active
    refine ⟨⟨A, fun q => (hA q).trans (by rw [← hop q]; rfl), hn⟩, fun q hq => absurd hq (none q),
      fun q _ hq => absurd hq (none q), fun hc => absurd hc Bool.false_ne_true, ?_, h.history,
      calm_of_none hcalm⟩
    intro e he
    obtain ended | ⟨q, hq⟩ := h.owners e he
    · exact .inl ended
    · exact .inr ⟨q, (hop q).trans hq⟩

end Inv

theorem Inv.step {e : P × Action} (h : s.Inv) (step : Step s e t) : t.Inv := by
  obtain ⟨p, a⟩ := e
  obtain ⟨hcalm, move⟩ := step.move
  cases move with
  | start hp => exact h.goto hcalm (by rw [hp]; rfl) (by rw [hp]; rfl) s.log rfl rfl
  | beginOp hp => exact h.beginOp hcalm hp
  | call sector data hp => exact h.callLogWrite hcalm hp sector data
  | endOp hp => exact h.endOp hcalm hp
  | logWrite hp => exact h.logWrite hcalm hp
  | commit hp => exact h.commit hcalm hp

/-- While a commit is in progress no operation begins. -/
theorem Inv.step_no_op {e : P × Action} (h : s.Inv) (flag : s.log.log.committing = true)
    (step : Step s e t) : t.begun = s.begun ∧ ∀ q, (t.pc q).op = none := by
  obtain ⟨p, a⟩ := e
  obtain ⟨_, move⟩ := step.move
  have none := h.no_op flag
  have inside : ∀ c : Pc, c.op = Option.none → ∀ (u : Ops P), u.pc = s.pc → ∀ q,
      ((u.goto p c).pc q).op = Option.none := by
    intro c hc u hu q
    rw [goto_class (f := Pc.op), hu, none q]
    rw [hc, hu, none p]
  cases move with
  | start hp => exact ⟨rfl, inside _ rfl s rfl⟩
  | beginOp hp =>
    simp only [Ops.beginOp, flag, if_true]
    exact ⟨rfl, inside _ rfl s rfl⟩
  | call sector data hp | endOp hp | logWrite hp =>
    have := none p
    rw [hp] at this
    cases this
  | @commit c hp =>
    cases c with
    | test =>
      simp only [Ops.commit]
      split <;> exact ⟨rfl, inside _ rfl s rfl⟩
    | writeLog tail | installTrans tail =>
      simp only [Ops.commit]
      split <;> exact ⟨rfl, inside _ rfl _ rfl⟩
    | writeHead | clear | eraseHead => exact ⟨rfl, inside _ rfl _ rfl⟩
    | done =>
      have same := wakeup_goto_class (s := s.setCommitting false) (c := .idle) (f := Pc.op) rfl
        (none p).symm
      exact ⟨rfl, fun q => (same q).trans (none q)⟩

/-! ## Recording a sector step by step -/

namespace Tidy

/-- A process goes to another place of `log_write`, where it is alone. -/
theorem goto {op sector : Nat} {c : LogWritePc} (h : s.Tidy) (m : LogState)
    (alone : ∀ q ≠ p, (s.pc q).stage = none) (hn : 0 ≤ m.log.lh.n)
    (hd : m.log.lh.sectors.Nodup) (hs : Stage m.log.lh s.logged sector c) :
    (({ s with log := m } : Ops P).goto p (.logWrite op sector c)).Tidy := by
  have only : ∀ q, ((({ s with log := m } : Ops P).goto p (.logWrite op sector c)).pc q).stage.isSome →
      q = p := by
    intro q hq
    by_contra ne
    rw [goto_other ne] at hq
    rw [alone q ne] at hq
    cases hq
  refine ⟨fun q r hq hr => (only q hq).trans (only r hr).symm, hn, hd, ?_, ?_, h.history⟩
  · intro none
    have := none p
    rw [goto_self] at this
    cases this
  · intro q sector' c' hq
    have e := only q (by rw [hq]; rfl)
    rw [e, goto_self] at hq
    cases hq
    exact hs

theorem beginOp (h : s.Tidy) (hp : s.pc p = .beginOp) : (s.beginOp p).Tidy := by
  have wait : (s.goto p .sleeping).Tidy :=
    h.congr (goto_class (f := Pc.stage) (by rw [hp]; rfl)) rfl rfl rfl
  simp only [Ops.beginOp]
  split
  · exact wait
  · split
    · exact wait
    · refine h.congr (goto_class (s := s.addOp) (f := Pc.stage) ?_) rfl rfl rfl
      show none = (s.pc p).stage
      rw [hp]
      rfl

theorem endOp {op : Nat} (h : s.Tidy) (hp : s.pc p = .running op) : (s.endOp p op).Tidy := by
  have out : (s.pc p).stage = none := by rw [hp]; rfl
  simp only [Ops.endOp]
  split
  · exact h.congr (fun _ => rfl) rfl rfl rfl
  · split
    · exact h.congr (goto_class (s := (s.dropOp op).setCommitting true) (f := Pc.stage) out.symm)
        rfl rfl rfl
    · exact h.congr (wakeup_goto_class (s := s.dropOp op) (f := Pc.stage) rfl out.symm) rfl rfl rfl

theorem callLogWrite {op : Nat} (h : s.Tidy) (alone : ∀ q, (s.pc q).stage = none) (sector : Nat)
    (data : Block) : (s.callLogWrite p op sector data).Tidy :=
  h.goto _ (fun q _ => alone q) h.nonneg h.distinct (h.settled alone)

theorem logWrite {op sector : Nat} {c : LogWritePc} (h : s.Tidy)
    (hp : s.pc p = .logWrite op sector c) : (s.logWrite p op sector c).Tidy := by
  have here : (s.pc p).stage = some (sector, c) := by rw [hp]; rfl
  have stage := h.staged p sector c here
  have alone : ∀ q ≠ p, (s.pc q).stage = none := by
    intro q hq
    by_contra some
    exact hq (h.alone q p (Option.isSome_iff_ne_none.mpr some) (by rw [here]; rfl))
  have go : ∀ c', Stage s.log.log.lh s.logged sector c' →
      (s.goto p (.logWrite op sector c')).Tidy := by
    intro c' hs
    exact h.goto s.log alone h.nonneg h.distinct hs
  cases c with
  | checkSize =>
    simp only [Ops.logWrite]
    split
    · exact h.congr (fun _ => rfl) rfl rfl rfl
    · exact go _ stage
  | checkOutstanding =>
    simp only [Ops.logWrite]
    split
    · exact h.congr (fun _ => rfl) rfl rfl rfl
    · exact go _ ⟨stage, h.nonneg, fun j hj => absurd hj (Nat.not_lt_zero j)⟩
  | search i =>
    obtain ⟨sectors, hi, before⟩ := stage
    simp only [Ops.logWrite]
    split
    · rename_i miss
      refine go _ ⟨sectors, by omega, ?_⟩
      intro j hj
      obtain lt | rfl := Nat.lt_succ_iff_lt_or_eq.mp hj
      · exact before j lt
      · exact miss.2
    · rename_i stop
      exact go _ ⟨sectors, found_of_search hi before stop⟩
  | store i =>
    obtain ⟨sectors, found⟩ := stage
    have same := store_sectors found
    refine h.goto _ alone h.nonneg (by simpa only [setHeader, setLog, same] using h.distinct) ?_
    refine ⟨(congrArg List.toFinset same).trans sectors, ?_, Function.update_self ..⟩
    refine found.imp (fun hi => ⟨hi.1, Function.update_self ..⟩) (fun hi => ⟨hi.1, ?_⟩)
    rw [same]
    exact hi.2
  | test i =>
    obtain ⟨sectors, found, entry⟩ := stage
    simp only [Ops.logWrite]
    split
    · rename_i last
      obtain ⟨lt, _⟩ | ⟨_, new⟩ := found
      · omega
      · refine go _ ⟨sectors, new, ?_⟩
        rw [← last]
        exact entry
    · rename_i inner
      obtain ⟨lt, _⟩ | ⟨e, _⟩ := found
      · refine go _ ?_
        have mem : sector ∈ s.log.log.lh.sectors :=
          List.mem_map.mpr ⟨i, List.mem_range.mpr (by omega), entry⟩
        show s.log.log.lh.sectors.toFinset = insert sector s.logged
        rw [← sectors, Finset.insert_eq_of_mem (List.mem_toFinset.mpr mem)]
      · exact absurd e inner
  | increment =>
    obtain ⟨sectors, new, entry⟩ := stage
    have nonneg := h.nonneg
    have more := increment_sectors nonneg
    rw [entry] at more
    refine h.goto _ alone ?_ ?_ ?_
    · show 0 ≤ s.log.log.lh.n + 1
      omega
    · simp only [more]
      exact List.nodup_append_comm.mp (List.nodup_cons.mpr ⟨new, h.distinct⟩)
    · show List.toFinset _ = insert sector s.logged
      simp only [more, List.toFinset_append, sectors]
      exact Finset.union_comm ..
  | pin =>
    have none : ∀ q, ((s.logWrite p op sector .pin).pc q).stage = none := by
      intro q
      by_cases hq : q = p
      · exact hq ▸ congrArg Pc.stage goto_self
      · exact (congrArg Pc.stage (goto_other hq)).trans (alone q hq)
    refine of_quiet none h.nonneg h.distinct ?_ h.history
    exact stage.trans (Finset.image_insert Prod.snd (op, sector) s.entries).symm

theorem commit {c : CommitPc} (h : s.Tidy) (quiet : ∀ q, (s.pc q).stage = none)
    (hp : s.pc p = .commit c) : (s.commit p c).Tidy := by
  have out : none = (s.pc p).stage := by rw [hp]; rfl
  have go : ∀ c' m, m.log.lh = s.log.log.lh →
      (({ s with log := m } : Ops P).goto p (.commit c')).Tidy := by
    intro c' m hlh
    exact h.congr (goto_class (s := { s with log := m }) (f := Pc.stage) out) hlh rfl rfl
  cases c with
  | test =>
    simp only [Ops.commit]
    split <;> exact go _ s.log rfl
  | writeLog tail | installTrans tail =>
    simp only [Ops.commit]
    split
    · exact go _ _ rfl
    · exact go _ s.log rfl
  | writeHead =>
    have done := go (.installTrans 0) s.log.writeHead rfl
    refine ⟨done.alone, done.nonneg, done.distinct, done.settled, done.staged, ?_⟩
    intro T hT
    obtain old | new := List.mem_append.mp hT
    · exact h.history T old
    · rw [List.mem_singleton.mp new]
      exact h.settled quiet
  | clear =>
    refine of_quiet (fun q => ?_) le_rfl List.nodup_nil rfl h.history
    exact (goto_class (c := .commit .eraseHead) (f := Pc.stage) out q).trans (quiet q)
  | eraseHead => exact go .done _ rfl
  | done =>
    exact h.congr (wakeup_goto_class (s := s.setCommitting false) (f := Pc.stage) rfl out) rfl
      rfl rfl

end Tidy

/-- No other process is in `log_write` when a process calls it. -/
def Exclusive (s : Ops P) : P × Action → Prop
  | (_, .logWrite _ _) => ∀ q, (s.pc q).stage = none
  | _ => True

instance [Fintype P] (s : Ops P) (e : P × Action) : Decidable (Exclusive s e) :=
  match e with
  | (_, .logWrite _ _) => inferInstanceAs (Decidable (∀ q, (s.pc q).stage = none))
  | (_, .beginOp) => .isTrue trivial
  | (_, .endOp) => .isTrue trivial
  | (_, .next) => .isTrue trivial

theorem stage_none_of_op {c : Pc} (h : c.op = none) : c.stage = none := by
  cases c with
  | logWrite op sector at_ => cases h
  | idle | beginOp | sleeping | running op | commit at_ => rfl

theorem Tidy.step {e : P × Action} (inv : s.Inv) (h : s.Tidy)
    (step : Runs.Guarded Step Exclusive s e t) : t.Tidy := by
  obtain ⟨p, a⟩ := e
  obtain ⟨exclusive, step⟩ := step
  obtain ⟨_, move⟩ := step.move
  cases move with
  | start hp => exact h.congr (goto_class (f := Pc.stage) (by rw [hp]; rfl)) rfl rfl rfl
  | beginOp hp => exact h.beginOp hp
  | call sector data hp => exact h.callLogWrite exclusive sector data
  | endOp hp => exact h.endOp hp
  | logWrite hp => exact h.logWrite hp
  | commit hp =>
    have flag : s.log.log.committing = true := inv.flag p (by rw [hp]; rfl)
    exact h.commit (fun q => stage_none_of_op (inv.no_op flag q)) hp

/-- In every run: while a commit is in progress no operation is outstanding and
no process is in one, so none begins and no block is logged; the operations whose
calls of `log_write` went into a committed transaction have called `end_op`; and
`end_op` does not panic.  If the calls of `log_write` do not overlap, the sectors
of a committed transaction are those that these operations have logged. -/
theorem commit_of_ended_operations {s₀ s : Ops P} {es : List (P × Action)} (h₀ : s₀.Initial)
    (run : Runs.Steps Step s₀ es s) :
    (∀ p, (s.pc p).isCommit →
      s.log.log.outstanding = 0 ∧ (∀ q, (s.pc q).op = none) ∧
        ∀ e t, Step s e t → t.begun = s.begun ∧ ∀ q, (t.pc q).op = none) ∧
    (∀ T ∈ s.committed, ∀ e ∈ T.entries, e.1 ∈ T.ended) ∧
    (Runs.Steps (Runs.Guarded Step Exclusive) s₀ es s →
      ∀ T ∈ s.committed, ∀ sector,
        sector ∈ T.sectors ↔ ∃ op ∈ T.ended, (op, sector) ∈ T.entries) ∧
    s.panicked ≠ some "log.committing" := by
  have inv : s.Inv := run.invariant (.initial h₀) Inv.step
  refine ⟨?_, inv.history, ?_, inv.calm⟩
  · intro p hp
    have flag := inv.flag p hp
    exact ⟨inv.quiet flag, inv.no_op flag, fun e t step => inv.step_no_op flag step⟩
  · intro run T hT sector
    have tidy := (run.invariant (I := fun s => s.Inv ∧ s.Tidy) ⟨.initial h₀, .initial h₀⟩
      fun h step => ⟨h.1.step step.2, h.2.step h.1 step⟩).2
    rw [← List.mem_toFinset, tidy.history T hT, Finset.mem_image]
    constructor
    · rintro ⟨⟨op, _⟩, he, rfl⟩
      exact ⟨op, inv.history T hT _ he, he⟩
    · rintro ⟨op, _, he⟩
      exact ⟨_, he, rfl⟩

/-- Two processes and an empty log. -/
def sampleOps : Ops (Fin 2) where
  log := ⟨⟨fun _ _ => 0, fun _ => none, []⟩, ⟨20450, 30, 0, false, ⟨0, fun _ => 0⟩⟩⟩
  pc _ := .idle
  panicked := none
  begun := 0
  ended := ∅
  entries := ∅
  committed := []

theorem sampleOps_initial : sampleOps.Initial :=
  ⟨fun _ => rfl, rfl, rfl, rfl, rfl, rfl, rfl, rfl⟩

/-- Both processes begin an operation and call `log_write`.  The first takes
`steps` of its seven steps before the second call, and the second ends with `more`
steps.  Then the last `end_op` commits. -/
def twoCalls (steps more : Nat) : List (Fin 2 × Action) :=
  let data : Block := fun _ => 1
  let next (n : Nat) (p : Fin 2) := List.replicate n (p, Action.next)
  [(0, .beginOp), (0, .next), (1, .beginOp), (1, .next), (0, .logWrite 40 data)] ++ next steps 0 ++
    [(1, .logWrite 41 data)] ++ next 5 1 ++ next (7 - steps) 0 ++ next more 1 ++
    [(0, .endOp), (1, .endOp)] ++ next 5 1

/-- The second call starts while the first stands before `log.lh.n++`.  The
committed header misses the sector of one operation and lists one that no operation
has logged. -/
theorem commit_of_ended_operations_overlap :
    ∃ s, Runs.Steps Step sampleOps (twoCalls 5 2) s ∧
      ∃ T ∈ s.committed, T.sectors = [41, 0] ∧ T.entries = {(0, 40), (1, 41)} := by
  have run : (Runs.exec step sampleOps (twoCalls 5 2)).map (fun s => s.committed.map fun T =>
      (T.sectors, T.entries)) = some [([41, 0], {(0, 40), (1, 41)})] := by decide +kernel
  obtain ⟨s, hs, committed⟩ := Option.map_eq_some_iff.mp run
  obtain ⟨T, hT, e⟩ := List.mem_map.mp (committed ▸ List.mem_singleton_self _)
  exact ⟨s, .of_exec hs, T, hT, congrArg Prod.fst e, congrArg Prod.snd e⟩

theorem commit_of_ended_operations_inTurn :
    ∃ s, Runs.Steps (Runs.Guarded Step Exclusive) sampleOps (twoCalls 7 3) s ∧
      (s.pc 1).isCommit ∧ s.log.log.outstanding = 0 ∧
      ∃ T ∈ s.committed, ∀ sector,
        sector ∈ T.sectors ↔ ∃ op ∈ T.ended, (op, sector) ∈ T.entries := by
  have run : (Runs.exec (Runs.guardedBy step Exclusive) sampleOps (twoCalls 7 3)).map (fun s =>
      ((s.pc 1).isCommit, s.committed.length)) = some (true, 1) := by decide +kernel
  obtain ⟨s, hs, e⟩ := Option.map_eq_some_iff.mp run
  have guarded := Runs.Steps.of_exec_guardedBy hs
  have commit : (s.pc 1).isCommit := congrArg Prod.fst e
  have length : s.committed.length = 1 := congrArg Prod.snd e
  obtain ⟨T, hT⟩ := List.exists_mem_of_length_pos (length ▸ Nat.one_pos)
  obtain ⟨idle, _, sectors, _⟩ :=
    commit_of_ended_operations sampleOps_initial (guarded.mono fun h => h.2)
  exact ⟨s, guarded, commit, (idle 1 commit).1, T, hT, sectors guarded T hT⟩

/-- In every interleaving `outstanding` counts the operations, and at most one process commits. -/
theorem outstanding_counts {s₀ s : Ops P} {es : List (P × Action)} (h₀ : s₀.Initial)
    (run : Runs.Steps Step s₀ es s) :
    (∃ A : Finset P, (∀ p, p ∈ A ↔ (s.pc p).op.isSome) ∧ s.log.log.outstanding = A.card) ∧
      ∀ p q, (s.pc p).isCommit → (s.pc q).isCommit → p = q := by
  have inv : s.Inv := run.invariant (.initial h₀) Inv.step
  exact ⟨inv.active, inv.unique⟩

theorem outstanding_counts_commit : ∃ s, Runs.Steps Step sampleOps (twoCalls 7 3) s ∧
    (s.pc 1).isCommit ∧ ∀ q, (s.pc q).isCommit → 1 = q := by
  have run : (Runs.exec step sampleOps (twoCalls 7 3)).map (fun s => (s.pc 1).isCommit) =
      some true := by decide +kernel
  obtain ⟨s, hs, commit⟩ := Option.map_eq_some_iff.mp run
  exact ⟨s, .of_exec hs, commit, fun q =>
    (outstanding_counts sampleOps_initial (.of_exec hs)).2 1 q commit⟩

end Xv6Gui.Ops
