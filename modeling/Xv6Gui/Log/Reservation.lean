import Mathlib.Algebra.Order.BigOperators.Group.Finset
import Xv6Gui.Log.GroupCommit

/-!
# Log space

`begin_op` lets an operation in when the log has room for `MAXOPBLOCKS` blocks of
each operation, counted against `LOGSIZE`.  But `mkfs` makes a log of `LOGSIZE`
blocks, and one of them is the header, so `log_write` panics when `LOGSIZE - 1`
sectors are listed.  It makes this test before it looks whether the sector is
listed already.

So three operations that log `MAXOPBLOCKS` sectors each run into the panic.  If
each operation logs one sector less, the admission test reserves enough.
-/

namespace Xv6Gui.Ops

variable {P : Type*} {s t : Ops P} {p q : P}

/-- The distinct sectors an operation has logged. -/
def loggedBy (s : Ops P) (op : Nat) : Finset Nat :=
  (s.entries.filter fun e => e.1 = op).image Prod.snd

/-- Every operation logs at most `b` distinct sectors. -/
def Within (b : Nat) (s : Ops P) : P × Action → Prop
  | (p, .logWrite sector _) =>
    ∀ op ∈ (s.pc p).op, (insert sector (s.loggedBy op)).card ≤ b
  | _ => True

/-- The test of `log_write` finds less than `LOGSIZE - 1` distinct sectors
logged. -/
def Spare (s : Ops P) (e : P × Action) : Prop :=
  (s.pc e.1).stage.map Prod.snd = some .checkSize → s.logged.card < logSize - 1

instance (b : Nat) (s : Ops P) (e : P × Action) : Decidable (Within b s e) :=
  match e with
  | (p, .logWrite sector _) =>
    inferInstanceAs (Decidable (∀ op ∈ (s.pc p).op, (insert sector (s.loggedBy op)).card ≤ b))
  | (_, .beginOp) => .isTrue trivial
  | (_, .endOp) => .isTrue trivial
  | (_, .next) => .isTrue trivial

/-! ## Reservations -/

/-- What a process may still log, if an operation logs less than `MAXOPBLOCKS`
sectors. -/
def unused (s : Ops P) (p : P) : Nat :=
  match (s.pc p).op with
  | some op => maxOpBlocks - 1 - (s.loggedBy op).card
  | none => 0

/-- The operation and sector of a call of `log_write`. -/
def call : Pc → Option (Nat × Nat)
  | .logWrite op sector _ => some (op, sector)
  | _ => none

/-- A process has cleared the header in memory, or found it clear. -/
def erased : Pc → Bool
  | .commit .eraseHead => true
  | .commit .done => true
  | _ => false

/-- The log has room for what the operations may still log.  The log is empty
while no operation runs and none is committed. -/
structure Reserved (s : Ops P) : Prop where
  fresh : s.log.log.outstanding = 0 → s.log.log.committing = false → s.logged = ∅
  cleared : ∀ p, erased (s.pc p) → s.logged = ∅
  within : ∀ p op sector, call (s.pc p) = some (op, sector) →
    (insert sector (s.loggedBy op)).card ≤ maxOpBlocks - 1
  reserve : ∀ A : Finset P, (∀ p, p ∈ A ↔ (s.pc p).op.isSome) →
    s.logged.card + ∑ p ∈ A, s.unused p ≤ logSize - 2

theorem unused_congr (hop : (t.pc p).op = (s.pc p).op) (hentries : t.entries = s.entries) :
    t.unused p = s.unused p := by
  rw [unused, unused, hop]
  simp only [loggedBy, hentries]

theorem unused_of_op {op : Nat} (h : (s.pc p).op = some op) :
    s.unused p = maxOpBlocks - 1 - (s.loggedBy op).card := by
  rw [unused, h]

theorem loggedBy_mono {op : Nat} (h : s.entries ⊆ t.entries) : s.loggedBy op ⊆ t.loggedBy op :=
  Finset.image_mono _ (Finset.filter_subset_filter _ h)

theorem loggedBy_subset {op : Nat} : s.loggedBy op ⊆ s.logged :=
  Finset.image_mono _ (Finset.filter_subset ..)

/-- Logging a sector more leaves less of the reservation. -/
theorem unused_anti (hop : (t.pc p).op = (s.pc p).op) (h : s.entries ⊆ t.entries) :
    t.unused p ≤ s.unused p := by
  rw [unused, unused, hop]
  split
  · exact Nat.sub_le_sub_left (Finset.card_le_card (loggedBy_mono h)) _
  · exact le_rfl

theorem isCommit_of_erased {c : Pc} (h : erased c = true) : c.isCommit = true := by
  cases c with
  | commit _ => rfl
  | _ => cases h

theorem op_of_call {c : Pc} {op sector : Nat} (h : call c = some (op, sector)) :
    c.op = some op := by
  cases c with
  | logWrite op' sector' at_ =>
    cases h
    rfl
  | _ => cases h

theorem stage_of_call {c : Pc} {e : Nat × Nat} (h : call c = some e) : c.stage.isSome = true := by
  cases c with
  | logWrite op sector at_ => rfl
  | _ => cases h

theorem unused_le (s : Ops P) (p : P) : s.unused p ≤ maxOpBlocks - 1 := by
  rw [unused]
  split
  · exact Nat.sub_le ..
  · exact Nat.zero_le _

namespace Reserved

theorem initial (h : s.Initial) : s.Reserved where
  fresh _ _ := by rw [logged, h.entries]; rfl
  cleared p hp := by simp [h.pc p, erased] at hp
  within p _ _ hp := by simp [h.pc p, call] at hp
  reserve A hA := by
    have empty : A = ∅ := by
      ext p
      simp [hA, h.pc p, Pc.op]
    rw [empty, Finset.sum_empty, logged, h.entries]
    decide

/-- A step that keeps the records, the operations and the calls. -/
theorem congr (h : s.Reserved) (hop : ∀ q, (t.pc q).op = (s.pc q).op)
    (hcall : ∀ q, call (t.pc q) = call (s.pc q))
    (hcleared : ∀ q, erased (t.pc q) → s.logged = ∅)
    (hfresh : t.log.log.outstanding = 0 → t.log.log.committing = false → s.logged = ∅)
    (hentries : t.entries = s.entries) : t.Reserved := by
  have logged : t.logged = s.logged := by rw [Ops.logged, hentries]; rfl
  refine ⟨logged ▸ hfresh, logged ▸ hcleared, ?_, ?_⟩
  · intro p op sector hp
    rw [hcall] at hp
    simp only [loggedBy, hentries]
    exact h.within p op sector hp
  · intro A hA
    rw [logged, Finset.sum_congr rfl fun p _ => unused_congr (hop p) hentries]
    exact h.reserve A fun p => (hA p).trans (by rw [hop])

/-- The log has room for one sector more. -/
theorem spare (h : s.Reserved) (inv : s.Inv) (e : P × Action) : Spare s e := by
  intro _
  obtain ⟨A, hA, _⟩ := inv.active
  have := h.reserve A hA
  have size : logSize = 30 := rfl
  omega

end Reserved

/-! ## The test of `log_write` -/

namespace Tidy

variable (h : s.Tidy)

include h

/-- The logged sectors are in the header, also in the course of a `log_write`. -/
theorem logged_subset : s.logged ⊆ s.log.log.lh.sectors.toFinset := by
  by_cases quiet : ∀ p, (s.pc p).stage = none
  · exact (h.settled quiet).ge
  · obtain ⟨p, hp⟩ := not_forall.mp quiet
    obtain ⟨⟨sector, c⟩, hc⟩ := Option.ne_none_iff_exists'.mp hp
    have stage := h.staged p sector c hc
    cases c with
    | checkSize | checkOutstanding => exact stage.ge
    | search i | store i | test i | increment => exact stage.1.ge
    | pin => exact (Finset.subset_insert ..).trans stage.ge

theorem logged_card_le : (s.logged.card : Int) ≤ s.log.log.lh.n := by
  have le := Finset.card_le_card h.logged_subset
  rw [List.toFinset_card_of_nodup h.distinct, LogHeader.sectors_length] at le
  have := h.nonneg
  omega

/-- The test of `log_write` sees the number of logged sectors. -/
theorem logged_card {sector : Nat} (hp : (s.pc p).stage = some (sector, .checkSize)) :
    (s.logged.card : Int) = s.log.log.lh.n := by
  have stage : s.log.log.lh.sectors.toFinset = s.logged := h.staged p sector _ hp
  rw [← stage, List.toFinset_card_of_nodup h.distinct, LogHeader.sectors_length]
  have := h.nonneg
  omega

end Tidy

variable [DecidableEq P]

theorem loggedBy_insert {op sector : Nat} :
    (s.logWrite p op sector .pin).loggedBy op = insert sector (s.loggedBy op) := by
  show ((insert (op, sector) s.entries).filter _).image _ = _
  rw [Finset.filter_insert, if_pos rfl, Finset.image_insert]
  rfl

theorem step_size {e : P × Action} (step : Step s e t) : t.log.log.size = s.log.log.size := by
  obtain ⟨p, a⟩ := e
  obtain ⟨_, move⟩ := step.move
  cases move with
  | start hp | call sector data hp => rfl
  | beginOp hp =>
    simp only [beginOp]
    split
    · rfl
    · split <;> rfl
  | endOp hp =>
    simp only [endOp]
    split
    · rfl
    · split <;> rfl
  | @logWrite _ _ c hp =>
    cases c <;> simp only [logWrite] <;> first | rfl | (split <;> rfl)
  | @commit c hp =>
    cases c <;> simp only [commit] <;> first | rfl | (split <;> rfl)

/-- Only the test of `log_write` panics with this message. -/
theorem tooBig_of_step {e : P × Action} (step : Step s e t)
    (h : t.panicked = some "too big a transaction") :
    ∃ op sector, s.pc e.1 = .logWrite op sector .checkSize ∧ e.2 = .next := by
  obtain ⟨p, a⟩ := e
  obtain ⟨calm, move⟩ := step.move
  have other : s.panicked ≠ some "too big a transaction" := by
    rw [calm]
    exact (Option.some_ne_none _).symm
  cases move with
  | start hp | call sector data hp => exact absurd h other
  | beginOp hp =>
    simp only [beginOp] at h
    split at h
    · exact absurd h other
    · split at h <;> exact absurd h other
  | endOp hp =>
    simp only [endOp] at h
    split at h
    · exact absurd (Option.some.inj h) (by decide)
    · split at h <;> exact absurd h other
  | @logWrite op sector c hp =>
    cases c with
    | checkSize => exact ⟨op, sector, hp, rfl⟩
    | checkOutstanding =>
      simp only [logWrite] at h
      split at h
      · exact absurd (Option.some.inj h) (by decide)
      · exact absurd h other
    | search i | test i =>
      simp only [logWrite] at h
      split at h <;> exact absurd h other
    | store i | increment | pin => exact absurd h other
  | @commit c hp =>
    cases c <;> simp only [commit] at h <;>
      first | exact absurd h other | (split at h <;> exact absurd h other)

/-- The test of `log_write` panics when `LOGSIZE - 1` sectors are logged. -/
theorem Tidy.tooBig_iff {op sector : Nat} (h : s.Tidy) (hsize : s.log.log.size = logSize)
    (hp : s.pc p = .logWrite op sector .checkSize) (step : Step s (p, .next) t) :
    t.panicked = some "too big a transaction" ↔ logSize - 1 ≤ s.logged.card := by
  obtain ⟨calm, move⟩ := step.move
  have here : (s.pc p).stage = some (sector, .checkSize) := by rw [hp]; rfl
  have card := h.logged_card here
  have ht : t = s.logWrite p op sector .checkSize := by
    cases move with
    | beginOp h | commit h => rw [hp] at h; cases h
    | logWrite h => rw [hp] at h; cases h; rfl
  have size : logSize = 30 := rfl
  simp only [ht, Ops.logWrite]
  split
  · rename_i full
    refine iff_of_true rfl ?_
    omega
  · rename_i room
    refine iff_of_false ?_ ?_
    · show ¬ s.panicked = _
      rw [calm]
      exact (Option.some_ne_none _).symm
    · omega

/-! ## Every step keeps the reservations -/

namespace Reserved

variable (h : s.Reserved)

variable {op sector : Nat}

include h

/-- A move to a place that is not behind the clearing of the header. -/
theorem goto_cleared {c : Pc} {u : Ops P} (hc : erased c = false)
    (hu : ∀ q, erased (u.pc q) = erased (s.pc q)) (q : P) (hq : erased ((u.goto p c).pc q)) :
    s.logged = ∅ := by
  by_cases e : q = p
  · rw [e, goto_self, hc] at hq
    cases hq
  · rw [goto_other e, hu] at hq
    exact h.cleared q hq

/-- A move inside an operation, a call or a commit. -/
theorem goto {c : Pc} {u : Ops P} (hpc : u.pc = s.pc) (hop : c.op = (s.pc p).op)
    (hcall : call c = call (s.pc p)) (hc : erased c = true → s.logged = ∅)
    (hout : u.log.log.outstanding = s.log.log.outstanding)
    (hflag : u.log.log.committing = s.log.log.committing) (hentries : u.entries = s.entries) :
    (u.goto p c).Reserved := by
  refine h.congr (fun q => ?_) (fun q => ?_) (fun q hq => ?_) ?_ hentries
  · rw [goto_class (f := Pc.op) (by rw [hpc]; exact hop), hpc]
  · rw [goto_class (f := call) (by rw [hpc]; exact hcall), hpc]
  · by_cases e : q = p
    · rw [e, goto_self] at hq
      exact hc hq
    · rw [goto_other e, hpc] at hq
      exact h.cleared q hq
  · show u.log.log.outstanding = 0 → u.log.log.committing = false → _
    rw [hout, hflag]
    exact h.fresh

theorem beginOp (inv : s.Inv) (tidy : s.Tidy) (hp : s.pc p = .beginOp) :
    (s.beginOp p).Reserved := by
  have wait : (s.goto p .sleeping).Reserved :=
    h.goto rfl (by rw [hp]; rfl) (by rw [hp]; rfl) (fun e => by cases e) rfl rfl rfl
  simp only [Ops.beginOp]
  split
  · exact wait
  · rename_i free
    split
    · exact wait
    · rename_i room
      obtain ⟨B, hB, hn⟩ := inv.active
      refine ⟨?_, h.goto_cleared rfl fun q => rfl, ?_, ?_⟩
      · show s.log.log.outstanding + 1 = 0 → _
        omega
      · intro q op sector hq
        by_cases e : q = p
        · rw [e, goto_self] at hq
          cases hq
        · rw [goto_other e] at hq
          exact h.within q op sector hq
      · intro A hA
        have mem : p ∈ A := by rw [hA, goto_self]; rfl
        have others : A.erase p = B := by
          ext q
          by_cases e : q = p
          · simp [e, hB, hp, Pc.op]
          · rw [Finset.mem_erase, hA, goto_other e, hB]
            exact and_iff_right e
        have same : ∑ q ∈ B, (s.addOp.goto p (.running s.begun)).unused q =
            ∑ q ∈ B, s.unused q := by
          refine Finset.sum_congr rfl ?_
          intro q hq
          have ne : q ≠ p := by
            rintro rfl
            rw [hB, hp] at hq
            cases hq
          exact unused_congr (by rw [goto_other ne]; rfl) rfl
        have own := unused_le (s.addOp.goto p (.running s.begun)) p
        have bound : ∑ q ∈ B, s.unused q ≤ B.card * (maxOpBlocks - 1) :=
          Finset.sum_le_card_nsmul B s.unused _ fun q _ => s.unused_le q
        have logged := tidy.logged_card_le
        rw [← Finset.add_sum_erase A _ mem, others, same]
        show s.logged.card + _ ≤ _
        simp only [maxOpBlocks, logSize] at *
        obtain none | some := B.card.eq_zero_or_pos
        · have empty : s.logged = ∅ := h.fresh (by omega) (Bool.not_eq_true _ ▸ free)
          rw [empty, Finset.card_empty]
          omega
        · omega

theorem callLogWrite {data : Block} (hp : s.pc p = .running op)
    (within : Within (maxOpBlocks - 1) s (p, .logWrite sector data)) :
    (s.callLogWrite p op sector data).Reserved := by
  refine ⟨h.fresh, h.goto_cleared rfl fun q => rfl, ?_, ?_⟩
  · intro q op' sector' hq
    by_cases e : q = p
    · have here : call ((s.callLogWrite p op sector data).pc p) = some (op, sector) :=
        congrArg call goto_self
      rw [e, here] at hq
      cases hq
      exact within op (by rw [hp]; rfl)
    · exact h.within q op' sector' ((congrArg call (goto_other e)).symm.trans hq)
  · intro A hA
    have same : ∀ q, ((s.callLogWrite p op sector data).pc q).op = (s.pc q).op :=
      goto_class (c := .logWrite op sector .checkSize) (f := Pc.op) (by rw [hp]; rfl)
    rw [Finset.sum_congr rfl fun q _ => unused_congr (same q) rfl]
    exact h.reserve A fun q => (hA q).trans (by rw [same])

/-- A process leaves its operation. -/
theorem leave (hp : s.pc p = .running op) (hself : call (t.pc p) = none)
    (hselfop : (t.pc p).op = none) (hop : ∀ q ≠ p, (t.pc q).op = (s.pc q).op)
    (hcall : ∀ q ≠ p, call (t.pc q) = call (s.pc q))
    (hcleared : ∀ q, erased (t.pc q) → s.logged = ∅)
    (hfresh : t.log.log.outstanding = 0 → t.log.log.committing = true)
    (hentries : t.entries = s.entries) : t.Reserved := by
  have logged : t.logged = s.logged := by rw [Ops.logged, hentries]; rfl
  refine ⟨?_, logged ▸ hcleared, ?_, ?_⟩
  · intro out free
    rw [hfresh out] at free
    cases free
  · intro q op sector hq
    by_cases e : q = p
    · rw [e, hself] at hq
      cases hq
    · rw [hcall q e] at hq
      simp only [loggedBy, hentries]
      exact h.within q op sector hq
  · intro A hA
    have out : p ∉ A := by
      rw [hA, hselfop]
      exact Bool.false_ne_true
    have all := h.reserve (insert p A) ?_
    · rw [Finset.sum_insert out] at all
      have same : ∑ q ∈ A, t.unused q = ∑ q ∈ A, s.unused q := by
        refine Finset.sum_congr rfl ?_
        intro q hq
        exact unused_congr (hop q fun e => out (e ▸ hq)) hentries
      rw [logged, same]
      omega
    · intro q
      by_cases e : q = p
      · simp [e, hp, Pc.op]
      · rw [Finset.mem_insert, or_iff_right e, hA, hop q e]

theorem endOp (inv : s.Inv) (hp : s.pc p = .running op) : (s.endOp p op).Reserved := by
  have hop : (s.pc p).op = some op := by rw [hp]; rfl
  have free := inv.not_committing hop
  simp only [Ops.endOp]
  split
  · rename_i committing
    exact absurd (free.symm.trans committing) Bool.false_ne_true
  · split
    · refine h.leave (t := ((s.dropOp op).setCommitting true).goto p (.commit .test)) hp
        (by rw [goto_self]; rfl) (by rw [goto_self]; rfl) ?_ ?_ (h.goto_cleared rfl fun q => rfl)
        (fun _ => rfl) rfl
      · intro q hq
        rw [goto_other hq]
        rfl
      · intro q hq
        rw [goto_other hq]
        rfl
    · rename_i more
      refine h.leave (t := (s.dropOp op).wakeup.goto p .idle) hp (by rw [goto_self]; rfl)
        (by rw [goto_self]; rfl) ?_ ?_
        (h.goto_cleared rfl fun q => wakeup_class (s := s.dropOp op) (f := erased) rfl q)
        (fun out => absurd out more) rfl
      · intro q hq
        rw [goto_other hq]
        exact wakeup_class (s := s.dropOp op) (f := Pc.op) rfl q
      · intro q hq
        rw [goto_other hq]
        exact wakeup_class (s := s.dropOp op) (f := call) rfl q

/-- A new sector uses up a part of the reservation of its operation. -/
theorem pin (inv : s.Inv) (tidy : s.Tidy)
    (hp : s.pc p = .logWrite op sector .pin) : (s.logWrite p op sector .pin).Reserved := by
  have hop : (s.pc p).op = some op := by rw [hp]; rfl
  have free := inv.not_committing hop
  have same : ∀ q, ((s.logWrite p op sector .pin).pc q).op = (s.pc q).op :=
    goto_class (c := .running op) (f := Pc.op) hop.symm
  refine ⟨?_, ?_, ?_, ?_⟩
  · intro out _
    obtain ⟨B, hB, hn⟩ := inv.active
    have out : s.log.log.outstanding = 0 := out
    have card : B.card = 0 := by omega
    have mem : p ∈ B := (hB p).mpr (by rw [hop]; rfl)
    rw [Finset.card_eq_zero.mp card] at mem
    cases mem
  · intro q hq
    have here : erased ((s.logWrite p op sector .pin).pc q) = erased (s.pc q) :=
      goto_class (c := .running op) (f := erased) (congrArg erased hp).symm q
    have busy := inv.flag q (isCommit_of_erased (here.symm.trans hq))
    exact absurd (free.symm.trans busy) Bool.false_ne_true
  · intro q op' sector' hq
    by_cases e : q = p
    · have here : call ((s.logWrite p op sector .pin).pc p) = none := congrArg call goto_self
      rw [e, here] at hq
      cases hq
    · have hq : call (s.pc q) = some (op', sector') := (congrArg call (goto_other e)).symm.trans hq
      exact absurd (tidy.alone q p (stage_of_call hq) (by rw [hp]; rfl)) e
  · intro A hA
    have before := h.reserve A fun q => (hA q).trans (by rw [same])
    have mem : p ∈ A := (hA p).mpr (by rw [same, hop]; rfl)
    have le : ∀ q ∈ A, (s.logWrite p op sector .pin).unused q ≤ s.unused q := fun q _ =>
      unused_anti (same q) (Finset.subset_insert ..)
    have logged : (s.logWrite p op sector .pin).logged = insert sector s.logged :=
      Finset.image_insert ..
    by_cases old : sector ∈ s.logged
    · have := Finset.sum_le_sum le
      rw [logged, Finset.insert_eq_of_mem old]
      omega
    · have lt : (s.logWrite p op sector .pin).unused p < s.unused p := by
        have new : sector ∉ s.loggedBy op := fun mem => old (loggedBy_subset mem)
        have bound := h.within p op sector (by rw [hp]; rfl)
        rw [Finset.card_insert_of_notMem new] at bound
        have by_op : (s.logWrite p op sector .pin).loggedBy op = insert sector (s.loggedBy op) :=
          loggedBy_insert
        rw [unused_of_op ((same p).trans hop), unused_of_op hop, by_op,
          Finset.card_insert_of_notMem new]
        omega
      have := Finset.sum_lt_sum le ⟨p, mem, lt⟩
      rw [logged, Finset.card_insert_of_notMem old]
      omega

theorem logWrite {c : LogWritePc} (inv : s.Inv) (tidy : s.Tidy)
    (hp : s.pc p = .logWrite op sector c) : (s.logWrite p op sector c).Reserved := by
  have go : ∀ c' (u : Ops P), u.pc = s.pc → u.log.log.outstanding = s.log.log.outstanding →
      u.log.log.committing = s.log.log.committing → u.entries = s.entries →
        (u.goto p (.logWrite op sector c')).Reserved := by
    intro c' u hpc hout hflag hentries
    exact h.goto hpc (by rw [hp]; rfl) (by rw [hp]; rfl) (fun e => by cases e) hout hflag hentries
  have panic : ∀ message, (s.panic message).Reserved := fun message =>
    h.congr (fun _ => rfl) (fun _ => rfl) h.cleared h.fresh rfl
  cases c with
  | checkSize | checkOutstanding =>
    simp only [Ops.logWrite]
    split
    · exact panic _
    · exact go _ s rfl rfl rfl rfl
  | search i | test i =>
    simp only [Ops.logWrite]
    split <;> exact go _ s rfl rfl rfl rfl
  | store i => exact go (.test i) _ rfl rfl rfl rfl
  | increment => exact go .pin _ rfl rfl rfl rfl
  | pin => exact h.pin inv tidy hp

theorem commit {c : CommitPc} (inv : s.Inv) (tidy : s.Tidy) (hp : s.pc p = .commit c) :
    (s.commit p c).Reserved := by
  have go : ∀ c' (u : Ops P), (erased (.commit c') = true → s.logged = ∅) → u.pc = s.pc →
      u.log.log.outstanding = s.log.log.outstanding →
        u.log.log.committing = s.log.log.committing → u.entries = s.entries →
          (u.goto p (.commit c')).Reserved := by
    intro c' u hc hpc hout hflag hentries
    exact h.goto hpc (by rw [hp]; rfl) (by rw [hp]; rfl) hc hout hflag hentries
  have flag : s.log.log.committing = true := inv.flag p (by rw [hp]; rfl)
  cases c with
  | test =>
    simp only [Ops.commit]
    split
    · exact go _ s (fun e => by cases e) rfl rfl rfl rfl
    · rename_i none
      refine go _ s (fun _ => ?_) rfl rfl rfl rfl
      have := tidy.logged_card_le
      exact Finset.card_eq_zero.mp (by omega)
  | writeLog tail | installTrans tail =>
    simp only [Ops.commit]
    split <;> exact go _ _ (fun e => by cases e) rfl rfl rfl rfl
  | writeHead => exact go (.installTrans 0) _ (fun e => by cases e) rfl rfl rfl rfl
  | clear =>
    have none := inv.no_op flag
    have same : ∀ q, ((s.commit p .clear).pc q).op = (s.pc q).op :=
      goto_class (c := .commit .eraseHead) (f := Pc.op) (by rw [hp]; rfl)
    refine ⟨fun _ _ => rfl, fun _ _ => rfl, ?_, ?_⟩
    · intro q op sector hq
      have quiet := op_of_call hq
      rw [same, none q] at quiet
      cases quiet
    · intro A hA
      have empty : A = ∅ := by
        ext q
        simp [hA, same, none q]
      rw [empty, Finset.sum_empty]
      exact Nat.zero_le _
  | eraseHead =>
    exact go .done _ (fun _ => h.cleared p (by rw [hp]; rfl)) rfl rfl rfl rfl
  | done =>
    have empty := h.cleared p (by rw [hp]; rfl)
    refine h.congr (fun q => ?_) (fun q => ?_) (fun _ _ => empty) (fun _ _ => empty) rfl
    · exact wakeup_goto_class (s := s.setCommitting false) (c := .idle) rfl (congrArg Pc.op hp).symm q
    · exact wakeup_goto_class (s := s.setCommitting false) (c := .idle) rfl (congrArg call hp).symm q

theorem step {e : P × Action} (inv : s.Inv) (tidy : s.Tidy)
    (within : Within (maxOpBlocks - 1) s e) (step : Step s e t) : t.Reserved := by
  obtain ⟨p, a⟩ := e
  obtain ⟨_, move⟩ := step.move
  cases move with
  | start hp =>
    exact h.goto rfl (by rw [hp]; rfl) (by rw [hp]; rfl) (fun e => by cases e) rfl rfl rfl
  | beginOp hp => exact h.beginOp inv tidy hp
  | call sector data hp => exact h.callLogWrite hp within
  | endOp hp => exact h.endOp inv hp
  | logWrite hp => exact h.logWrite inv tidy hp
  | commit hp => exact h.commit inv tidy hp

end Reserved

/-! ## Runs -/

/-- What runs without overlapping calls of `log_write` keep. -/
structure Sound (s : Ops P) : Prop where
  inv : s.Inv
  tidy : s.Tidy
  size : s.log.log.size = logSize

namespace Sound

theorem step {e : P × Action} (h : s.Sound) (step : Runs.Guarded Step Exclusive s e t) :
    t.Sound where
  inv := h.inv.step step.2
  tidy := h.tidy.step h.inv step
  size := (step_size step.2).trans h.size

/-- A step from a state with room does not panic. -/
theorem fits {e : P × Action} (h : s.Sound) (spare : Spare s e) (step : Step s e t) :
    t.panicked ≠ some "too big a transaction" := by
  intro panicked
  obtain ⟨p, a⟩ := e
  obtain ⟨op, sector, hp, rfl⟩ := tooBig_of_step step panicked
  have full := (h.tidy.tooBig_iff h.size hp step).mp panicked
  have room := spare (by rw [hp]; rfl)
  omega

end Sound

/-- In a run whose calls of `log_write` do not overlap, on a log of `LOGSIZE`
blocks, the test of `log_write` panics exactly when `LOGSIZE - 1` distinct sectors
have been logged.  So there is no panic if every test finds less, and in particular
if each operation logs less than `MAXOPBLOCKS` distinct sectors. -/
theorem transaction_fits_log {s₀ s : Ops P} {es : List (P × Action)} (h₀ : s₀.Initial)
    (hsize : s₀.log.log.size = logSize) (run : Runs.Steps (Runs.Guarded Step Exclusive) s₀ es s) :
    (∀ p op sector t, s.pc p = .logWrite op sector .checkSize → Step s (p, .next) t →
      (t.panicked = some "too big a transaction" ↔ logSize - 1 ≤ s.logged.card)) ∧
    (Runs.Steps (Runs.Guarded Step fun s e => Exclusive s e ∧ Spare s e) s₀ es s →
      s.panicked ≠ some "too big a transaction") ∧
    (Runs.Steps (Runs.Guarded Step fun s e => Exclusive s e ∧ Within (maxOpBlocks - 1) s e)
        s₀ es s →
      s.panicked ≠ some "too big a transaction") := by
  have sound₀ : s₀.Sound := ⟨.initial h₀, .initial h₀, hsize⟩
  have calm₀ : s₀.panicked ≠ some "too big a transaction" := by
    rw [h₀.panicked]
    exact (Option.some_ne_none _).symm
  refine ⟨?_, ?_, ?_⟩
  · intro p op sector t hp step
    have sound : s.Sound := run.invariant sound₀ Sound.step
    exact sound.tidy.tooBig_iff sound.size hp step
  · intro run
    refine (run.invariant
      (I := fun s => s.Sound ∧ s.panicked ≠ some "too big a transaction") ⟨sound₀, calm₀⟩ ?_).2
    rintro s e t ⟨sound, _⟩ ⟨⟨exclusive, spare⟩, step⟩
    exact ⟨sound.step ⟨exclusive, step⟩, sound.fits spare step⟩
  · intro run
    refine (run.invariant
      (I := fun s => (s.Sound ∧ s.Reserved) ∧ s.panicked ≠ some "too big a transaction")
      ⟨⟨sound₀, .initial h₀⟩, calm₀⟩ ?_).2
    rintro s e t ⟨⟨sound, reserved⟩, _⟩ ⟨⟨exclusive, within⟩, step⟩
    refine ⟨⟨sound.step ⟨exclusive, step⟩, reserved.step sound.inv sound.tidy within step⟩, ?_⟩
    exact sound.fits (reserved.spare sound.inv e) step

/-- Three processes and an empty log. -/
def threeOps : Ops (Fin 3) where
  log := ⟨⟨fun _ _ => 0, fun _ => none, []⟩, ⟨20450, logSize, 0, false, ⟨0, fun _ => 0⟩⟩⟩
  pc _ := .idle
  panicked := none
  begun := 0
  ended := ∅
  entries := ∅
  committed := []

theorem threeOps_initial : threeOps.Initial :=
  ⟨fun _ => rfl, rfl, rfl, rfl, rfl, rfl, rfl, rfl⟩

/-- Each process begins an operation, then they log `n` new sectors in turn, and
the last process calls `log_write` once more. -/
def logInTurn (n : Nat) : List (Fin 3 × Action) :=
  let data : Block := fun _ => 1
  let begin_ (p : Fin 3) := [(p, Action.beginOp), (p, .next)]
  let log (i : Nat) := (Fin.ofNat 3 i, Action.logWrite (100 + i) data) ::
    List.replicate (7 + i) (Fin.ofNat 3 i, .next)
  begin_ 0 ++ begin_ 1 ++ begin_ 2 ++ (List.range n).flatMap log ++
    [(2, .logWrite (100 + n) data), (2, .next)]

/-- The three operations log ten sectors each, one call after the other, and the
last call panics. -/
theorem transaction_fits_log_thirty :
    ∃ s, Runs.Steps (Runs.Guarded Step fun s e => Exclusive s e ∧ Within maxOpBlocks s e)
        threeOps (logInTurn 29) s ∧
      s.panicked = some "too big a transaction" := by
  have run : (Runs.exec (Runs.guardedBy step fun s e => Exclusive s e ∧ Within maxOpBlocks s e)
      threeOps (logInTurn 29)).map Ops.panicked = some (some "too big a transaction") := by
    decide +kernel
  obtain ⟨s, hs, panicked⟩ := Option.map_eq_some_iff.mp run
  exact ⟨s, .of_exec_guardedBy hs, panicked⟩

theorem transaction_fits_log_twentySeven :
    ∃ s, Runs.Steps (Runs.Guarded Step fun s e => Exclusive s e ∧ Within (maxOpBlocks - 1) s e)
        threeOps (logInTurn 26) s ∧
      s.logged.card = 26 ∧ s.panicked ≠ some "too big a transaction" := by
  have run : (Runs.exec (Runs.guardedBy step fun s e =>
      Exclusive s e ∧ Within (maxOpBlocks - 1) s e) threeOps (logInTurn 26)).map
        (fun s => s.logged.card) = some 26 := by
    decide +kernel
  obtain ⟨s, hs, card⟩ := Option.map_eq_some_iff.mp run
  have guarded := Runs.Steps.of_exec_guardedBy hs
  obtain ⟨_, _, calm⟩ := transaction_fits_log threeOps_initial rfl
    (guarded.mono fun h => ⟨h.1.1, h.2⟩)
  exact ⟨s, guarded, card, calm guarded⟩

end Xv6Gui.Ops
