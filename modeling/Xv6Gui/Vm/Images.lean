import Xv6Gui.Vm.Accounts

/-!
# Address spaces

The directory of a process of size `sz` has no page of the user from `sz` on (`PageDir.Spans`), and it
should have all pages below (`PageDir.Covers`).  `allocuvm` does not look at what `mappages` returns,
so the second is known only if there was a page for each page table.

Each function of `vm.c` that changes the size of an address space has one triple.  It says what the
directory is that is left, and that each page is paid for.
-/

namespace Xv6Gui

open Effect

variable {d d' d₁ : PageDir} {a sz oldsz newsz : Nat} {image : KernelImage}

/-! ## Sizes -/

/-- The pages from `a` to `newsz` are pages of the user. -/
def PageDir.Mapped (d : PageDir) (a newsz : Nat) : Prop :=
  ∀ va, va % pgsize = 0 → a ≤ va → va < newsz → ∃ f, d.pte va = ⟨f, pteW ||| pteU ||| pteP⟩

/-- No page from `a` to `newsz` is mapped. -/
def PageDir.Absent (d : PageDir) (a newsz : Nat) : Prop :=
  ∀ va, va % pgsize = 0 → a ≤ va → va < newsz → ¬ (d.pte va).Present

/-- All pages below `sz` are there. -/
def PageDir.Covers (d : PageDir) (sz : Nat) : Prop :=
  ∀ va, va % pgsize = 0 → va < sz → (d.pte va).Present

/-- The kernel is mapped, and nothing else from `sz` on. -/
structure PageDir.Spans (d : PageDir) (image : KernelImage) (sz : Nat) : Prop where
  small : sz ≤ kernbase
  absent : d.Absent sz kernbase
  kernel : d.Kernel image

theorem pgroundup_le {va : Nat} (small : sz ≤ kernbase) (multiple : va % pgsize = 0) :
    pgroundup sz ≤ va ↔ sz ≤ va := by
  rw [pgroundup_eq small]
  unfold pgsize at *
  omega

theorem pgroundup_le_kernbase (small : sz ≤ kernbase) : pgroundup sz ≤ kernbase :=
  (pgroundup_le small (by decide)).mpr small

theorem PageDir.covers_pgroundup (small : sz ≤ kernbase) :
    d.Covers (pgroundup sz) ↔ d.Covers sz := by
  refine forall_congr' fun va => forall_congr' fun multiple => ?_
  rw [← not_le, pgroundup_le small multiple, not_le]

theorem PageDir.Spans.roundUp (h : d.Spans image sz) : d.Spans image (pgroundup sz) where
  small := pgroundup_le_kernbase h.small
  absent va multiple low := h.absent va multiple ((pgroundup_le h.small multiple).mp low)
  kernel := h.kernel

/-- A directory `setupkvm` returns. -/
theorem PageDir.Spans.of_zero (zero : ∀ va < kernbase, d.pte va = .zero) (kernel : d.Kernel image) :
    d.Spans image 0 := by
  refine ⟨Nat.zero_le _, fun va _ _ user => ?_, kernel⟩
  rw [zero va user]
  exact Pte.not_present_zero

/-- A table that is missing in an address space has no page below `sz`. -/
theorem PageDir.Covers.table {va : Nat} (h : d.Covers sz) (multiple : va % pgsize = 0)
    (low : va < sz) : d.table (pdx va) ≠ none := by
  intro none
  have present := h va multiple low
  rw [PageDir.pte_none none] at present
  exact Pte.not_present_zero present

theorem PageDir.Covers.reached (h : d.Covers sz) (small : sz ≤ kernbase) :
    d.Reached (pgroundup sz) := by
  intro none
  by_contra inner
  have aligned := pgroundup_aligned sz
  have up := pgroundup_eq small
  have same : pdx (pgroundup sz) = pdx (pgroundup sz - pgsize) := by
    simp only [pdx, Fin.mk.injEq, nptentries, pgsize] at *
    omega
  rw [same] at none
  refine h.table ?_ ?_ none
  · unfold pgsize at *
    omega
  · unfold pgsize at *
    omega

theorem Ordered.region {ks : List Kmap} {k : Kmap} (h : Ordered a ks) (hk : k ∈ ks) :
    a ≤ k.virt ∧ k.virt % pgsize = 0 ∧ k.virt + k.size ≤ 2 ^ 32 := by
  induction ks generalizing a with
  | nil => cases hk
  | cons first ks ih =>
    obtain ⟨low, aligned, -, -, top, rest⟩ := h
    cases hk with
    | head => exact ⟨low, aligned, top⟩
    | tail _ hk =>
      obtain ⟨above, others⟩ := ih rest hk
      exact ⟨by omega, others⟩

theorem PageDir.Kernel.congr (h : d.Kernel image)
    (same : ∀ va < 2 ^ 32, va % pgsize = 0 → kernbase ≤ va → d'.pte va = d.pte va) :
    d'.Kernel image := by
  intro k hk
  obtain ⟨low, aligned, top⟩ := (kmap_ordered image).region hk
  exact (h k hk).congr (fun va multiple above below =>
    same va (below.trans_le top) multiple (low.trans above)) aligned

/-! ## `allocuvm` -/

/-- What `allocuvm` leaves alone. -/
structure PageDir.Grows (d : PageDir) (a newsz : Nat) (d' : PageDir) : Prop where
  tables : ∀ i, d'.table i = none → d.table i = none
  outside : ∀ va < 2 ^ 32, va % pgsize = 0 → va < a ∨ newsz ≤ va → d'.pte va = d.pte va

theorem PageDir.Grows.refl {newsz : Nat} (d : PageDir) : d.Grows a newsz d :=
  ⟨fun _ none => none, fun _ _ _ _ => rfl⟩

theorem PageDir.Grows.mono {b newsz : Nat} (h : d.Grows b newsz d') (le : a ≤ b) :
    d.Grows a newsz d' :=
  ⟨h.tables, fun va hva multiple out => h.outside va hva multiple (by omega)⟩

/-- A page in between is mapped first. -/
theorem PageDir.Grows.after {b newsz : Nat} (h : d₁.Grows b newsz d') (low : b ≤ a) (high : a < newsz)
    (tables : ∀ i, d₁.table i = none → d.table i = none)
    (others : ∀ va < 2 ^ 32, va % pgsize = 0 → va ≠ a → d₁.pte va = d.pte va) :
    d.Grows b newsz d' := by
  refine ⟨fun i none => tables i (h.tables i none), fun va hva multiple out => ?_⟩
  rw [h.outside va hva multiple out, others va hva multiple (by omega)]

/-- `allocuvm` from `a` on. -/
theorem allocuvmLoop_pays {oldsz newsz : Nat} {E : VmHalt → Prop} (below : newsz ≤ kernbase)
    (grow : oldsz ≤ newsz) :
    ∀ {rounds a : Nat} {d : PageDir} {m : Mem} {A X : Multiset Nat}, m.AllFree A →
      a % pgsize = 0 → pgroundup oldsz ≤ a → newsz ≤ a + rounds * pgsize → d.Absent a newsz →
      Triple (m.Pays A · (d.frames + X)) (allocuvmLoop oldsz newsz rounds a d) (fun r s =>
        m.Pays A s (r.1.frames + X) ∧
        ((r.2 = newsz ∧ d.Grows a newsz r.1 ∧ (s.missed = m.missed → r.1.Mapped a newsz)) ∨
          (r.2 = 0 ∧ d.Grows (pgroundup oldsz) newsz r.1 ∧
            (d.Reached (pgroundup oldsz) → r.1.Absent (pgroundup oldsz) newsz)))) E
  | 0, a, d, m, A, X, _, _, _, room, _ => by
    refine .pure fun s pays => ⟨pays, .inl ⟨rfl, .refl d, fun _ va _ low high => ?_⟩⟩
    simp only [Nat.zero_mul, add_zero] at room
    omega
  | rounds + 1, a, d, m, A, X, valid, aligned, start, room, absent => by
    rw [allocuvmLoop]
    refine .ite (fun small => ?_) fun done => ?_
    · have user : a < kernbase := small.trans_le below
      refine .bind kalloc_pays fun r => ?_
      cases r with
      | none =>
        have up := le_pgroundup (grow.trans below)
        refine .bind (deallocuvm_pays valid below) fun r => .pure fun s post => ?_
        rw [if_neg (by omega)] at post
        obtain ⟨⟨-, clears⟩, pays⟩ := post
        exact ⟨pays, .inr ⟨rfl, ⟨fun i => (clears.tables i).mp, clears.outside⟩,
          fun reached _ => clears.gone below reached⟩⟩
      | some mem =>
        refine .bind (memsetPage_pays mem 0) fun _ => ?_
        refine .bind (((mappages_pays (X := X) aligned user).pre fun s pays =>
          Mem.Pays.congr pays ?_).weaken fun e present =>
            absurd present (absent a aligned le_rfl small)) fun r => ?_
        · abel
        have room' : newsz ≤ a + pgsize + rounds * pgsize := by
          rw [Nat.succ_mul] at room
          omega
        have aligned' : (a + pgsize) % pgsize = 0 := by simpa using aligned
        rw [wrap_nextPage user]
        refine .at_state fun s post => ?_
        rcases post with ⟨-, pte, tables, pays⟩ | ⟨same, owes⟩
        · have others : ∀ va < 2 ^ 32, va % pgsize = 0 → va ≠ a → r.1.pte va = d.pte va := by
            intro va hva multiple ne
            rw [pte, if_neg]
            rw [samePage_aligned (user.trans kernbase_lt) hva aligned multiple]
            exact ne.symm
          refine (allocuvmLoop_pays below grow valid aligned' (by omega) room' ?_).conseq
            (fun t e => e ▸ pays) fun r t post => ⟨post.1, post.2.imp ?_ ?_⟩
          · intro va multiple low high
            rw [others va (high.trans_le (below.trans kernbase_lt.le)) multiple (by
              simp only [pgsize] at low
              omega)]
            exact absent va multiple (by omega) high
          · rintro ⟨size, grows, mapped⟩
            refine ⟨size, (grows.mono (by omega)).after le_rfl small tables others, ?_⟩
            intro none va multiple low high
            by_cases here : va = a
            · refine ⟨mem, ?_⟩
              rw [here, grows.outside a (user.trans kernbase_lt) aligned
                (.inl (Nat.lt_add_of_pos_right (by decide))), pte, if_pos ⟨rfl, rfl⟩]
            · refine mapped none va multiple ?_ high
              simp only [pgsize] at *
              omega
          · rintro ⟨size, grows, gone⟩
            exact ⟨size, grows.after start small tables others, fun reached =>
              gone fun none => reached (tables _ none)⟩
        · cases same
          have pays : m.Pays A s (d.frames + X) :=
            (owes.congr (by abel : _ = {mem} + (d.frames + X))).drop (by simp)
          have missed := owes.overdue.missed
          refine (allocuvmLoop_pays (X := X) below grow (pays.allFree valid) aligned' (by omega) room'
            fun va multiple low => absent va multiple (by omega)).conseq (fun t e => ?_)
              fun r t post => ?_
          · subst e
            exact .refl ..
          · obtain ⟨paid, result⟩ := post
            refine ⟨pays.trans paid, result.imp ?_ id⟩
            rintro ⟨size, grows, -⟩
            refine ⟨size, grows.mono (by omega), fun none => ?_⟩
            have later := paid.kept.later
            simp only [Mem.account] at later missed
            omega
    · refine .pure fun s pays => ⟨pays, .inl ⟨rfl, .refl d, ?_⟩⟩
      intro _ va _ low high
      omega

/-- What `allocuvm` returns: the larger size, or 0.  No page is missing if `full` is true. -/
def PageDir.Allocated (d : PageDir) (image : KernelImage) (oldsz newsz : Nat) (full : Prop)
    (r : PageDir × Nat) : Prop :=
  (r.2 = max oldsz newsz ∧ r.1.Spans image r.2 ∧
    (full → r.1.Mapped (pgroundup oldsz) newsz ∧ (d.Covers oldsz → r.1.Covers r.2))) ∨
  (r.2 = 0 ∧ (d.Covers oldsz → r.1.Spans image oldsz ∧ r.1.Covers oldsz))

section

variable {m : Mem} {A X : Multiset Nat} {E : VmHalt → Prop}

theorem PageDir.Grows.kernel (grows : d.Grows a newsz d') (below : newsz ≤ kernbase)
    (h : d.Kernel image) : d'.Kernel image :=
  h.congr fun va hva multiple above => grows.outside va hva multiple (.inr (below.trans above))

theorem PageDir.Grows.covers (grows : d.Grows (pgroundup oldsz) newsz d') (small : oldsz ≤ kernbase)
    (h : d.Covers oldsz) : d'.Covers oldsz := by
  intro va multiple low
  have up := le_pgroundup small
  rw [grows.outside va (low.trans_le (small.trans kernbase_lt.le)) multiple (.inl (by omega))]
  exact h va multiple low

theorem allocuvm_pays (valid : m.AllFree A) (spans : d.Spans image oldsz) :
    Triple (m.Pays A · (d.frames + X)) (allocuvm d oldsz newsz) (fun r s =>
      m.Pays A s (r.1.frames + X) ∧ d.Allocated image oldsz newsz (s.missed = m.missed) r) E := by
  obtain ⟨small, absent, kernel⟩ := spans
  have up := le_pgroundup small
  rw [allocuvm]
  refine .ite (fun big => .pure fun s pays => ⟨pays, .inr ⟨rfl, fun covers => ?_⟩⟩) fun below =>
    .ite (fun less => .pure fun s pays => ⟨pays, .inl ?_⟩) fun grow => ?_
  · exact ⟨⟨small, absent, kernel⟩, covers⟩
  · refine ⟨(max_eq_left less.le).symm, ⟨small, absent, kernel⟩, fun _ => ⟨?_, id⟩⟩
    intro va _ low high
    omega
  · have below : newsz ≤ kernbase := by omega
    have grow : oldsz ≤ newsz := by omega
    refine (allocuvmLoop_pays below grow valid (pgroundup_aligned oldsz) le_rfl ?_
      fun va multiple low high => ?_).post fun r s post => ⟨post.1, post.2.imp ?_ ?_⟩
    · unfold pgsize
      omega
    · exact absent va multiple (up.trans low) (high.trans_le below)
    · rintro ⟨size, grows, mapped⟩
      rw [max_eq_right grow, size]
      refine ⟨rfl, ⟨below, fun va multiple low high => ?_, grows.kernel below kernel⟩, fun full => ?_⟩
      · rw [grows.outside va (high.trans kernbase_lt) multiple (.inr low)]
        exact absent va multiple (grow.trans low) high
      · refine ⟨mapped full, fun covers va multiple low => ?_⟩
        by_cases old : va < oldsz
        · exact grows.covers small covers va multiple old
        · obtain ⟨f, entry⟩ := mapped full va multiple ((pgroundup_le small multiple).mpr (by omega)) low
          rw [entry]
          exact Pte.present_or f _
    · rintro ⟨zero, grows, gone⟩
      refine ⟨zero, fun covers => ⟨⟨small, fun va multiple low high => ?_, grows.kernel below kernel⟩,
        grows.covers small covers⟩⟩
      by_cases new : va < newsz
      · exact gone (covers.reached small) va multiple ((pgroundup_le small multiple).mpr low) new
      · rw [grows.outside va (high.trans kernbase_lt) multiple (.inr (by omega))]
        exact absent va multiple low high

/-! ## `deallocuvm` -/

theorem deallocuvm_spans (valid : m.AllFree A) (spans : d.Spans image oldsz)
    (covers : d.Covers oldsz) :
    Triple (m.Pays A · (d.frames + X)) (deallocuvm d oldsz newsz) (fun r s =>
      (r.2 = min oldsz newsz ∧ r.1.Spans image r.2 ∧ r.1.Covers r.2) ∧
      m.Pays A s (r.1.frames + X)) E := by
  obtain ⟨small, absent, kernel⟩ := spans
  refine (deallocuvm_pays valid small).post fun r s post => ⟨?_, post.2⟩
  have result := post.1
  split at result
  · rename_i beyond
    rw [result, min_eq_left beyond]
    exact ⟨rfl, ⟨small, absent, kernel⟩, covers⟩
  · rename_i under
    obtain ⟨size, clears⟩ := result
    have small' : newsz ≤ kernbase := by omega
    have up := le_pgroundup small'
    rw [min_eq_right (by omega), size]
    refine ⟨rfl, ⟨small', fun va multiple low high => ?_, kernel.congr fun va hva multiple above => ?_⟩,
      fun va multiple low => ?_⟩
    · have low' := (pgroundup_le small' multiple).mpr low
      by_cases old : va < oldsz
      · refine clears.gone small (fun none => absurd none ?_) multiple low' old
        exact covers.table (pgroundup_aligned newsz) (by omega)
      · rw [clears.outside va (high.trans kernbase_lt) multiple (.inr (by omega))]
        exact absent va multiple (by omega) high
    · exact clears.outside va hva multiple (.inr (small.trans above))
    · rw [clears.outside va (low.trans_le (small'.trans kernbase_lt.le)) multiple (.inl (by omega))]
      exact covers va multiple (by omega)

/-! ## `copyuvm` -/

theorem vmHalt_stops {α : Type} {P : Mem → Prop} {Q : α → Mem → Prop} {cause : Cause}
    (h : ∀ s, P s → E ⟨cause, s.missed⟩) : Triple P (vmHalt cause : VmM α) Q E := h

theorem PageDir.spans_pgroundup (small : sz ≤ kernbase) (h : d.Spans image (pgroundup sz)) :
    d.Spans image sz where
  small := small
  absent va multiple low := h.absent va multiple ((pgroundup_le small multiple).mpr low)
  kernel := h.kernel

/-- One page more. -/
theorem PageDir.Spans.page {e : Pte} (spans : d.Spans image a) (aligned : a % pgsize = 0)
    (user : a < kernbase) (present : e.Present)
    (pte : ∀ va, d'.pte va = if SamePage a va then e else d.pte va) :
    d'.Spans image (a + pgsize) ∧ (d.Covers a → d'.Covers (a + pgsize)) := by
  have others : ∀ va < 2 ^ 32, va % pgsize = 0 → va ≠ a → d'.pte va = d.pte va := by
    intro va hva multiple ne
    rw [pte, if_neg]
    rw [samePage_aligned (user.trans kernbase_lt) hva aligned multiple]
    exact ne.symm
  refine ⟨⟨?_, fun va multiple low high => ?_, spans.kernel.congr fun va hva multiple above => ?_⟩,
    fun covers va multiple low => ?_⟩
  · unfold kernbase pgsize at *
    omega
  · have pos : 0 < pgsize := by decide
    rw [others va (high.trans kernbase_lt) multiple (by omega)]
    exact spans.absent va multiple (by omega) high
  · exact others va hva multiple (by omega)
  · by_cases here : va = a
    · rwa [here, pte, if_pos ⟨rfl, rfl⟩]
    · have below : va < a := by
        unfold pgsize at *
        omega
      rw [others va (below.trans (user.trans kernbase_lt)) multiple here]
      exact covers va multiple below

theorem copyuvmLoop_pays {pgdir : PageDir} (valid : m.AllFree A) (small : sz ≤ kernbase) :
    ∀ {rounds i : Nat} {d : PageDir}, i % pgsize = 0 → i ≤ pgroundup sz →
      sz ≤ i + rounds * pgsize → d.Spans image i → d.Covers i →
      Triple (m.Pays A · (d.frames + X)) (copyuvmLoop pgdir sz rounds i d) (fun r s =>
        match r with
        | none => m.Pays A s X
        | some d' => d'.Spans image sz ∧ d'.Covers sz ∧ m.Pays A s (d'.frames + X))
        fun _ => ¬ pgdir.Covers sz
  | rounds, i, d, aligned, high, room, spans, covers => by
    have done : sz ≤ i → d.Spans image sz ∧ d.Covers sz := by
      intro beyond
      obtain rfl : i = pgroundup sz := le_antisymm high ((pgroundup_le small aligned).mpr beyond)
      exact ⟨PageDir.spans_pgroundup small spans, (PageDir.covers_pgroundup small).mp covers⟩
    cases rounds with
    | zero =>
      obtain ⟨spans, covers⟩ := done (by simpa using room)
      exact .pure fun s pays => ⟨spans, covers, pays⟩
    | succ rounds =>
      rw [copyuvmLoop]
      refine .ite (fun less => ?_) fun beyond => ?_
      · have user : i < kernbase := less.trans_le small
        rw [walkpgdir_false, pure_bind]
        cases table : pgdir.table (pdx i) with
        | none => exact vmHalt_stops fun _ _ covers => covers.table aligned less table
        | some t =>
          have entry : t.entry (ptx i) = pgdir.pte i := (PageDir.pte_eq table).symm
          simp only [Option.map_some, entry]
          refine .ite (fun absent => vmHalt_stops fun _ _ covers => ?_) fun _ => ?_
          · exact absent (covers i aligned less)
          refine .bind kalloc_pays fun r => ?_
          cases r with
          | none => exact .bind (freevm_pays valid) fun _ => .pure fun s pays => pays
          | some mem =>
            refine .bind (Q := fun _ s => m.Pays A s (d.frames + ({mem} + X)))
              (.modify fun s pays => ?_) fun _ => ?_
            · refine (Mem.Pays.congr pays ?_).same rfl rfl rfl
              abel
            refine .bind ((mappages_pays (X := X) aligned user).weaken fun _ present =>
              absurd present (spans.absent i aligned le_rfl user)) fun r => ?_
            obtain ⟨d', r⟩ := r
            refine .at_state fun s post => ?_
            rcases post with ⟨zero, pte, -, pays⟩ | ⟨failed, owes⟩
            · have zero : r = 0 := zero
              rw [if_neg (by omega), wrap_nextPage user]
              obtain ⟨spans', covers'⟩ := spans.page aligned user (Pte.present_or mem _) pte
              refine (copyuvmLoop_pays valid small ?_ ?_ ?_ spans' (covers' covers)).pre
                fun t e => e ▸ pays
              · simpa using aligned
              · rw [pgroundup_eq small] at *
                unfold pgsize at *
                omega
              · rw [Nat.succ_mul] at room
                omega
            · cases failed
              rw [if_pos (show (-1 : Int) < 0 by decide)]
              have pays : m.Pays A s (d.frames + X) :=
                (owes.congr (by abel : _ = {mem} + (d.frames + X))).drop (by simp)
              exact .bind ((freevm_pays valid).pre fun t e => e ▸ pays) fun _ =>
                .pure fun s pays => pays
      · obtain ⟨spans, covers⟩ := done (by omega)
        exact .pure fun s pays => ⟨spans, covers, pays⟩

/-- `copyuvm` returns a full address space of the same size. -/
theorem copyuvm_pays {pgdir : PageDir} (valid : m.AllFree A) (small : sz ≤ kernbase) :
    Triple (m.Pays A · X) (copyuvm pgdir sz) (fun r s =>
      match r with
      | none => m.Pays A s X
      | some d => d.Spans m.image sz ∧ d.Covers sz ∧ m.Pays A s (d.frames + X))
      fun _ => ¬ pgdir.Covers sz := by
  refine .bind setupkvm_pays fun r => ?_
  cases r with
  | none => exact .pure fun s pays => pays
  | some d =>
    refine .known fun zero => .known fun kernel => ?_
    refine copyuvmLoop_pays valid small (Nat.zero_mod _) (Nat.zero_le _) ?_ (.of_zero zero kernel)
      fun va _ low => absurd low (Nat.not_lt_zero va)
    unfold pgsize
    omega

end

end Xv6Gui
