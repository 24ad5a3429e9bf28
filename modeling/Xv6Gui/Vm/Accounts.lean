import Xv6Gui.Lib.Balance
import Xv6Gui.Vm.Walk

/-!
# The pages that are paid for

Each page that `kalloc` returns is in the directory that is built, or given back to `kfree`, or lost.
`Mem.Pays` follows the pages from a state on: those in hand then, and those in hand now.  A page is
lost when there is none for a page table, because neither `setupkvm` nor `allocuvm` nor `copyuvm`
gives back what it holds then.
-/

namespace Xv6Gui

open Effect Balance

/-- The pages `kalloc` has, and the page tables there was no page for. -/
def Mem.account : Account Mem Nat := ⟨fun m => m.freelist, Mem.missed⟩

/-- From `m`, with `A` in hand, to `s`, with `B` in hand. -/
structure Mem.Pays (m : Mem) (A : Multiset Nat) (s : Mem) (B : Multiset Nat) : Prop where
  image : s.image = m.image
  kept : Kept Mem.account m A s B

/-- The same, when a page table is missing. -/
structure Mem.Owes (m : Mem) (A : Multiset Nat) (s : Mem) (B : Multiset Nat) : Prop where
  image : s.image = m.image
  overdue : Overdue Mem.account m A s B

namespace Mem

variable {m s t : Mem} {A B X : Multiset Nat}

theorem Pays.refl (m : Mem) (A : Multiset Nat) : m.Pays A m A := ⟨rfl, .refl m A⟩

/-- The contents of pages do not matter. -/
theorem Pays.same (h : m.Pays A s B) (image : t.image = s.image) (freelist : t.freelist = s.freelist)
    (missed : t.missed = s.missed) : m.Pays A t B :=
  ⟨image.trans h.image, h.kept.move (by simp [account, freelist]) missed⟩

theorem Pays.trans (h : m.Pays A s B) (k : s.Pays B t X) : m.Pays A t X :=
  ⟨k.image.trans h.image, h.kept.trans k.kept⟩

theorem Pays.congr (h : m.Pays A s B) (e : B = X) : m.Pays A s X := e ▸ h

theorem Owes.congr (h : m.Owes A s B) (e : B = X) : m.Owes A s X := e ▸ h

theorem Owes.drop {items : Multiset Nat} (h : m.Owes A s (items + B)) (some : items ≠ 0) :
    m.Pays A s B :=
  ⟨h.image, h.overdue.drop some⟩

/-- The pages that can be given back. -/
def AllFree (m : Mem) (A : Multiset Nat) : Prop := ∀ f ∈ (m.freelist : Multiset Nat) + A, m.image.Frees f

theorem Pays.frees (h : m.Pays A s B) (valid : m.AllFree A) {f : Nat} (hf : f ∈ B) :
    s.image.Frees f := by
  rw [h.image]
  exact valid f (h.kept.mem (Multiset.mem_add.mpr (.inr hf)))

theorem Pays.allFree (h : m.Pays A s B) (valid : m.AllFree A) : s.AllFree B := by
  intro f hf
  rw [h.image]
  exact valid f (h.kept.mem hf)

end Mem

theorem KernelImage.Frees.ne_zero {k : KernelImage} {f : Nat} (h : k.Frees f) : f ≠ 0 := by
  have low := k.kernlink_lt
  have le := k.data_le
  rintro rfl
  simp only [KernelImage.Frees, kernlink, kernbase, extmem, phystop] at *
  omega

section

variable {m : Mem} {A X : Multiset Nat} {E : VmHalt → Prop}

/-! ## `kalloc.c` -/

/-- `kalloc` takes the first free page, or none. -/
theorem kalloc_run (s : Mem) :
    ∃ refuse, kalloc.run s = .ok (none, { s with refuse := refuse }) ∨
      ∃ f rest, s.freelist = f :: rest ∧
        kalloc.run s = .ok (some f, { s with refuse := refuse, freelist := rest }) := by
  refine ⟨s.refuse.tail, ?_⟩
  have run : kalloc.run s = .ok (if s.refuse.head? = some true then none else s.freelist.head?,
      { s with
        refuse := s.refuse.tail
        freelist := if s.refuse.head? = some true then s.freelist else s.freelist.tail }) := rfl
  rw [run]
  by_cases refused : s.refuse.head? = some true
  · left
    simp [refused]
  · cases free : s.freelist with
    | nil =>
      left
      simp [refused]
    | cons f rest =>
      right
      exact ⟨f, rest, rfl, by simp [refused]⟩

theorem kalloc_pays : Triple (m.Pays A · X) kalloc (fun r s =>
    match r with
    | none => m.Pays A s X
    | some f => m.Pays A s ({f} + X)) E := by
  intro s h
  obtain ⟨refuse, run | ⟨f, rest, free, run⟩⟩ := kalloc_run s
  · rw [run]
    exact h.same rfl rfl rfl
  · rw [run]
    refine ⟨h.image, h.kept.move ?_ rfl⟩
    simp only [Mem.account, free]
    rw [← Multiset.cons_coe, ← Multiset.singleton_add]
    abel

theorem memsetPage_pays (frame : Nat) (c : UInt8) :
    Triple (m.Pays A · X) (memsetPage frame c) (fun _ s => m.Pays A s X) E :=
  .modify fun _ h => h.same rfl rfl rfl

theorem kfree_pays (valid : m.AllFree A) (f : Nat) :
    Triple (m.Pays A · ({f} + X)) (kfree f) (fun _ s => m.Pays A s X) E := by
  refine .get_bind fun s h => ?_
  rw [if_pos (h.frees valid (Multiset.mem_add.mpr (.inl (Multiset.mem_singleton_self f))))]
  refine .bind (Q := fun _ s => m.Pays A s ({f} + X)) ?_ fun _ => .modify fun t h => ?_
  · exact (memsetPage_pays f 1).pre fun t e => e ▸ h
  · refine ⟨h.image, h.kept.move ?_ rfl⟩
    simp only [Mem.account]
    rw [← Multiset.cons_coe, ← Multiset.singleton_add]
    abel

/-! ## Tables -/

variable {d : PageDir} {a pa : Nat} {perm : Flags}

theorem walkpgdir_false (d : PageDir) (va : Nat) :
    walkpgdir d va false = pure (d, (d.table (pdx va)).map fun t => t.entry (ptx va)) := by
  cases h : d.table (pdx va) <;> simp [walkpgdir, h]

/-- `walkpgdir` comes to the entry, or there is no page for its table. -/
theorem walkpgdir_pays (d : PageDir) (va : Nat) :
    Triple (m.Pays A · (d.frames + X)) (walkpgdir d va true) (fun r s =>
      (r.1.pte = d.pte ∧ r.1.table (pdx va) ≠ none ∧ (∀ i, r.1.table i = none → d.table i = none) ∧
        r.2 = some (d.pte va) ∧ m.Pays A s (r.1.frames + X)) ∨
      (r = (d, none) ∧ m.Owes A s (d.frames + X))) E := by
  cases h : d.table (pdx va) with
  | some t =>
    simp only [walkpgdir, h]
    refine .pure fun s pays => .inl ⟨rfl, by simp [h], fun _ none => none, ?_, pays⟩
    rw [PageDir.pte_eq h]
  | none =>
    simp only [walkpgdir, h, if_true]
    refine .bind kalloc_pays fun r => ?_
    cases r with
    | none =>
      refine .bind (.modify (Q := fun _ s => m.Owes A s (d.frames + X)) fun s pays => ?_) fun _ =>
        .pure fun s owes => .inr ⟨rfl, owes⟩
      exact ⟨pays.image, pays.kept.miss rfl (Nat.lt_succ_self _)⟩
    | some f =>
      refine .bind (memsetPage_pays f 0) fun _ => .pure fun s pays => .inl ⟨?_, ?_, ?_, ?_, ?_⟩
      · exact PageDir.pte_newTable h f
      · simp
      · exact fun i => PageDir.table_setTable
      · rw [PageDir.pte_none h]
      · refine pays.congr ?_
        rw [PageDir.frames_newTable h]
        abel

/-- A round of the loop of `mappages`: the page is mapped and the loop goes on, or there is no page
for the table, or the page is mapped already. -/
theorem mappagesLoop_round {n : Nat} {Q : PageDir × Int → Mem → Prop}
    (map : ∀ d' : PageDir, d'.pte = d.pte → d'.table (pdx a) ≠ none →
      (∀ i, d'.table i = none → d.table i = none) → ¬ (d.pte a).Present →
      Triple (m.Pays A · (d'.frames + X))
        (match n with
        | 0 => pure (d'.store a ⟨pa, perm ||| pteP⟩, 0)
        | n + 1 =>
          mappagesLoop perm n (d'.store a ⟨pa, perm ||| pteP⟩) (wrap (a + pgsize)) (pa + 1)) Q E)
    (miss : ∀ s, m.Owes A s (d.frames + X) → Q (d, -1) s) (remap : (d.pte a).Present → ∀ e, E e) :
    Triple (m.Pays A · (d.frames + X)) (mappagesLoop perm n d a pa) Q E := by
  rw [mappagesLoop]
  refine .bind (walkpgdir_pays d a) fun r => ?_
  obtain ⟨d', e⟩ := r
  cases e with
  | none =>
    refine .pure fun s post => ?_
    rcases post with ⟨-, -, -, no, -⟩ | ⟨same, owes⟩
    · cases no
    · cases same
      exact miss s owes
  | some e =>
    refine Triple.pre (P := fun s => (d'.pte = d.pte ∧ d'.table (pdx a) ≠ none ∧
      (∀ i, d'.table i = none → d.table i = none) ∧ e = d.pte a) ∧
        m.Pays A s (d'.frames + X)) (.known ?_) ?_
    · rintro ⟨same, table, tables, rfl⟩
      exact .ite (fun present s _ => remap present _) (map d' same table tables)
    · rintro s (⟨same, table, tables, found, pays⟩ | ⟨no, -⟩)
      · exact ⟨⟨same, table, tables, Option.some.inj found⟩, pays⟩
      · cases no

/-- `mappages` of one page. -/
theorem mappages_page (aligned : a % pgsize = 0) (small : a < 2 ^ 32) :
    mappages d a pgsize pa perm = mappagesLoop perm 0 d a pa := by
  have count : wrap (a + 2 ^ 32 - a) / pgsize = 0 := by
    rw [Nat.add_sub_cancel_left, wrap, Nat.mod_self, Nat.zero_div]
  rw [mappages, pgrounddown_aligned aligned, lastPage_aligned small aligned, count]

/-- A page of a user is mapped, and belongs to the directory from then on. -/
theorem mappages_pays (aligned : a % pgsize = 0) (small : a < kernbase) :
    Triple (m.Pays A · (d.frames + ({pa} + X))) (mappages d a pgsize pa perm) (fun r s =>
      (r.2 = 0 ∧ (∀ va, r.1.pte va = if SamePage a va then ⟨pa, perm ||| pteP⟩ else d.pte va) ∧
        (∀ i, r.1.table i = none → d.table i = none) ∧ m.Pays A s (r.1.frames + X)) ∨
      (r = (d, -1) ∧ m.Owes A s (d.frames + ({pa} + X)))) fun _ => (d.pte a).Present := by
  rw [mappages_page aligned (small.trans kernbase_lt)]
  refine mappagesLoop_round ?_ (fun s owes => .inr ⟨rfl, owes⟩) fun present _ => present
  intro d' same table tables absent
  refine .pure fun s pays => .inl ⟨rfl, ?_, ?_, pays.congr ?_⟩
  · intro va
    rw [PageDir.pte_store table, same]
  · exact fun i none => tables i ((PageDir.table_store _ i).mp none)
  · have stored := PageDir.frames_store_user table small ⟨pa, perm ||| pteP⟩
    rw [same, Pte.pages, if_neg absent, add_zero, Pte.pages, if_pos (Pte.present_or pa perm)]
      at stored
    rw [stored]
    abel

/-! ## The kernel part -/

/-- No page is mapped from an address on. -/
def PageDir.EmptyFrom (d : PageDir) (a : Nat) : Prop :=
  ∀ va, a ≤ va → va < 2 ^ 32 → ¬ (d.pte va).Present

/-- A page of the kernel is mapped, with nothing behind it. -/
theorem PageDir.store_emptyFrom {d' : PageDir} (same : d'.pte = d.pte)
    (table : d'.table (pdx a) ≠ none) (aligned : a % pgsize = 0) (small : a < 2 ^ 32)
    (empty : d.EmptyFrom a) (e : Pte) :
    (∀ va < a, (d'.store a e).pte va = d.pte va) ∧ (d'.store a e).pte a = e ∧
      (d'.store a e).EmptyFrom (a + pgsize) := by
  refine ⟨?_, by rw [pte_store table, if_pos ⟨rfl, rfl⟩], ?_⟩
  · intro va low
    rw [pte_store table, if_neg, same]
    rw [samePage_iff small (low.trans small)]
    simp only [pgsize] at *
    omega
  · intro va low high
    rw [pte_store table, if_neg, same]
    · exact empty va (le_trans (Nat.le_add_right ..) low) high
    · rw [samePage_iff small high]
      simp only [pgsize] at *
      omega

/-- `n` pages from `a` on are mapped to those from `pa` on. -/
def PageDir.Maps (d : PageDir) (a n pa : Nat) (perm : Flags) : Prop :=
  ∀ i < n, d.pte (a + i * pgsize) = ⟨pa + i, perm ||| pteP⟩

/-- The loop of `mappages` over pages of the kernel, from the first page on that is not mapped. -/
theorem mappagesLoop_pays : ∀ {n : Nat} {d : PageDir} {a pa : Nat}, a % pgsize = 0 → kernbase ≤ a →
    a + n * pgsize < 2 ^ 32 → d.EmptyFrom a →
      Triple (m.Pays A · (d.frames + X)) (mappagesLoop perm n d a pa) (fun r s =>
        (∀ va < a, r.1.pte va = d.pte va) ∧
        ((r.2 = 0 ∧ r.1.Maps a (n + 1) pa perm ∧ r.1.EmptyFrom (a + n * pgsize + pgsize) ∧
            m.Pays A s (r.1.frames + X)) ∨
          (r.2 = -1 ∧ m.Owes A s (r.1.frames + X)))) E
  | n, d, a, pa, aligned, kernel, top, empty => by
    have small : a < 2 ^ 32 := lt_of_le_of_lt (Nat.le_add_right ..) top
    refine mappagesLoop_round ?_ (fun s owes => ⟨fun _ _ => rfl, .inr ⟨rfl, owes⟩⟩)
      fun present _ => absurd present (empty a le_rfl small)
    intro d' same table _ _
    obtain ⟨below, here, behind⟩ :=
      PageDir.store_emptyFrom same table aligned small empty ⟨pa, perm ||| pteP⟩
    have frames : (d'.store a ⟨pa, perm ||| pteP⟩).frames = d'.frames :=
      PageDir.frames_store_kernel kernel small _
    cases n with
    | zero =>
      refine .pure fun s pays => ⟨below, .inl ⟨rfl, ?_, ?_, pays.congr (by rw [frames])⟩⟩
      · intro i hi
        obtain rfl : i = 0 := by omega
        simpa using here
      · simpa using behind
    | succ n =>
      have next : wrap (a + pgsize) = a + pgsize := by
        refine wrap_of_lt (lt_of_le_of_lt ?_ top)
        rw [Nat.succ_mul]
        omega
      rw [next]
      refine ((mappagesLoop_pays ?_ (le_trans kernel (Nat.le_add_right ..)) ?_ behind).pre
        fun s pays => by rwa [frames]).post fun r s post => ?_
      · simpa using aligned
      · rw [Nat.succ_mul] at top
        omega
      obtain ⟨low, result⟩ := post
      refine ⟨fun va hva => (low va (by omega)).trans (below va hva), result.imp_left ?_⟩
      rintro ⟨zero, maps, empty', pays⟩
      refine ⟨zero, fun i hi => ?_, ?_, pays⟩
      · cases i with
        | zero =>
          rw [Nat.zero_mul, add_zero, low a (Nat.lt_add_of_pos_right (by decide)), here, add_zero]
        | succ i =>
          have mapped := maps i (by omega)
          rwa [Nat.add_right_comm a, Nat.add_assoc a, ← Nat.succ_mul, Nat.add_right_comm pa]
            at mapped
      · rwa [Nat.succ_mul, ← Nat.add_assoc, Nat.add_right_comm a]

/-- `mappages` of whole pages. -/
theorem mappages_region {size : Nat} (aligned : a % pgsize = 0) (whole : size % pgsize = 0)
    (some : 0 < size) (top : a + size ≤ 2 ^ 32) :
    mappages d a size pa perm = mappagesLoop perm (size / pgsize - 1) d a pa := by
  have last : pgrounddown (wrap (a + size + 2 ^ 32 - 1)) = a + size - pgsize := by
    unfold pgrounddown wrap
    unfold pgsize at *
    omega
  have count : wrap (a + size - pgsize + 2 ^ 32 - a) / pgsize = size / pgsize - 1 := by
    unfold wrap
    unfold pgsize at *
    omega
  rw [mappages, pgrounddown_aligned aligned, last, count]

/-- The bytes of a region. -/
def Kmap.size (k : Kmap) : Nat := wrap (k.physEnd + 2 ^ 32 - k.physStart)

/-- Regions of whole pages of the kernel, one behind the other. -/
def Ordered : Nat → List Kmap → Prop
  | _, [] => True
  | a, k :: ks => a ≤ k.virt ∧ k.virt % pgsize = 0 ∧ k.size % pgsize = 0 ∧ 0 < k.size ∧
      k.virt + k.size ≤ 2 ^ 32 ∧ Ordered (k.virt + k.size) ks

theorem kmap_ordered (k : KernelImage) : Ordered kernbase (kmap k) := by
  have low := k.kernlink_lt
  have high := k.data_lt
  have aligned := k.data_aligned
  simp only [kmap, Ordered, Kmap.size, wrap, kernlink, kernbase, extmem, phystop, devspace, pgsize,
    true_and, and_true] at *
  omega

/-- The region is mapped. -/
def PageDir.HasRegion (d : PageDir) (k : Kmap) : Prop :=
  d.Maps k.virt (k.size / pgsize) (k.physStart / pgsize) k.perm

theorem PageDir.HasRegion.congr {k : Kmap} {d' : PageDir} (h : d.HasRegion k)
    (same : ∀ va, va % pgsize = 0 → k.virt ≤ va → va < k.virt + k.size → d'.pte va = d.pte va)
    (aligned : k.virt % pgsize = 0) : d'.HasRegion k := by
  intro i hi
  rw [same _ (by simpa using aligned) (Nat.le_add_right ..), h i hi]
  unfold pgsize at *
  omega

/-- `setupkvm` from a directory on without user pages. -/
theorem setupkvmLoop_pays : ∀ {ks : List Kmap} {d : PageDir} {a : Nat}, Ordered a ks → kernbase ≤ a →
    d.EmptyFrom a →
      Triple (m.Pays A · (d.frames + X)) (setupkvmLoop ks d) (fun r s =>
        match r with
        | none => m.Pays A s X
        | some d' => (∀ va < a, d'.pte va = d.pte va) ∧ (∀ k ∈ ks, d'.HasRegion k) ∧
            m.Pays A s (d'.frames + X)) E
  | [], d, a, _, _, _ => .pure fun s pays => ⟨fun _ _ => rfl, by simp, pays⟩
  | k :: ks, d, a, ⟨below, aligned, whole, pos, top, rest⟩, kernel, empty => by
    have pages : k.virt + (k.size / pgsize - 1) * pgsize + pgsize = k.virt + k.size := by
      unfold pgsize at *
      omega
    rw [setupkvmLoop]
    have count : k.size / pgsize - 1 + 1 = k.size / pgsize := by
      unfold pgsize at *
      omega
    refine .bind (Q := fun r s => (∀ va < k.virt, r.1.pte va = d.pte va) ∧
      ((r.2 = 0 ∧ r.1.HasRegion k ∧ r.1.EmptyFrom (k.virt + k.size) ∧ m.Pays A s (r.1.frames + X)) ∨
        (r.2 = -1 ∧ m.Owes A s (r.1.frames + X)))) ?_ fun r => ?_
    · show Triple _ (mappages d k.virt k.size _ _) _ _
      rw [mappages_region aligned whole pos top]
      refine (mappagesLoop_pays aligned (kernel.trans below) ?_ fun va hva =>
        empty va (below.trans hva)).post fun r s post => ⟨post.1, post.2.imp_left ?_⟩
      · unfold pgsize at *
        omega
      · rw [pages, count]
        exact id
    · obtain ⟨d', r⟩ := r
      refine .known fun low => .ite (fun failed => .pure ?_) fun done => ?_
      · rintro s (⟨zero, -⟩ | ⟨-, owes⟩)
        · have zero : r = 0 := zero
          omega
        · exact owes.drop d'.frames_ne_zero
      · refine Triple.pre (P := fun s => (d'.HasRegion k ∧ d'.EmptyFrom (k.virt + k.size)) ∧
          m.Pays A s (d'.frames + X)) (.known fun ⟨region, behind⟩ => ?_) ?_
        · have above : kernbase ≤ k.virt := kernel.trans below
          refine (setupkvmLoop_pays rest (above.trans (Nat.le_add_right ..)) behind).post
            fun r s post => ?_
          cases r with
          | none => exact post
          | some d'' =>
            obtain ⟨same, regions, pays⟩ := post
            refine ⟨fun va hva => ?_, List.forall_mem_cons.mpr ⟨?_, regions⟩, pays⟩
            · rw [same va (by omega), low va (by omega)]
            · exact region.congr (fun va _ _ high => same va high) aligned
        · rintro s (⟨-, region, behind, pays⟩ | ⟨minus, -⟩)
          · exact ⟨⟨region, behind⟩, pays⟩
          · have minus : r = -1 := minus
            omega

/-- All regions are mapped. -/
def PageDir.Kernel (d : PageDir) (image : KernelImage) : Prop := ∀ k ∈ kmap image, d.HasRegion k

theorem setupkvm_pays : Triple (m.Pays A · X) setupkvm (fun r s =>
    match r with
    | none => m.Pays A s X
    | some d => (∀ va < kernbase, d.pte va = .zero) ∧ d.Kernel m.image ∧ m.Pays A s (d.frames + X)) E := by
  refine .bind kalloc_pays fun r => ?_
  cases r with
  | none => exact .pure fun s pays => pays
  | some f =>
    refine .bind (memsetPage_pays f 0) fun _ => ?_
    rw [if_neg (by decide)]
    refine .read_bind fun s pays => ?_
    have zero : ∀ va, (⟨f, fun _ => none⟩ : PageDir).pte va = .zero := fun va => rfl
    have frames : (⟨f, fun _ => none⟩ : PageDir).frames = {f} := by
      exact PageDir.frames_empty f
    refine ((setupkvmLoop_pays (kmap_ordered s.image) le_rfl ?_).pre fun t h => by rwa [frames]).post
      fun r t post => ?_
    · intro va _ _
      rw [zero]
      decide
    · cases r with
      | none => exact post
      | some d => exact ⟨fun va hva => (post.1 va hva).trans (zero va), pays.image ▸ post.2.1, post.2.2⟩

/-! ## Pages that are given back -/

/-- If the table of a page is missing, the page is the first one of the table. -/
def PageDir.Reached (d : PageDir) (a : Nat) : Prop := d.table (pdx a) = none → a % 2 ^ 22 = 0

/-- The loop of `deallocuvm` from `a` on passes over the page: all tables before that of the page
are missing, so it comes to this one as far behind its start as `a` is. -/
def PageDir.Passed (d : PageDir) (a va : Nat) : Prop :=
  va % 2 ^ 22 < a % 2 ^ 22 ∧ ∀ i, pdx a ≤ i → i < pdx va → d.table i = none

/-- What `deallocuvm` does to the pages from `a` to `oldsz`. -/
structure PageDir.Clears (d : PageDir) (a oldsz : Nat) (d' : PageDir) : Prop where
  tables : ∀ i, d'.table i = none ↔ d.table i = none
  outside : ∀ va < 2 ^ 32, va % pgsize = 0 → va < a ∨ oldsz ≤ va → d'.pte va = d.pte va
  passed : ∀ va, va % pgsize = 0 → a ≤ va → va < oldsz → d.Passed a va → d'.pte va = d.pte va
  inside : ∀ va, va % pgsize = 0 → a ≤ va → va < oldsz → ¬ d.Passed a va → ¬ (d'.pte va).Present

variable {oldsz va : Nat} {d' d₁ : PageDir}

theorem PageDir.Reached.not_passed (h : d.Reached a) (low : a ≤ va) (high : va < 2 ^ 32) :
    ¬ d.Passed a va := by
  rintro ⟨before, missing⟩
  have later : pdx a < pdx va := by
    rw [Fin.lt_def, pdx, pdx]
    simp only [nptentries]
    omega
  have first := h (missing _ le_rfl later)
  omega

/-- A page behind the table that is skipped. -/
theorem PageDir.passed_next (table : d.table (pdx a) = none) (low : a + 2 ^ 22 ≤ va)
    (high : va < 2 ^ 32) : d.Passed a va ↔ d.Passed (a + 2 ^ 22) va := by
  have next : (pdx (a + 2 ^ 22)).val = (pdx a).val + 1 := by
    simp only [pdx, nptentries]
    omega
  rw [Passed, Passed, Nat.add_mod_right]
  refine and_congr_right fun _ => forall_congr' fun i => ?_
  constructor
  · exact fun missing after => missing (Fin.le_def.mpr (by rw [Fin.le_def] at after; omega))
  · intro missing from_
    by_cases here : i = pdx a
    · exact fun _ => here ▸ table
    · refine missing (Fin.le_def.mpr ?_)
      have ne : i.val ≠ (pdx a).val := fun e => here (Fin.ext e)
      rw [Fin.le_def] at from_
      omega

/-- A page the loop does not come to because it skips a table. -/
theorem PageDir.passed_skipped (table : d.table (pdx a) = none) (low : a ≤ va)
    (high : va < a + 2 ^ 22) (user : va < 2 ^ 32) (present : (d.pte va).Present) :
    d.Passed a va := by
  by_cases same : pdx va = pdx a
  · rw [pte_none (same ▸ table)] at present
    exact absurd present Pte.not_present_zero
  · have next : va % 2 ^ 22 < a % 2 ^ 22 ∧ (pdx va).val = (pdx a).val + 1 := by
      simp only [pdx, Fin.mk.injEq, nptentries] at *
      omega
    refine ⟨next.1, fun i low high => ?_⟩
    obtain rfl : i = pdx a := by
      rw [Fin.le_def] at low
      rw [Fin.lt_def] at high
      exact Fin.ext (by omega)
    exact table

theorem PageDir.Clears.gone (h : d.Clears a oldsz d') (below : oldsz ≤ kernbase) (reached : d.Reached a)
    (multiple : va % pgsize = 0) (low : a ≤ va) (high : va < oldsz) : ¬ (d'.pte va).Present :=
  h.inside va multiple low high
    (reached.not_passed low (high.trans (below.trans_lt kernbase_lt)))

/-- The frames that are mapped from `a` to `oldsz`. -/
def PageDir.mapped (d : PageDir) (a oldsz : Nat) : Multiset Nat :=
  ∑ va ∈ Finset.Ico a oldsz with va % pgsize = 0, (d.pte va).pages

theorem PageDir.mem_mapped (multiple : va % pgsize = 0) (low : a ≤ va) (high : va < oldsz)
    (present : (d.pte va).Present) : (d.pte va).addr ∈ d.mapped a oldsz :=
  Multiset.mem_sum.mpr ⟨va, Finset.mem_filter.mpr ⟨Finset.mem_Ico.mpr ⟨low, high⟩, multiple⟩,
    by simp [Pte.pages, present]⟩

/-- The pages are cleared, and `freed` is given back. -/
structure PageDir.Released (d : PageDir) (a oldsz : Nat) (d' : PageDir) (freed : Multiset Nat) : Prop
    extends d.Clears a oldsz d' where
  frames : d.frames = freed + d'.frames
  all : (∀ va, va % pgsize = 0 → a ≤ va → va < oldsz → (d.pte va).Present → ¬ d.Passed a va) →
    freed = d.mapped a oldsz

theorem PageDir.Released.refl (h : oldsz ≤ a) : d.Released a oldsz d 0 where
  tables _ := Iff.rfl
  outside _ _ _ _ := rfl
  passed _ _ _ _ _ := rfl
  inside _ _ low high := absurd (low.trans_lt high) h.not_gt
  frames := (zero_add _).symm
  all _ := by simp [mapped, h]

/-- A page with a table is cleared, and then the pages behind it. -/
theorem PageDir.Released.page {freed : Multiset Nat} (table : d.table (pdx a) ≠ none)
    (aligned : a % pgsize = 0) (small : a < oldsz) (below : oldsz ≤ kernbase)
    (tables : ∀ i, d₁.table i = none ↔ d.table i = none)
    (others : ∀ va < 2 ^ 32, va % pgsize = 0 → va ≠ a → d₁.pte va = d.pte va)
    (gone : ¬ (d₁.pte a).Present) (frames : d.frames = (d.pte a).pages + d₁.frames)
    (rest : d₁.Released (a + pgsize) oldsz d' freed) :
    d.Released a oldsz d' ((d.pte a).pages + freed) := by
  have top : oldsz < 2 ^ 32 := below.trans_lt kernbase_lt
  -- the next page has a table, or is the first one of the next table
  have reached : d₁.Reached (a + pgsize) := by
    intro none
    by_contra inner
    have same : pdx (a + pgsize) = pdx a := by
      simp only [pdx, Fin.mk.injEq, nptentries, pgsize] at *
      omega
    rw [same, tables] at none
    exact table none
  refine ⟨⟨fun i => (rest.tables i).trans (tables i), ?_, ?_, ?_⟩, ?_, fun _ => ?_⟩
  · intro va hva multiple range
    rw [rest.outside va hva multiple (by omega), others va hva multiple (by omega)]
  · intro va _ low high passed
    exact absurd passed (PageDir.Reached.not_passed (absurd · table) low (high.trans top))
  · intro va multiple low high _
    by_cases here : va = a
    · rw [here, rest.outside a (small.trans top) aligned (.inl (by simp [pgsize]))]
      exact gone
    · refine rest.gone below reached multiple ?_ high
      simp only [pgsize] at *
      omega
  · rw [frames, rest.frames, add_assoc]
  · have pages : (Finset.Ico a oldsz).filter (· % pgsize = 0) =
        insert a ((Finset.Ico (a + pgsize) oldsz).filter (· % pgsize = 0)) := by
      ext va
      simp only [Finset.mem_filter, Finset.mem_insert, Finset.mem_Ico]
      unfold pgsize at *
      omega
    have new : a ∉ (Finset.Ico (a + pgsize) oldsz).filter (· % pgsize = 0) := fun mem =>
      absurd (Finset.mem_Ico.mp (Finset.mem_filter.mp mem).1).1 (by simp [pgsize])
    rw [rest.all fun va _ low high _ => reached.not_passed low (high.trans top), mapped, mapped,
      pages, Finset.sum_insert new]
    refine congrArg _ (Finset.sum_congr rfl fun va inside => ?_)
    obtain ⟨range, multiple⟩ := Finset.mem_filter.mp inside
    obtain ⟨low, high⟩ := Finset.mem_Ico.mp range
    rw [others va (high.trans top) multiple (by simp only [pgsize] at low; omega)]

/-- A table is missing: the loop goes on in the next one. -/
theorem PageDir.Released.skip {freed : Multiset Nat} (table : d.table (pdx a) = none)
    (below : oldsz ≤ kernbase) (rest : d.Released (a + 2 ^ 22) oldsz d' freed) :
    d.Released a oldsz d' freed := by
  have top : oldsz < 2 ^ 32 := below.trans_lt kernbase_lt
  refine ⟨⟨rest.tables, fun va hva multiple range => rest.outside va hva multiple (by omega), ?_, ?_⟩,
    rest.frames, ?_⟩
  · intro va multiple low high passed
    by_cases here : va < a + 2 ^ 22
    · exact rest.outside va (high.trans top) multiple (.inl here)
    · have behind := not_lt.mp here
      exact rest.passed va multiple behind high
        ((passed_next table behind (high.trans top)).mp passed)
  · intro va multiple low high reached
    by_cases here : va < a + 2 ^ 22
    · rw [rest.outside va (high.trans top) multiple (.inl here)]
      exact mt (passed_skipped table low here (high.trans top)) reached
    · have behind := not_lt.mp here
      exact rest.inside va multiple behind high
        (mt (passed_next table behind (high.trans top)).mpr reached)
  · intro reached
    rw [rest.all fun va multiple low high present passed => reached va multiple (by omega) high present
      ((passed_next table low (high.trans top)).mpr passed)]
    refine Finset.sum_subset ?_ ?_
    · intro va
      simp only [Finset.mem_filter, Finset.mem_Ico]
      omega
    · intro va here there
      simp only [Finset.mem_filter, Finset.mem_Ico] at here there
      obtain ⟨⟨low, high⟩, multiple⟩ := here
      refine if_neg fun present => reached va multiple low high present ?_
      exact passed_skipped table low (by omega) (high.trans top) present

theorem kfree_run {f : Nat} (h : m.image.Frees f) : (kfree f).run m = .ok ((),
    { m with page := Function.update m.page f fun _ => 1, freelist := f :: m.freelist }) := by
  rw [kfree, run_get_bind, if_pos h]
  rfl

theorem deallocuvmLoop_done {rounds : Nat} (h : oldsz ≤ a) :
    deallocuvmLoop oldsz rounds a d = pure d := by
  cases rounds with
  | zero => rfl
  | succ rounds => rw [deallocuvmLoop, if_neg h.not_gt]

theorem deallocuvmLoop_skip {rounds : Nat} (small : a < oldsz) (user : a < kernbase)
    (table : d.table (pdx a) = none) :
    deallocuvmLoop oldsz (rounds + 1) a d = deallocuvmLoop oldsz rounds (a + 2 ^ 22) d := by
  rw [deallocuvmLoop, if_pos small, walkpgdir_false, pure_bind, table, wrap_nextTable user]
  rfl

theorem deallocuvmLoop_page {rounds : Nat} (small : a < oldsz) (user : a < kernbase)
    (table : d.table (pdx a) ≠ none) : deallocuvmLoop oldsz (rounds + 1) a d =
      if (d.pte a).Present then
        if (d.pte a).addr = 0 then vmHalt (.panic "kfree")
        else do
          kfree (d.pte a).addr
          deallocuvmLoop oldsz rounds (a + pgsize) (d.store a .zero)
      else deallocuvmLoop oldsz rounds (a + pgsize) d := by
  obtain ⟨t, some⟩ := Option.ne_none_iff_exists'.mp table
  rw [deallocuvmLoop, if_pos small, walkpgdir_false, pure_bind, some, wrap_nextPage user,
    PageDir.pte_eq some]
  rfl

/-- A page the loop comes to cannot be freed. -/
theorem deallocuvmLoop_panics {rounds : Nat} (small : a < oldsz) (user : a < kernbase)
    (table : d.table (pdx a) ≠ none) (present : (d.pte a).Present)
    (bad : ¬ m.image.Frees (d.pte a).addr) :
    (deallocuvmLoop oldsz (rounds + 1) a d).run m = .error ⟨.panic "kfree", m.missed⟩ := by
  rw [deallocuvmLoop_page small user table, if_pos present]
  split
  · rfl
  · refine run_bind_error ?_
    rw [kfree, run_get_bind, if_neg bad]
    rfl

/-- The loop comes to an end, with any bound from `n` on for its rounds. -/
inductive PageDir.Ends (oldsz n a : Nat) (d : PageDir) (m : Mem) : Prop
  /-- It comes to a page that cannot be freed. -/
  | panics (va : Nat) (multiple : va % pgsize = 0) (low : a ≤ va) (high : va < oldsz)
      (present : (d.pte va).Present) (bad : ¬ m.image.Frees (d.pte va).addr)
      (e : VmHalt) (run : ∀ rounds ≥ n, (deallocuvmLoop oldsz rounds a d).run m = .error e)
  /-- It returns. -/
  | returns (d' : PageDir) (page : Nat → Page) (freed : List Nat)
      (released : d.Released a oldsz d' freed) (good : ∀ f ∈ freed, m.image.Frees f)
      (run : ∀ rounds ≥ n, (deallocuvmLoop oldsz rounds a d).run m =
        .ok (d', { m with page := page, freelist := freed ++ m.freelist }))

namespace PageDir.Ends

variable {n : Nat}

theorem done (h : oldsz ≤ a) : Ends oldsz n a d m :=
  .returns d m.page [] (.refl h) (by simp) fun rounds _ => by rw [deallocuvmLoop_done h]; rfl

/-- What one round leaves for the others. -/
theorem bound {result : Except VmHalt (PageDir × Mem)} {b : Nat} {m' : Mem}
    (round : ∀ r, (deallocuvmLoop oldsz (r + 1) a d).run m = (deallocuvmLoop oldsz r b d₁).run m')
    (rest : ∀ rounds ≥ n, (deallocuvmLoop oldsz rounds b d₁).run m' = result) :
    ∀ rounds ≥ n + 1, (deallocuvmLoop oldsz rounds a d).run m = result := by
  intro rounds le
  obtain ⟨r, rfl⟩ := Nat.exists_eq_add_of_le' le
  rw [← Nat.add_assoc, round]
  exact rest _ (Nat.le_add_left ..)

theorem skip (small : a < oldsz) (below : oldsz ≤ kernbase) (table : d.table (pdx a) = none)
    (rest : Ends oldsz n (a + 2 ^ 22) d m) : Ends oldsz (n + 1) a d m := by
  have round (r : Nat) : (deallocuvmLoop oldsz (r + 1) a d).run m =
      (deallocuvmLoop oldsz r (a + 2 ^ 22) d).run m := by
    rw [deallocuvmLoop_skip small (small.trans_le below) table]
  cases rest with
  | panics va multiple low high present bad e run =>
    exact .panics va multiple (by omega) high present bad e (bound round run)
  | returns d' page freed released good run =>
    exact .returns d' page freed (released.skip table below) good (bound round run)

/-- A page is not there. -/
theorem absent (aligned : a % pgsize = 0) (small : a < oldsz) (below : oldsz ≤ kernbase)
    (table : d.table (pdx a) ≠ none) (absent : ¬ (d.pte a).Present)
    (rest : Ends oldsz n (a + pgsize) d m) : Ends oldsz (n + 1) a d m := by
  have none : (d.pte a).pages = 0 := if_neg absent
  have round (r : Nat) : (deallocuvmLoop oldsz (r + 1) a d).run m =
      (deallocuvmLoop oldsz r (a + pgsize) d).run m := by
    rw [deallocuvmLoop_page small (small.trans_le below) table, if_neg absent]
  cases rest with
  | panics va multiple low high present bad e run =>
    exact .panics va multiple (by omega) high present bad e (bound round run)
  | returns d' page freed released good run =>
    have pages := released.page table aligned small below (fun _ => Iff.rfl) (fun _ _ _ _ => rfl)
      absent (by rw [none, zero_add])
    rw [none, zero_add] at pages
    exact .returns d' page freed pages good (bound round run)

/-- A page is freed. -/
theorem free (aligned : a % pgsize = 0) (small : a < oldsz) (below : oldsz ≤ kernbase)
    (table : d.table (pdx a) ≠ none) (present : (d.pte a).Present)
    (free : m.image.Frees (d.pte a).addr)
    (rest : Ends oldsz n (a + pgsize) (d.store a .zero) { m with
      page := Function.update m.page (d.pte a).addr fun _ => 1
      freelist := (d.pte a).addr :: m.freelist }) : Ends oldsz (n + 1) a d m := by
  have user : a < kernbase := small.trans_le below
  have round (r : Nat) : (deallocuvmLoop oldsz (r + 1) a d).run m =
      (deallocuvmLoop oldsz r (a + pgsize) (d.store a .zero)).run { m with
        page := Function.update m.page (d.pte a).addr fun _ => 1
        freelist := (d.pte a).addr :: m.freelist } := by
    rw [deallocuvmLoop_page small user table, if_pos present, if_neg free.ne_zero,
      run_bind (kfree_run free)]
  have others : ∀ va < 2 ^ 32, va % pgsize = 0 → va ≠ a →
      (d.store a .zero).pte va = d.pte va := by
    intro va hva multiple ne
    rw [PageDir.pte_store table, if_neg]
    rw [samePage_aligned (user.trans kernbase_lt) hva aligned multiple]
    exact ne.symm
  cases rest with
  | panics va multiple low high here bad e run =>
    have same := others va (high.trans (below.trans_lt kernbase_lt)) multiple
      (by simp only [pgsize] at low; omega)
    rw [same] at here bad
    exact .panics va multiple (by omega) high here bad e (bound round run)
  | returns d' page freed released good run =>
    have gone : ¬ ((d.store a .zero).pte a).Present := by
      rw [PageDir.pte_store table, if_pos ⟨rfl, rfl⟩]
      exact Pte.not_present_zero
    have stored := PageDir.frames_store_user table user .zero
    rw [Pte.pages_zero, add_zero, add_comm] at stored
    have pages := released.page table aligned small below (fun i => PageDir.table_store _ i) others
      gone stored.symm
    rw [Pte.pages, if_pos present, add_comm] at pages
    refine .returns d' page (freed ++ [(d.pte a).addr]) pages ?_ ?_
    · intro f mem
      obtain mem | mem := List.mem_append.mp mem
      · exact good f mem
      · rwa [List.mem_singleton.mp mem]
    · rw [List.append_assoc]
      exact bound round run

end PageDir.Ends

theorem deallocuvmLoop_ends (below : oldsz ≤ kernbase) (n : Nat) :
    ∀ {a : Nat} (d : PageDir) (m : Mem), a % pgsize = 0 → oldsz ≤ a + n * pgsize →
      PageDir.Ends oldsz n a d m := by
  induction n with
  | zero => exact fun _ _ _ room => .done (by simpa using room)
  | succ n ih =>
    intro a d m aligned room
    have aligned' : (a + pgsize) % pgsize = 0 := by simpa using aligned
    have room' : oldsz ≤ a + pgsize + n * pgsize := by
      rw [Nat.succ_mul] at room
      omega
    by_cases small : a < oldsz
    · by_cases table : d.table (pdx a) = none
      · exact .skip small below table
          (ih d m (by simp only [pgsize] at *; omega) (by simp only [pgsize] at *; omega))
      · by_cases present : (d.pte a).Present
        · by_cases free : m.image.Frees (d.pte a).addr
          · exact .free aligned small below table present free (ih _ _ aligned' room')
          · refine .panics a aligned le_rfl small present free ⟨.panic "kfree", m.missed⟩
              fun rounds le => ?_
            obtain ⟨r, rfl⟩ := Nat.exists_eq_add_of_le' le
            exact deallocuvmLoop_panics small (small.trans_le below) table present free
        · exact .absent aligned small below table present (ih d m aligned' room')
    · exact .done (not_lt.mp small)

/-- If all pages can be freed, the loop returns. -/
theorem deallocuvmLoop_run (below : oldsz ≤ kernbase) (n : Nat) (aligned : a % pgsize = 0)
    (room : oldsz ≤ a + n * pgsize)
    (frees : ∀ va, va % pgsize = 0 → a ≤ va → va < oldsz → (d.pte va).Present →
      m.image.Frees (d.pte va).addr) :
    ∃ d' page freed, d.Released a oldsz d' (freed : List Nat) ∧
      ∀ rounds ≥ n, (deallocuvmLoop oldsz rounds a d).run m =
        .ok (d', { m with page := page, freelist := freed ++ m.freelist }) := by
  cases deallocuvmLoop_ends below n d m aligned room with
  | panics va multiple low high present bad => exact absurd (frees va multiple low high present) bad
  | returns d' page freed released _ run => exact ⟨d', page, freed, released, run⟩

theorem deallocuvmLoop_pays {rounds : Nat} (valid : m.AllFree A) (below : oldsz ≤ kernbase)
    (aligned : a % pgsize = 0) (room : oldsz ≤ a + rounds * pgsize) :
    Triple (m.Pays A · (d.frames + X)) (deallocuvmLoop oldsz rounds a d) (fun d' s =>
      d.Clears a oldsz d' ∧ m.Pays A s (d'.frames + X)) E := by
  intro s pays
  obtain ⟨d', page, freed, released, run⟩ := deallocuvmLoop_run (d := d) (m := s) below rounds aligned
    room fun va _ _ high present => Mem.Pays.frees pays valid
      (Multiset.mem_add.mpr (.inl (PageDir.mem_frames (high.trans_le below) present)))
  rw [run rounds le_rfl]
  refine ⟨released.toClears, pays.image, pays.kept.move ?_ rfl⟩
  simp only [Mem.account]
  rw [released.frames, ← Multiset.coe_add]
  abel

theorem pgroundup_eq {n : Nat} (h : n ≤ kernbase) :
    pgroundup n = (n + (pgsize - 1)) / pgsize * pgsize := by
  unfold kernbase at h
  unfold pgroundup wrap pgsize
  omega

theorem le_pgroundup {n : Nat} (h : n ≤ kernbase) : n ≤ pgroundup n := by
  rw [pgroundup_eq h]
  unfold pgsize
  omega

theorem pgroundup_aligned (n : Nat) : pgroundup n % pgsize = 0 := Nat.mul_mod_left ..

/-- `deallocuvm` gives back the pages it clears. -/
theorem deallocuvm_pays {newsz : Nat} (valid : m.AllFree A) (below : oldsz ≤ kernbase) :
    Triple (m.Pays A · (d.frames + X)) (deallocuvm d oldsz newsz) (fun r s =>
      (if newsz ≥ oldsz then r = (d, oldsz)
        else r.2 = newsz ∧ d.Clears (pgroundup newsz) oldsz r.1) ∧
      m.Pays A s (r.1.frames + X)) E := by
  rw [deallocuvm]
  refine .ite (fun beyond => .pure fun s pays => ⟨by rw [if_pos beyond], pays⟩) fun under => ?_
  refine .bind (deallocuvmLoop_pays valid below (pgroundup_aligned newsz) ?_) fun d' =>
    .pure fun s post => ⟨by rw [if_neg under]; exact ⟨rfl, post.1⟩, post.2⟩
  unfold pgsize
  omega

/-- `deallocuvm` clears all pages from `newsz` to `oldsz`, frees each frame that was mapped there,
and leaves the other entries alone, if and only if each of the frames can be freed and the loop
passes over none of the pages. -/
theorem deallocuvm_leaves_nothing_iff {newsz : Nat} (lt : newsz < oldsz) (below : oldsz ≤ kernbase) :
    (∃ d' s, (deallocuvm d oldsz newsz).run m = .ok ((d', newsz), s) ∧
      (∀ rounds > oldsz / pgsize,
        (deallocuvmLoop oldsz rounds (pgroundup newsz) d).run m = .ok (d', s)) ∧
      (∀ va, va % pgsize = 0 → pgroundup newsz ≤ va → va < oldsz → ¬ (d'.pte va).Present) ∧
      (∃ freed, s.freelist = freed ++ m.freelist ∧ freed = d.mapped (pgroundup newsz) oldsz) ∧
      ∀ va < 2 ^ 32, va % pgsize = 0 → va < pgroundup newsz ∨ oldsz ≤ va → d'.pte va = d.pte va) ↔
    ∀ va, va % pgsize = 0 → pgroundup newsz ≤ va → va < oldsz → (d.pte va).Present →
      m.image.Frees (d.pte va).addr ∧ ¬ d.Passed (pgroundup newsz) va := by
  have ends := deallocuvmLoop_ends below (oldsz / pgsize + 1) d m (pgroundup_aligned newsz)
    (by unfold pgsize; omega)
  constructor
  · rintro ⟨d', s, -, loop, gone, -, -⟩
    have loop := loop _ (Nat.lt_succ_self _)
    cases ends with
    | panics va multiple low high present bad e run => cases (run _ le_rfl).symm.trans loop
    | returns d₁ page freed released good run =>
      cases (run _ le_rfl).symm.trans loop
      have reached : ∀ va, va % pgsize = 0 → pgroundup newsz ≤ va → va < oldsz →
          (d.pte va).Present → ¬ d.Passed (pgroundup newsz) va := by
        intro va multiple low high present passed
        refine gone va multiple low high ?_
        rwa [released.passed va multiple low high passed]
      intro va multiple low high present
      have mem := PageDir.mem_mapped multiple low high present
      rw [← released.all reached] at mem
      exact ⟨good _ (Multiset.mem_coe.mp mem), reached va multiple low high present⟩
  · intro each
    cases ends with
    | panics va multiple low high present bad =>
      exact absurd (each va multiple low high present).1 bad
    | returns d' page freed released _ run =>
      have reached va multiple low high present := (each va multiple low high present).2
      refine ⟨d', _, ?_, run, fun va multiple low high => ?_, ⟨freed, rfl, released.all reached⟩,
        released.outside⟩
      · rw [deallocuvm, if_neg lt.not_ge, run_bind (run _ le_rfl)]
        rfl
      · by_cases passed : d.Passed (pgroundup newsz) va
        · rw [released.passed va multiple low high passed]
          exact fun present => reached va multiple low high present passed
        · exact released.inside va multiple low high passed

/-- A kernel of two pages. -/
def smallKernel : KernelImage :=
  ⟨0x80101000, 0x80102000, by decide, by decide, by decide, by decide⟩

/-- The first page of a table is mapped, and no other. -/
def onePage (i : Nat) : PageDir :=
  ⟨300, fun k => if k.val = i then some ⟨301, fun j => if j.val = 0 then ⟨302, pteP⟩ else .zero⟩
    else none⟩

theorem onePage_addr {i : Nat} (present : ((onePage i).pte va).Present) :
    ((onePage i).pte va).addr = 302 := by
  by_cases table : (pdx va).val = i
  · by_cases first : (ptx va).val = 0
    · simp [onePage, PageDir.pte, table, first]
    · simp [onePage, PageDir.pte, table, first, Pte.not_present_zero] at present
  · simp [onePage, PageDir.pte, table, Pte.not_present_zero] at present

/-- The first table is missing, and the loop starts with its first page. -/
theorem deallocuvm_leaves_nothing_next : ∃ d' s, ((onePage 1).pte (2 ^ 22)).Present ∧
    (deallocuvm (onePage 1) (2 ^ 22 + pgsize) 0).run ⟨smallKernel, [], fun _ _ => 0, [], 0⟩ =
      .ok ((d', 0), s) ∧ ¬ (d'.pte (2 ^ 22)).Present ∧
      (s.freelist : Multiset Nat) = (onePage 1).mapped 0 (2 ^ 22 + pgsize) := by
  have each : ∀ va, va % pgsize = 0 → pgroundup 0 ≤ va → va < 2 ^ 22 + pgsize →
      ((onePage 1).pte va).Present → smallKernel.Frees ((onePage 1).pte va).addr ∧
        ¬ (onePage 1).Passed (pgroundup 0) va := by
    intro va _ _ _ present
    rw [onePage_addr present]
    exact ⟨by decide, fun passed => absurd passed.1 (Nat.not_lt_zero _)⟩
  obtain ⟨d', s, run, -, gone, ⟨freed, list, all⟩, -⟩ := (deallocuvm_leaves_nothing_iff
    (m := ⟨smallKernel, [], fun _ _ => 0, [], 0⟩) (by decide) (by decide)).mpr each
  refine ⟨d', s, by decide, run, gone (2 ^ 22) rfl (by decide) (by decide), ?_⟩
  rw [list, List.append_nil]
  exact all

/-- The first table is missing.  From its second page the loop goes on with the second page of the
next table, and the first page there stays. -/
theorem deallocuvm_leaves_page : pgroundup pgsize ≤ 2 ^ 22 ∧ ((onePage 1).pte (2 ^ 22)).Present ∧
    ∀ m, (deallocuvm (onePage 1) (2 ^ 22 + pgsize) pgsize).run m = .ok ((onePage 1, pgsize), m) := by
  refine ⟨by decide, by decide, fun m => ?_⟩
  have rounds : (2 ^ 22 + pgsize) / pgsize + 1 = 1025 + 1 := by decide
  have table : (onePage 1).table (pdx (pgroundup pgsize)) = none := by decide
  rw [deallocuvm, if_neg (by decide), rounds, deallocuvmLoop, if_pos (by decide), walkpgdir_false,
    pure_bind, table, Option.map_none]
  dsimp only
  rw [deallocuvmLoop_done (by decide), pure_bind]
  rfl

theorem freeTable_pays (valid : m.AllFree A) (t : Option PageTable) :
    Triple (m.Pays A · (PageDir.tablePage t + X)) (freeTable t) (fun _ s => m.Pays A s X) E := by
  cases t with
  | none => exact .pure fun s pays => by simpa [PageDir.tablePage] using pays
  | some t => exact kfree_pays valid t.frame

theorem freeTables_pays (valid : m.AllFree A) (l : List (Fin nptentries)) :
    Triple (m.Pays A · ((l.map fun i => PageDir.tablePage (d.table i)).sum + X))
      (l.forM fun i => freeTable (d.table i)) (fun _ s => m.Pays A s X) E := by
  induction l with
  | nil => exact .pure fun s pays => by simpa using pays
  | cons i l ih =>
    refine .bind ((freeTable_pays valid _).pre fun s pays => Mem.Pays.congr pays ?_) fun _ => ih
    rw [List.map_cons, List.sum_cons, add_assoc]

/-- `freevm` gives back all pages of a directory. -/
theorem freevm_pays (valid : m.AllFree A) :
    Triple (m.Pays A · (d.frames + X)) (freevm d) (fun _ s => m.Pays A s X) E := by
  rw [freevm]
  refine .bind (deallocuvm_pays valid (le_refl kernbase)) fun r => ?_
  rw [if_neg (by decide)]
  refine Triple.pre (P := fun s => r.1.Unmapped ∧ m.Pays A s (r.1.frames + X))
    (.known fun unmapped => ?_) ?_
  · refine .bind (Q := fun _ s => m.Pays A s ({r.1.frame} + X)) ?_ fun _ => kfree_pays valid _
    refine (freeTables_pays valid _).pre fun s pays => Mem.Pays.congr pays ?_
    rw [PageDir.frames_of_unmapped unmapped]
    abel
  · rintro s ⟨⟨-, clears⟩, pays⟩
    exact ⟨fun va hva multiple =>
      clears.gone le_rfl (fun _ => by decide) multiple (Nat.zero_le _) hva, pays⟩

end

end Xv6Gui
