import Xv6Gui.Vm.MemoryRuns

/-!
# What is in the pages

Next to the entries of a directory stand the contents of the pages they map (`PageDir.view`).  Code
that maps pages writes only into pages it takes from `kalloc`, so a page that is in use stays as it is
(`Mem.within`).  `growproc` that fails should leave the view of a process alone, and `copyuvm` returns
a directory with the same view, in pages that are new.
-/

namespace Xv6Gui

open Effect

/-- A page of zeros. -/
def blank : Page := fun _ => 0

/-- The entry of a page that is present, and the contents of the page. -/
def PageDir.view (d : PageDir) (m : Mem) (va : Nat) : Option (Pte × Page) :=
  if (d.pte va).Present then some (d.pte va, m.page (d.pte va).addr) else none

/-! ## Code that takes pages -/

section

variable {α : Type} {F : Effect.Frame Mem}

/-- The frame lets code take pages and fill them with zeros. -/
structure Allocates (F : Effect.Frame Mem) : Prop where
  skip : ∀ s refuse missed, F.rel s { s with refuse := refuse, missed := missed }
  take : ∀ s f rest refuse, s.freelist = f :: rest →
    F.rel s { s with refuse := refuse, freelist := rest, page := Function.update s.page f blank }

theorem vmHalt_respects (cause : Cause) : Respects F (vmHalt cause : VmM α) :=
  .get_bind fun _ => .throw _

/-- `kalloc`, and `memset` of the page. -/
theorem kalloc_respects (h : Allocates F) {g : Option Nat → VmM α} (none : Respects F (g none))
    (some : ∀ f, ∃ rest, g (some f) = memsetPage f 0 >>= (fun _ => rest) ∧ Respects F rest) :
    Respects F (kalloc >>= g) := by
  constructor
  intro s a t run
  obtain ⟨r, u, alloc, run⟩ := bind_ok.mp run
  obtain ⟨refuse, refused | ⟨f, rest, free, taken⟩⟩ := kalloc_run s
  · cases refused.symm.trans alloc
    exact F.trans (h.skip s refuse s.missed) (none.rel run)
  · cases taken.symm.trans alloc
    obtain ⟨x, same, respects⟩ := some f
    rw [same] at run
    exact F.trans (h.take s f rest refuse free) (respects.rel run)

theorem walkpgdir_respects (h : Allocates F) (d : PageDir) (va : Nat) (alloc : Bool) :
    Respects F (walkpgdir d va alloc) := by
  rw [walkpgdir]
  cases d.table (pdx va) with
  | some t => exact .pure _
  | none =>
    refine .ite (fun _ => kalloc_respects h ?_ fun f => ⟨_, rfl, .pure _⟩) fun _ => .pure _
    exact .bind (.modify fun s => h.skip s s.refuse _) fun _ => .pure _

theorem mappagesLoop_respects (h : Allocates F) (perm : Flags) :
    ∀ n d a pa, Respects F (mappagesLoop perm n d a pa) := by
  intro n
  induction n with
  | zero =>
    intro d a pa
    rw [mappagesLoop]
    refine .bind (walkpgdir_respects h d a true) fun r => ?_
    obtain ⟨d, e⟩ := r
    cases e with
    | none => exact .pure _
    | some e => exact .ite (fun _ => vmHalt_respects _) fun _ => .pure _
  | succ n ih =>
    intro d a pa
    rw [mappagesLoop]
    refine .bind (walkpgdir_respects h d a true) fun r => ?_
    obtain ⟨d, e⟩ := r
    cases e with
    | none => exact .pure _
    | some e => exact .ite (fun _ => vmHalt_respects _) fun _ => ih _ _ _

theorem setupkvmLoop_respects (h : Allocates F) : ∀ ks d, Respects F (setupkvmLoop ks d) := by
  intro ks
  induction ks with
  | nil => exact fun d => .pure _
  | cons k ks ih =>
    exact fun d => .bind (mappagesLoop_respects h _ _ _ _ _) fun r =>
      .ite (fun _ => .pure _) fun _ => ih _

theorem setupkvm_respects (h : Allocates F) : Respects F setupkvm :=
  kalloc_respects h (.pure _) fun _ => ⟨_, rfl, .ite (fun _ => vmHalt_respects _) fun _ =>
    .get_bind fun _ => setupkvmLoop_respects h _ _⟩

end

/-- Pages of zeros stay so. -/
def Mem.blanks : Effect.Frame Mem where
  rel s t := ∀ f, s.page f = blank → t.page f = blank
  refl _ _ h := h
  trans first second f h := second f (first f h)

theorem allocates_blanks : Allocates Mem.blanks where
  skip _ _ _ _ h := h
  take s f _ _ _ g h := by
    by_cases same : g = f
    · subst same
      exact Function.update_self ..
    · exact (Function.update_of_ne same ..).trans h

/-- Only pages of `P` are taken, written and given back. -/
def Mem.within (P : Set Nat) : Effect.Frame Mem where
  rel s t := (∀ f ∈ s.freelist, f ∈ P) → (∀ f ∈ t.freelist, f ∈ P) ∧ ∀ f ∉ P, t.page f = s.page f
  refl _ free := ⟨free, fun _ _ => rfl⟩
  trans first second free := by
    obtain ⟨free, same⟩ := first free
    obtain ⟨free, same'⟩ := second free
    exact ⟨free, fun f hf => (same' f hf).trans (same f hf)⟩

section

variable {P : Set Nat} {f : Nat}

variable {oldsz : Nat}

/-- The pages from `lo` to `hi` that are mapped are in `P`, and they are pages of zeros. -/
def PageDir.Blank (d : PageDir) (P : Set Nat) (lo hi : Nat) (s : Mem) : Prop :=
  ∀ va, va % pgsize = 0 → lo ≤ va → va < hi → (d.pte va).Present →
    (d.pte va).addr ∈ P ∧ s.page (d.pte va).addr = blank

theorem PageDir.Blank.mono {d : PageDir} {lo hi : Nat} {s t : Mem} (h : d.Blank P lo hi s)
    (zeros : Mem.blanks.rel s t) : d.Blank P lo hi t := fun va multiple low high present =>
  (h va multiple low high present).imp_right (zeros _)

/-- A page of zeros is mapped. -/
theorem PageDir.Blank.mappages {d : PageDir} {lo hi a : Nat} {perm : Flags} {s t : Mem}
    {r : PageDir × Int} (h : d.Blank P lo hi s) (aligned : a % pgsize = 0) (user : a < kernbase)
    (here : f ∈ P) (zero : s.page f = blank)
    (map : (mappages d a pgsize f perm).run s = .ok (r, t)) : r.1.Blank P lo hi t := by
  have zeros := (mappagesLoop_respects allocates_blanks _ _ _ _ _).rel map
  have old : d.Blank P lo hi t := h.mono zeros
  rcases (mappages_pays (X := 0) aligned user).ok (.refl ..) map with ⟨-, pte, -⟩ | ⟨failed, -⟩
  · intro va multiple low high present
    rw [pte] at present ⊢
    split
    · exact ⟨here, zeros f zero⟩
    · rename_i other
      rw [if_neg other] at present
      exact old va multiple low high present
  · cases failed
    exact old

end

/-! ## `growproc` -/

section

variable {d d' : PageDir} {s t : Mem} {X : Multiset Nat} {image : KernelImage} {a b sz newsz : Nat}

/-- From `sz` to `sz + n`: if the size that is returned is 0 nothing changes, and if not the pages that
stay are as they were, and the new ones are pages of zeros. -/
structure PageDir.Resizes (d : PageDir) (m : Mem) (sz : Nat) (n : Int) (r : PageDir × Nat) (m' : Mem) :
    Prop where
  failed : n ≠ 0 ∧ r.2 = 0 → ∀ va < kernbase, va % pgsize = 0 → r.1.view m' va = d.view m va
  size : ¬ (n ≠ 0 ∧ r.2 = 0) → -sz < n → r.2 = sz + n ∧ (n ≠ 0 → sz + n < kernbase)
  stays : ¬ (n ≠ 0 ∧ r.2 = 0) → ∀ va : Nat, va % pgsize = 0 → va < sz → va < sz + n →
    r.1.view m' va = d.view m va
  zeros : ¬ (n ≠ 0 ∧ r.2 = 0) → ∀ va < kernbase, va % pgsize = 0 → d.view m va = none →
    ∀ v, r.1.view m' va = some v → v.2 = blank

/-- What a process has at an address. -/
def Machine.view (s : Machine) (p : ProcPtr) (va : Nat) : Option (Pte × Page) :=
  (s.ptable p).pgdir.bind fun d => d.view s.mem va

/-- `growproc(n)` returns `r`: if it fails nothing changes, and if not the size is another one, the
pages that stay are as they were, and the new ones are pages of zeros. -/
structure Machine.Grows (s : Machine) (p : ProcPtr) (n r : Int) (t : Machine) : Prop where
  returns : r = 0 ∨ r = -1
  failed : r = -1 → (t.ptable p).sz = (s.ptable p).sz ∧
    ∀ va < kernbase, va % pgsize = 0 → t.view p va = s.view p va
  size : r = 0 → -(s.ptable p).sz < n → (t.ptable p).sz = (s.ptable p).sz + n ∧
    (n ≠ 0 → (s.ptable p).sz + n < kernbase)
  stays : r = 0 → ∀ va : Nat, va % pgsize = 0 → va < (s.ptable p).sz → va < (s.ptable p).sz + n →
    t.view p va = s.view p va
  zeros : r = 0 → ∀ va < kernbase, va % pgsize = 0 → s.view p va = none →
    ∀ v, t.view p va = some v → v.2 = blank

end

/-! ## `copyuvm` -/

/-- Pages are taken one after the other, and those that are not free stay as they are. -/
def Mem.takes : Effect.Frame Mem where
  rel s t := t.freelist <:+ s.freelist ∧ ∀ f ∉ s.freelist, t.page f = s.page f
  refl _ := ⟨List.suffix_refl _, fun _ _ => rfl⟩
  trans first second := ⟨second.1.trans first.1, fun f hf =>
    (second.2 f fun free => hf (first.1.subset free)).trans (first.2 f hf)⟩

/-- A page is taken and filled. -/
theorem takes_first {s : Mem} {f : Nat} {rest : List Nat} (first : s.freelist = f :: rest)
    (refuse : List Bool) (page : Page) : Mem.takes.rel s
      { s with refuse := refuse, freelist := rest, page := Function.update s.page f page } := by
  refine ⟨first ▸ List.suffix_cons f rest, fun g hg => Function.update_of_ne ?_ ..⟩
  rintro rfl
  exact hg (first ▸ .head _)

theorem allocates_takes : Allocates Mem.takes where
  skip _ _ _ := ⟨List.suffix_refl _, fun _ _ => rfl⟩
  take _ _ _ refuse first := takes_first first refuse blank

/-- A page that is mapped is not mapped again. -/
theorem mappages_remap {d : PageDir} {a pa : Nat} {perm : Flags} (aligned : a % pgsize = 0)
    (small : a < 2 ^ 32) (present : (d.pte a).Present) (s : Mem) :
    (mappages d a pgsize pa perm).run s = .error ⟨.panic "remap", s.missed⟩ := by
  rw [mappages_page aligned small, mappagesLoop, walkpgdir]
  cases table : d.table (pdx a) with
  | none =>
    rw [PageDir.pte_none table] at present
    exact absurd present Pte.not_present_zero
  | some t =>
    rw [PageDir.pte_eq table] at present
    rw [pure_bind]
    dsimp only
    rw [if_pos present]
    rfl

section

variable {pgdir d d' : PageDir} {sz : Nat} {s t : Mem}

/-- The pages from `lo` to `hi` are copied, into pages that were free. -/
structure PageDir.Copies (pgdir : PageDir) (s : Mem) (lo hi : Nat) (d : PageDir) (t : Mem) : Prop where
  flags : ∀ va, va % pgsize = 0 → lo ≤ va → va < hi → (d.pte va).flags = (pgdir.pte va).flags
  bytes : ∀ va, va % pgsize = 0 → lo ≤ va → va < hi →
    t.page (d.pte va).addr = s.page (pgdir.pte va).addr
  free : ∀ va, va % pgsize = 0 → lo ≤ va → va < hi → (d.pte va).addr ∈ s.freelist
  apart : ∀ va vb, va % pgsize = 0 → vb % pgsize = 0 → lo ≤ va → va < vb → vb < hi →
    (d.pte va).addr ≠ (d.pte vb).addr

theorem PageDir.Copies.none {hi lo : Nat} (h : hi ≤ lo) : pgdir.Copies s lo hi d t := by
  constructor
  all_goals
    intros
    omega

theorem Pte.flags_or {e : Pte} (h : e.Present) : e.flags ||| pteP = e.flags := by
  have all : ∀ flags : Flags, flags &&& pteP ≠ 0 → flags ||| pteP = flags := by decide +kernel
  exact all e.flags h

/-- One page is copied, and then the pages behind it. -/
theorem PageDir.Copies.page {u : Mem} {hi i f : Nat} (here : (d'.pte i).addr = f)
    (flags : (d'.pte i).flags = (pgdir.pte i).flags) (aligned : i % pgsize = 0) (less : i < hi)
    (free : f ∈ s.freelist) (gone : f ∉ u.freelist) (taken : Mem.takes.rel s u)
    (bytes : u.page f = s.page (pgdir.pte i).addr)
    (used : ∀ va, va % pgsize = 0 → va < hi → (pgdir.pte va).addr ∉ s.freelist)
    (rest : pgdir.Copies u (i + pgsize) hi d' t) (later : Mem.takes.rel u t) :
    pgdir.Copies s i hi d' t := by
  have split : ∀ va, va % pgsize = 0 → i ≤ va → va = i ∨ i + pgsize ≤ va := by
    intro va multiple low
    unfold pgsize at *
    omega
  constructor
  · intro va multiple low high
    rcases split va multiple low with rfl | low
    · exact flags
    · exact rest.flags va multiple low high
  · intro va multiple low high
    rcases split va multiple low with rfl | low
    · rw [here, later.2 f gone, bytes]
    · rw [rest.bytes va multiple low high, taken.2 _ (used va multiple high)]
  · intro va multiple low high
    rcases split va multiple low with rfl | low
    · rwa [here]
    · exact taken.1.subset (rest.free va multiple low high)
  · intro va vb ha hb low lt high
    have above := split vb hb (by omega)
    rcases split va ha low with rfl | low
    · rw [here]
      rintro rfl
      exact gone (rest.free vb hb (by omega) high)
    · exact rest.apart va vb ha hb low lt high

/-- A round of `copyuvm` that goes on has filled the first free page and mapped it.  At `KERNBASE`
there is none: the page is mapped by `setupkvm`, and `mappages` panics. -/
theorem copyuvmLoop_round {rounds i : Nat} (aligned : i % pgsize = 0) (high : i ≤ kernbase)
    (kernel : (d.pte kernbase).Present) (less : i < sz)
    (run : (copyuvmLoop pgdir sz (rounds + 1) i d).run s = .ok (some d', t)) :
    i < kernbase ∧ (pgdir.pte i).Present ∧ ∃ f rest d₁ u, s.freelist = f :: rest ∧
      Mem.takes.rel s u ∧ u.freelist <:+ rest ∧
      (f ∉ rest → u.page f = s.page (pgdir.pte i).addr) ∧
      (∀ va, d₁.pte va = if SamePage i va then ⟨f, (pgdir.pte i).flags ||| pteP⟩ else d.pte va) ∧
      (copyuvmLoop pgdir sz rounds (i + pgsize) d₁).run u = .ok (some d', t) := by
  rw [copyuvmLoop, if_pos less, walkpgdir_false, pure_bind] at run
  cases table : pgdir.table (pdx i) with
  | none =>
    rw [table] at run
    cases run
  | some pt =>
    have entry : pt.entry (ptx i) = pgdir.pte i := (PageDir.pte_eq table).symm
    rw [table] at run
    simp only [Option.map_some, entry] at run
    split at run
    · cases run
    rename_i present
    obtain ⟨mem, u, alloc, run⟩ := bind_ok.mp run
    obtain ⟨refuse, refused | ⟨f, rest, first, taken⟩⟩ := kalloc_run s
    · cases refused.symm.trans alloc
      obtain ⟨_, _, _, run⟩ := bind_ok.mp run
      cases run
    · cases taken.symm.trans alloc
      obtain ⟨_, u, fill, run⟩ := bind_ok.mp run
      cases fill
      obtain ⟨⟨d₁, r⟩, u, map, run⟩ := bind_ok.mp run
      rcases high.lt_or_eq with user | rfl
      swap
      · cases (mappages_remap aligned kernbase_lt kernel _).symm.trans map
      have mapped := (mappagesLoop_respects allocates_takes _ _ _ _ _).rel map
      rcases (mappages_pays (X := 0) aligned user).ok (.refl ..) map with
        ⟨zero, pte, -⟩ | ⟨failed, -⟩
      · have zero : r = 0 := zero
        rw [if_neg (by omega), wrap_nextPage user] at run
        refine ⟨user, not_not.mp present, f, rest, d₁, u, first,
          Mem.takes.trans (takes_first first refuse _) mapped, mapped.1, fun apart => ?_, pte, run⟩
        rw [mapped.2 f apart]
        exact Function.update_self ..
      · cases failed
        obtain ⟨_, _, _, run⟩ := bind_ok.mp run
        cases run

theorem copyuvmLoop_copies : ∀ {rounds i : Nat} {d : PageDir} {s : Mem}, i % pgsize = 0 →
    i ≤ kernbase → sz ≤ i + rounds * pgsize → (d.pte kernbase).Present → s.freelist.Nodup →
    (∀ va < kernbase, va % pgsize = 0 → va < sz → (pgdir.pte va).addr ∉ s.freelist) →
    (copyuvmLoop pgdir sz rounds i d).run s = .ok (some d', t) →
    (i < sz → sz ≤ kernbase) ∧ Mem.takes.rel s t ∧ pgdir.Copies s i sz d' t ∧
      ∀ va < 2 ^ 32, va % pgsize = 0 → va < i ∨ sz ≤ va → d'.pte va = d.pte va
  | 0, i, d, s, aligned, _, room, _, _, _, run => by
    cases run
    simp only [Nat.zero_mul, add_zero] at room
    exact ⟨fun less => absurd room less.not_ge, Mem.takes.refl _, .none room, fun _ _ _ _ => rfl⟩
  | rounds + 1, i, d, s, aligned, high, room, kernel, nodup, used, run => by
    by_cases less : i < sz
    · obtain ⟨user, present, f, rest, d₁, u, first, takes, left, bytes, pte, run⟩ :=
        copyuvmLoop_round aligned high kernel less run
      have apart : f ∉ rest := (List.nodup_cons.mp (first ▸ nodup)).1
      have others : ∀ va < 2 ^ 32, va % pgsize = 0 → va ≠ i → d₁.pte va = d.pte va := by
        intro va hva multiple ne
        rw [pte, if_neg]
        rw [samePage_aligned (user.trans kernbase_lt) hva aligned multiple]
        exact ne.symm
      obtain ⟨small, later, copies, same⟩ := copyuvmLoop_copies (by simpa using aligned)
        (by unfold kernbase pgsize at *; omega) (by rw [Nat.succ_mul] at room; omega)
        (by rwa [others _ kernbase_lt (by decide) user.ne']) (nodup.sublist takes.1.sublist)
        (fun va hva multiple low free => used va hva multiple low (takes.1.subset free)) run
      have small : sz ≤ kernbase := by
        unfold kernbase pgsize at *
        omega
      have stored : d'.pte i = ⟨f, (pgdir.pte i).flags ||| pteP⟩ := by
        rw [same i (user.trans kernbase_lt) aligned (.inl (by simp [pgsize])), pte,
          if_pos ⟨rfl, rfl⟩]
      refine ⟨fun _ => small, Mem.takes.trans takes later, ?_, fun va hva multiple out => ?_⟩
      · refine .page (congrArg Pte.addr stored) ?_ aligned less (first ▸ .head _)
          (fun free => apart (left.subset free)) takes (bytes apart) ?_ copies later
        · rw [stored]
          exact Pte.flags_or present
        · exact fun va multiple low => used va (low.trans_le small) multiple low
      · rw [same va hva multiple (by omega), others va hva multiple (by omega)]
    · rw [copyuvmLoop, if_neg less] at run
      cases run
      exact ⟨fun less' => absurd less' less, Mem.takes.refl _, .none (not_lt.mp less),
        fun _ _ _ _ => rfl⟩

/-- `copyuvm` returns the kernel part of `setupkvm` and copies of all pages below `sz`, in pages that
were not in use.  No page that was in use is written. -/
theorem copyuvm_copies {used : Multiset Nat} {m : Mem}
    (nodup : ((m.freelist : Multiset Nat) + used).Nodup) (own : pgdir.frames ≤ used)
    (covers : pgdir.Covers sz) (run : (copyuvm pgdir sz).run m = .ok (some d, t)) :
    (∃ d₀ m₀, setupkvm.run m = .ok (some d₀, m₀) ∧
      ∀ va < 2 ^ 32, va % pgsize = 0 → kernbase ≤ va → d.pte va = d₀.pte va) ∧
    (∀ va < sz, va % pgsize = 0 → (d.pte va).flags = (pgdir.pte va).flags ∧
      t.page (d.pte va).addr = m.page (pgdir.pte va).addr ∧ (d.pte va).addr ∉ used ∧
      ∀ vb < sz, vb % pgsize = 0 → vb ≠ va → (d.pte vb).addr ≠ (d.pte va).addr) ∧
    (∀ va < kernbase, va % pgsize = 0 → sz ≤ va → ¬ (d.pte va).Present) ∧
    ∀ f ∈ used, t.page f = m.page f := by
  obtain ⟨free, -, apart⟩ := Multiset.nodup_add.mp nodup
  have apart : ∀ f ∈ used, f ∉ m.freelist := fun f hf free => Multiset.disjoint_left.mp apart free hf
  obtain ⟨r, m₀, setup, run⟩ := bind_ok.mp run
  cases r with
  | none => cases run
  | some d₀ =>
    obtain ⟨zero, kernel, -⟩ := (setupkvm_pays (A := 0) (X := 0) (E := fun _ => False)).ok (.refl ..) setup
    have taken := (setupkvm_respects allocates_takes).rel setup
    have first : (d₀.pte kernbase).Present := by
      have region : d₀.HasRegion ⟨kernbase, 0, extmem, pteW⟩ := kernel _ (by simp [kmap])
      have entry := region 0 (by decide)
      simp only [Nat.zero_mul, add_zero] at entry
      rw [entry]
      exact Pte.present_or _ _
    have old : ∀ va < kernbase, va % pgsize = 0 → va < sz → (pgdir.pte va).addr ∉ m.freelist :=
      fun va hva multiple low => apart _ (Multiset.mem_of_le own
        (PageDir.mem_frames hva (covers va multiple low)))
    obtain ⟨small, later, copies, same⟩ := copyuvmLoop_copies (Nat.zero_mod _) (Nat.zero_le _)
      (by unfold pgsize; omega) first (List.Nodup.sublist taken.1.sublist free)
      (fun va hva multiple low free => old va hva multiple low (taken.1.subset free)) run
    have user : ∀ va < sz, va < kernbase := fun va low => low.trans_le (small (by omega))
    refine ⟨⟨d₀, m₀, setup, fun va hva multiple high => ?_⟩, fun va low multiple => ⟨?_, ?_, ?_, ?_⟩,
      fun va hva multiple high => ?_, fun f hf => ?_⟩
    · exact same va hva multiple (.inr (not_lt.mp fun low => (user va low).not_ge high))
    · exact copies.flags va multiple (Nat.zero_le _) low
    · rw [copies.bytes va multiple (Nat.zero_le _) low, taken.2 _ (old va (user va low) multiple low)]
    · intro mem
      exact apart _ mem (taken.1.subset (copies.free va multiple (Nat.zero_le _) low))
    · intro vb low' multiple' ne
      rcases ne.lt_or_gt with lt | gt
      · exact copies.apart vb va multiple' multiple (Nat.zero_le _) lt low
      · exact (copies.apart va vb multiple multiple' (Nat.zero_le _) gt low').symm
    · rw [same va (hva.trans kernbase_lt) multiple (.inr high), zero va hva]
      exact Pte.not_present_zero
    · exact (Mem.takes.trans taken later).2 f (apart f hf)

theorem copyuvmLoop_room {k : Nat} : ∀ {rounds i : Nat} {d : PageDir},
    Triple (Mem.Room (d.missing + rounds) k) (copyuvmLoop pgdir sz rounds i d) (fun r _ => r ≠ none)
      fun _ => True
  | 0, i, d => .pure fun _ _ => nofun
  | rounds + 1, i, d => by
    rw [copyuvmLoop]
    refine .ite (fun _ => ?_) fun _ => .pure fun _ _ => nofun
    rw [walkpgdir_false, pure_bind]
    cases (pgdir.table (pdx i)).map fun t => t.entry (ptx i) with
    | none => exact vmHalt_stops fun _ _ => trivial
    | some e =>
      refine .ite (fun _ => vmHalt_stops fun _ _ => trivial) fun _ => ?_
      rw [← Nat.add_assoc]
      refine .bind kalloc_room fun r => .known fun found => ?_
      cases r with
      | none => exact absurd rfl found
      | some f =>
        refine .bind (Q := fun _ => Mem.Room (d.missing + rounds) k) (.modify fun m room => ?_)
          fun _ => .bind mappages_room fun r => .known fun zero => ?_
        · exact ⟨room.willing, room.free, room.missed⟩
        · obtain ⟨d', r⟩ := r
          have zero : r = 0 := zero
          exact .ite (fun failed => absurd failed (by omega)) fun _ => copyuvmLoop_room

/-- With enough pages `copyuvm` does not fail. -/
theorem copyuvm_returns {A : Multiset Nat} {k : Nat} (valid : s.AllFree A) (small : sz ≤ kernbase)
    (covers : pgdir.Covers sz) (room : s.Room (nptentries + (sz / pgsize + 1) + 1) k) :
    ∃ d t, (copyuvm pgdir sz).run s = .ok (some d, t) := by
  have some : Triple (Mem.Room (nptentries + (sz / pgsize + 1) + 1) k) (copyuvm pgdir sz)
      (fun r _ => r ≠ none) fun _ => True := by
    refine .bind setupkvm_room fun r => .at_state fun t post => ?_
    obtain ⟨d, rfl, room⟩ := post
    exact copyuvmLoop_room.pre fun u e => e ▸ room
  obtain ⟨r, t, run, -, found⟩ := (((copyuvm_pays (X := A) valid small).weaken fun _ gap =>
    absurd covers gap).both some).returns ⟨.refl .., room⟩
  cases r with
  | none => exact absurd rfl found
  | some d => exact ⟨d, t, run⟩

/-- The first process is copied. -/
theorem copyuvm_copies_first : ∃ (s : Machine) (pgdir d : PageDir) (t : Mem),
    (userinitCall []).run freshMachine = .ok ((), s) ∧ (pgdir.pte 0).Present ∧
    (copyuvm pgdir pgsize).run s.mem = .ok (some d, t) ∧ (d.pte 0).flags = (pgdir.pte 0).flags ∧
    t.page (d.pte 0).addr = s.mem.page (pgdir.pte 0).addr ∧ (d.pte 0).addr ∉ s.owned := by
  obtain ⟨s, boot, room⟩ := freshMachine_boots
  obtain ⟨⟨sound, p, runnable, size⟩, full⟩ := (userinitCall_sound freshMachine_fresh).ok rfl boot
  have live : (s.ptable p).state.Live := .inr (.inl runnable)
  obtain ⟨k, pgdir, lives⟩ := sound.lives p live.used
  have covers := full room.missed p k pgdir lives
  rw [size] at covers
  obtain ⟨d, t, run⟩ := copyuvm_returns sound.frees (by decide) covers (room.mono (by decide))
  have own : pgdir.frames ≤ s.owned := by
    rw [Machine.owned_lives lives]
    exact Multiset.le_add_right ..
  obtain ⟨flags, bytes, new, -⟩ := (copyuvm_copies sound.nodup own covers run).2.1 0 (by decide)
    (Nat.zero_mod _)
  exact ⟨s, pgdir, d, t, boot, covers 0 (Nat.zero_mod _) (by decide), run, flags, bytes, new⟩

end

end Xv6Gui
