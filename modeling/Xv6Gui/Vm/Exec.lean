import Xv6Gui.Vm.Images
import Xv6Gui.Vm.Process

/-!
# The image `exec` builds

`exec` maps the segments and fills them, maps two pages for the stack, and pushes the arguments.  What
it stores goes into the address space it has mapped, if the segments start at a page and do not wrap
around (`Proghdr.Loadable`), if the strings are not so long that the stack pointer comes down to the
hole between the kernel and the devices (`Pushable`), and if there was a page for each page table.
Otherwise the kernel may stop.
-/

namespace Xv6Gui

open Effect

section

variable {d d' : PageDir} {a sz newsz : Nat} {image : KernelImage}
variable {m : Mem} {A X : Multiset Nat} {E : VmHalt → Prop}

variable {file : List UInt8}

/-! ## Stores into an address space

None of these functions calls `kalloc`, so what was missed before (`k` times) stays as it is. -/

variable {k : Nat}

/-- The pages are paid for, and `k` page tables were missed so far. -/
def Mem.PaysAt (m : Mem) (A : Multiset Nat) (X : Multiset Nat) (k : Nat) (s : Mem) : Prop :=
  m.Pays A s X ∧ s.missed = k

theorem memmovePage_paysAt (frame off : Nat) (bytes : List UInt8) :
    Triple (m.PaysAt A X k) (memmovePage frame off bytes) (fun _ => m.PaysAt A X k) E :=
  .modify fun _ h => ⟨h.1.same rfl rfl rfl, h.2⟩

/-- The pages that `loaduvm` fills are in an address space. -/
structure PageDir.Fits (d : PageDir) (addr sz : Nat) : Prop where
  aligned : addr % pgsize = 0
  user : addr + sz ≤ kernbase
  covers : d.Covers (addr + sz)

theorem loaduvmLoop_pays {addr offset n : Nat} :
    ∀ {rounds i : Nat}, i % pgsize = 0 →
      Triple (m.PaysAt A X k) (loaduvmLoop d addr file offset n rounds i) (fun _ => m.PaysAt A X k)
        fun e => e.missed = k ∧ ¬ d.Fits addr n
  | 0, i, _ => .pure fun s h => h
  | rounds + 1, i, aligned => by
    rw [loaduvmLoop]
    refine .ite (fun less => ?_) fun _ => .pure fun s h => h
    dsimp only
    rw [walkpgdir_false, pure_bind]
    -- With a page that is there, the two ways to stop are out of question.
    have there : d.Fits addr n → wrap (addr + i) < kernbase ∧ (d.pte (wrap (addr + i))).Present := by
      intro fits
      have user := fits.user
      have multiple := fits.aligned
      have low := kernbase_lt
      rw [wrap_of_lt (by omega)]
      refine ⟨by omega, fits.covers _ ?_ (by omega)⟩
      rw [Nat.add_mod, multiple, aligned, Nat.zero_mod]
    cases table : d.table (pdx (wrap (addr + i))) with
    | none =>
      refine vmHalt_stops fun s h => ⟨h.2, fun fits => ?_⟩
      have present := (there fits).2
      rw [PageDir.pte_none table] at present
      exact Pte.not_present_zero present
    | some t =>
      have entry := (PageDir.pte_eq table).symm
      simp only [Option.map_some, entry]
      cases readFile file (wrap (offset + i)) (if n - i < pgsize then n - i else pgsize) with
      | none => exact .pure fun s h => h
      | some bytes =>
        refine .ite (fun stray => vmHalt_stops fun s h => ⟨h.2, fun fits => ?_⟩) fun _ => ?_
        · exact stray.2 (there fits)
        refine .bind (memmovePage_paysAt _ _ _) fun _ => .ite (fun _ => .pure fun s h => h) fun _ => ?_
        exact loaduvmLoop_pays (by simpa using aligned)

theorem loaduvm_pays {addr offset n : Nat} :
    Triple (m.PaysAt A X k) (loaduvm d addr file offset n) (fun _ => m.PaysAt A X k)
      fun e => e.missed = k ∧ ¬ d.Fits addr n := by
  rw [loaduvm]
  exact .ite (fun odd => vmHalt_stops fun s h => ⟨h.2, fun fits => odd fits.aligned⟩) fun _ =>
    loaduvmLoop_pays (Nat.zero_mod _)

/-- `clearpteu` leaves each page where it is. -/
theorem clearpteu_pays {uva : Nat} (spans : d.Spans image sz) (user : uva < kernbase) :
    Triple (m.PaysAt A (d.frames + X) k) (clearpteu d uva) (fun d' s =>
      (d'.Spans image sz ∧ (d.Covers sz → d'.Covers sz)) ∧ m.PaysAt A (d'.frames + X) k s)
      fun e => e.missed = k ∧ d.table (pdx uva) = none := by
  rw [clearpteu, walkpgdir_false, pure_bind]
  cases table : d.table (pdx uva) with
  | none => exact vmHalt_stops fun s h => ⟨h.2, rfl⟩
  | some t =>
    have there : d.table (pdx uva) ≠ none := by simp [table]
    have entry := (PageDir.pte_eq table).symm
    simp only [Option.map_some, entry]
    refine .pure fun s h => ?_
    set e : Pte := { d.pte uva with flags := (d.pte uva).flags &&& ~~~pteU } with he
    have present : ∀ va, ((d.store uva e).pte va).Present ↔ (d.pte va).Present := by
      intro va
      rw [PageDir.pte_store there]
      split
      · rename_i same
        rw [← PageDir.pte_congr same]
        exact Pte.present_clear
      · rfl
    have frames : (d.store uva e).frames = d.frames := by
      have stored := PageDir.frames_store_user there user e
      have pages : e.pages = (d.pte uva).pages := by
        rw [Pte.pages, Pte.pages]
        exact if_congr Pte.present_clear rfl rfl
      rw [pages] at stored
      exact add_right_cancel stored
    refine ⟨⟨⟨spans.small, fun va multiple low high => ?_, spans.kernel.congr
      fun va hva multiple above => ?_⟩, fun covers va multiple low => ?_⟩, ?_⟩
    · rw [present]
      exact spans.absent va multiple low high
    · rw [PageDir.pte_store there, if_neg]
      rw [samePage_iff (user.trans kernbase_lt) hva]
      unfold kernbase pgsize at *
      omega
    · rw [present]
      exact covers va multiple low
    · rwa [frames]

/-- `uva2ka` stops if the table is missing. -/
theorem uva2ka_pays (uva : Nat) :
    Triple (m.PaysAt A X k) (uva2ka d uva) (fun _ => m.PaysAt A X k)
      fun e => e.missed = k ∧ d.table (pdx uva) = none := by
  rw [uva2ka, walkpgdir_false, pure_bind]
  cases table : d.table (pdx uva) with
  | none => exact vmHalt_stops fun s h => ⟨h.2, rfl⟩
  | some t =>
    exact .ite (fun _ => .pure fun s h => h) fun _ =>
      .ite (fun _ => .pure fun s h => h) fun _ => .pure fun s h => h

/-- `copyout` does not stop in an address space. -/
theorem copyoutLoop_pays (sz : Nat) : ∀ {rounds va : Nat} {buf : List UInt8},
    Triple (m.PaysAt A X k) (copyoutLoop d rounds va buf) (fun _ => m.PaysAt A X k)
      fun e => e.missed = k ∧ ¬ ((buf ≠ [] → va + buf.length ≤ sz) ∧ sz ≤ kernbase ∧ d.Covers sz)
  | 0, va, buf => .pure fun s h => h
  | rounds + 1, va, buf => by
    rw [copyoutLoop]
    refine .ite (fun _ => .pure fun s h => h) fun some => ?_
    have length : 0 < buf.length := List.length_pos_iff.mpr some
    have down : pgrounddown va ≤ va := Nat.div_mul_le_self va pgsize
    refine .bind ((uva2ka_pays _).weaken fun e stopped => ⟨stopped.1, fun ⟨fits, _, covers⟩ => ?_⟩)
      fun r => ?_
    · have fits := fits some
      exact covers.table (show pgrounddown va % pgsize = 0 from Nat.mul_mod_left ..) (by omega)
        stopped.2
    · cases r with
      | none => exact .pure fun s h => h
      | some frame =>
        refine .bind (memmovePage_paysAt _ _ _) fun _ => (copyoutLoop_pays sz).weaken fun e stopped => ?_
        refine ⟨stopped.1, fun ⟨fits, small, covers⟩ => stopped.2 ⟨fun rest => ?_, small, covers⟩⟩
        have fits := fits some
        have more : pgsize - (va - pgrounddown va) < buf.length := by
          by_contra all
          rw [min_eq_right (not_lt.mp all)] at rest
          exact rest List.drop_length
        rw [wrap_nextPage (by omega), List.length_drop, min_eq_left more.le]
        omega

/-- The devices are mapped for the kernel. -/
theorem PageDir.Kernel.device {va : Nat} (kernel : d.Kernel image) (multiple : va % pgsize = 0)
    (low : devspace ≤ va) (high : va < 2 ^ 32) : d.pte va = ⟨va / pgsize, pteW ||| pteP⟩ := by
  have region : d.HasRegion ⟨devspace, devspace, 0, pteW⟩ := kernel _ (by simp [kmap])
  have entry := region ((va - devspace) / pgsize) (by
    unfold devspace pgsize at *
    simp only [Kmap.size, wrap]
    omega)
  have address : devspace + (va - devspace) / pgsize * pgsize = va := by
    unfold devspace pgsize at *
    omega
  have page : devspace / pgsize + (va - devspace) / pgsize = va / pgsize := by
    unfold devspace pgsize at *
    omega
  simpa only [address, page] using entry

/-- Above the kernel, `copyout` finds no page of a user. -/
theorem copyout_device {va : Nat} {buf : List UInt8} (kernel : d.Kernel image) (some : buf ≠ [])
    (low : devspace ≤ va) (high : va < 2 ^ 32) : copyout d va buf = pure (-1) := by
  have entry : d.pte (pgrounddown va) = ⟨pgrounddown va / pgsize, pteW ||| pteP⟩ := by
    refine kernel.device (Nat.mul_mod_left ..) ?_ ?_
    · unfold pgrounddown devspace pgsize at *
      omega
    · unfold pgrounddown pgsize
      omega
  have none : uva2ka d (pgrounddown va) = pure none := by
    rw [uva2ka, walkpgdir_false, pure_bind]
    cases table : d.table (pdx (pgrounddown va)) with
    | none =>
      rw [PageDir.pte_none table] at entry
      have flags : (0 : Flags) = pteW ||| pteP := congrArg Pte.flags entry
      exact absurd flags (by decide)
    | some t =>
      have flags : (t.entry (ptx (pgrounddown va))).flags = pteW ||| pteP := by
        rw [← PageDir.pte_eq table, entry]
      have user : ¬ (t.entry (ptx (pgrounddown va))).User := by
        rw [Pte.User, flags]
        decide
      simp only [Option.map_some, user, not_false_eq_true, if_true, ite_self]
  obtain ⟨first, rest, rfl⟩ := List.exists_cons_of_ne_nil some
  rw [copyout, List.length_cons, copyoutLoop, if_neg some]
  dsimp only
  rw [none, pure_bind]

/-! ## `exec` -/

/-- The headers that `exec` reads, one after the other. -/
def headersFrom (file : List UInt8) : Nat → Nat → List Proghdr
  | 0, _ => []
  | n + 1, off =>
    let bytes := (readFile file off sizeofProghdr).getD []
    if bytes.length ≠ sizeofProghdr then []
    else Proghdr.ofBytes bytes :: headersFrom file n (wrap (off + sizeofProghdr))

/-- The program headers of a file. -/
def programHeaders (file : List UInt8) : List Proghdr :=
  let elf := Elfhdr.ofBytes ((readFile file 0 sizeofElfhdr).getD [])
  headersFrom file elf.phnum elf.phoff

/-- A segment starts at a page and ends before the end of the address space. -/
def Proghdr.Loadable (ph : Proghdr) : Prop :=
  ph.type = elfProgLoad → ph.filesz ≤ ph.memsz →
    ph.vaddr % pgsize = 0 ∧ ph.vaddr + ph.memsz < 2 ^ 32

/-- A string that stays above the hole between the kernel and the devices when it is pushed. -/
def Pushable (s : List UInt8) : Prop := s.length + 4 ≤ 2 ^ 32 - devspace

/-- An address space that is being built.  It is full if no page table was missed. -/
structure Mem.Builds (m : Mem) (A X : Multiset Nat) (d : PageDir) (sz : Nat) (s : Mem) : Prop where
  spans : d.Spans m.image sz
  pays : m.Pays A s (d.frames + X)
  covers : s.missed = m.missed → d.Covers sz

theorem Mem.PaysAt.builds {s t : Mem} (builds : m.Builds A X d sz s) (spans : d'.Spans m.image sz)
    (covers : d.Covers sz → d'.Covers sz) (h : m.PaysAt A (d'.frames + X) s.missed t) :
    m.Builds A X d' sz t :=
  ⟨spans, h.1, fun none => covers (builds.covers (h.2 ▸ none))⟩

/-- If the address space is not full, a page table was missed. -/
theorem Mem.Builds.missed_lt {s : Mem} (h : m.Builds A X d sz s) (gap : ¬ d.Covers sz) :
    m.missed < s.missed :=
  lt_of_le_of_ne h.pays.kept.later fun none => gap (h.covers none.symm)

theorem allocuvm_builds (valid : m.AllFree A) :
    Triple (m.Builds A X d sz) (allocuvm d sz newsz) (fun r s =>
      m.Pays A s (r.1.frames + X) ∧
        (r.2 ≠ 0 → r.2 = max sz newsz ∧ m.Builds A X r.1 r.2 s)) E := by
  refine .at_state fun s builds => ?_
  refine (allocuvm_pays (X := X) (builds.pays.allFree valid) builds.spans).conseq (fun t e => ?_)
    fun r t post => ⟨builds.pays.trans post.1, fun some => ?_⟩
  · subst e
    exact .refl ..
  · rcases post.2 with ⟨size, spans, full⟩ | ⟨zero, -⟩
    · refine ⟨size, spans, builds.pays.trans post.1, fun none => ?_⟩
      have first := builds.pays.kept.later
      have second := post.1.kept.later
      simp only [Mem.account] at first second
      exact (full (by omega)).2 (builds.covers (by omega))
    · exact absurd zero some

theorem execHeaders_pays (valid : m.AllFree A) :
    ∀ {n off : Nat} {d : PageDir} {sz : Nat},
      Triple (m.Builds A X d sz) (execHeaders file n off d sz) (fun r s =>
        m.Pays A s (r.1.frames + X) ∧ ∀ sz', r.2 = some sz' → m.Builds A X r.1 sz' s)
        fun e => (∀ ph ∈ headersFrom file n off, ph.Loadable) → m.missed < e.missed
  | 0, off, d, sz => by
    refine .pure fun s builds => ⟨builds.pays, fun sz' e => ?_⟩
    cases e
    exact builds
  | n + 1, off, d, sz => by
    rw [execHeaders, headersFrom]
    dsimp only
    refine .ite (fun short => .pure fun s builds => ⟨builds.pays, fun _ e => nomatch e⟩) fun read => ?_
    rw [if_neg read]
    refine .ite (fun _ => ?_) fun load => .ite (fun _ => ?_) fun sizes => ?_
    · exact (execHeaders_pays valid).weaken fun e missed all => missed fun ph hph =>
        all ph (.tail _ hph)
    · exact .pure fun s builds => ⟨builds.pays, fun _ e => nomatch e⟩
    · refine .bind (allocuvm_builds valid) fun r => ?_
      obtain ⟨d', sz'⟩ := r
      refine .ite (fun _ => .pure fun s post => ⟨post.1, fun _ e => nomatch e⟩) fun some => ?_
      refine .at_state fun s post => ?_
      obtain ⟨size, builds⟩ := post.2 some
      refine .bind (Q := fun _ => m.Builds A X d' sz') ?_ fun r => ?_
      · refine (loaduvm_pays.conseq (fun t (e : t = s) => ?_) fun _ t h => h.builds builds
          builds.spans id).weaken fun e stopped all => ?_
        · subst e
          exact ⟨builds.pays, rfl⟩
        · rw [stopped.1]
          refine builds.missed_lt fun covers => stopped.2 ?_
          obtain ⟨aligned, inside⟩ := all _ (.head _) (not_not.mp load) (not_lt.mp sizes)
          have small := builds.spans.small
          have size : sz' = max sz (wrap _) := size
          rw [wrap_of_lt inside] at size
          exact ⟨aligned, by omega, fun va multiple low => covers va multiple (by omega)⟩
      · refine .ite (fun _ => .pure fun t builds => ⟨builds.pays, fun _ e => nomatch e⟩) fun _ => ?_
        exact (execHeaders_pays valid).weaken fun e missed all => missed fun ph hph =>
          all ph (.tail _ hph)

/-! ## The stack -/

/-- The stack pointer and the arguments are in an address space. -/
structure PageDir.Takes (d : PageDir) (argv : List (List UInt8)) (sp sz : Nat) : Prop where
  short : ∀ s ∈ argv, Pushable s
  low : sp ≤ sz
  user : sz ≤ kernbase
  covers : d.Covers sz

/-- Bytes are pushed, in the address space or above the kernel. -/
theorem copyout_push {sp : Nat} {buf : List UInt8} (ok : Prop) (kernel : d.Kernel image)
    (some : buf ≠ []) (user : ok → sz ≤ kernbase ∧ d.Covers sz)
    (place : ok → sp + buf.length ≤ sz ∨ devspace ≤ sp ∧ sp < 2 ^ 32) :
    Triple (m.PaysAt A X k) (copyout d sp buf) (fun r s =>
      (0 ≤ r → ok → sp ≤ sz) ∧ m.PaysAt A X k s) fun e => e.missed = k ∧ ¬ ok := by
  by_cases h : ok
  · obtain ⟨small, covers⟩ := user h
    rcases place h with inside | ⟨low, high⟩
    · refine ((copyoutLoop_pays sz).post fun r s pays => ⟨fun _ _ => by omega, pays⟩).weaken
        fun e stopped => absurd ⟨fun _ => inside, small, covers⟩ stopped.2
    · rw [copyout_device kernel some low high]
      exact .pure fun s pays => ⟨fun done => absurd done (by decide), pays⟩
  · exact ((copyoutLoop_pays sz).post fun r s pays => ⟨fun _ done => absurd done h, pays⟩).weaken
      fun e stopped => ⟨stopped.1, h⟩

/-- `sp - n`. -/
theorem wrap_sub {sp n : Nat} (short : n ≤ 2 ^ 32) (low : sp ≤ kernbase) :
    wrap (sp + 2 ^ 32 - n) + n = sp ∨
      2 ^ 32 ≤ wrap (sp + 2 ^ 32 - n) + n ∧ wrap (sp + 2 ^ 32 - n) < 2 ^ 32 := by
  unfold wrap kernbase at *
  omega

theorem execArgs_pays (kernel : d.Kernel image) :
    ∀ {ss : List (List UInt8)} {sp : Nat} {argv : List Nat}, argv.length ≤ maxarg →
      Triple (m.PaysAt A X k) (execArgs d ss sp argv) (fun r s =>
        (∀ sp' argv', r = some (sp', argv') → argv'.length ≤ maxarg ∧ (d.Takes ss sp sz → sp' ≤ sz)) ∧
        m.PaysAt A X k s) fun e => e.missed = k ∧ ¬ d.Takes ss sp sz
  | [], sp, argv, few => by
    refine .pure fun s pays => ⟨fun sp' argv' e => ?_, pays⟩
    cases e
    exact ⟨few, PageDir.Takes.low⟩
  | s :: ss, sp, argv, few => by
    rw [execArgs]
    refine .ite (fun _ => .pure fun t pays => ⟨fun _ _ e => (nomatch e), pays⟩) fun more => ?_
    dsimp only
    refine .bind (copyout_push (d.Takes (s :: ss) sp sz) kernel (by simp)
      (fun takes => ⟨takes.user, takes.covers⟩) ?_) fun r => .known fun done => ?_
    · intro takes
      have short : s.length + 4 ≤ 2 ^ 32 - devspace := takes.short s (.head _)
      have low := takes.low
      have place := wrap_sub (n := s.length + 1) (by omega) (low.trans takes.user)
      rw [List.length_append, List.length_singleton]
      omega
    · refine .ite (fun _ => .pure fun t pays => ⟨fun _ _ e => (nomatch e), pays⟩) fun placed => ?_
      have next (takes : d.Takes (s :: ss) sp sz) :=
        PageDir.Takes.mk (fun s hs => takes.short s (.tail _ hs)) (done (by omega) takes) takes.user
          takes.covers
      refine ((execArgs_pays kernel ?_).post fun r t post => ⟨fun sp' argv' e => ?_, post.2⟩).weaken
        fun e stopped => ⟨stopped.1, fun takes => stopped.2 (next takes)⟩
      · rw [List.length_append, List.length_singleton]
        omega
      · obtain ⟨few, low⟩ := post.1 sp' argv' e
        exact ⟨few, fun takes => low (next takes)⟩

theorem ustack_bytes (sp : Nat) (argv : List Nat) :
    ((ustack sp argv).flatMap uintBytes).length = (argv.length + 4) * 4 := by
  simp [ustack, uintBytes, List.length_flatMap, Nat.add_mul]

-- Lean does not run `execStack` to see whether a triple about it is a function.
attribute [local irreducible] Triple

/-- The address space with the stack. -/
theorem execStack_pays {entry : Nat} {argv : List (List UInt8)} (valid : m.AllFree A) :
    Triple (m.Builds A X d sz) (execStack d sz entry argv) (fun r s =>
      m.Pays A s (r.1.frames + X) ∧
        ∀ im, r.2 = some im → im.pgdir = r.1 ∧ m.Builds A X im.pgdir im.sz s)
      fun e => (∀ s ∈ argv, Pushable s) → m.missed < e.missed := by
  rw [execStack]
  refine .at_state fun s builds => ?_
  have small := builds.spans.small
  have rounded : m.Builds A X d (pgroundup sz) s :=
    ⟨builds.spans.roundUp, builds.pays, fun none =>
      (PageDir.covers_pgroundup small).mpr (builds.covers none)⟩
  clear builds
  refine .bind ((allocuvm_builds valid).pre fun t e => e ▸ rounded) fun r => ?_
  obtain ⟨d, top⟩ := r
  refine .ite (fun _ => .pure fun s post => ⟨post.1, fun _ e => nomatch e⟩) fun some => ?_
  refine .at_state fun s post => ?_
  obtain ⟨size, builds⟩ : top = _ ∧ m.Builds A X d top s := post.2 some
  have up := pgroundup_aligned sz
  have under := pgroundup_le_kernbase small
  have user := builds.spans.small
  have stack : top = pgroundup sz + 2 * pgsize := by
    rw [size]
    unfold wrap
    unfold kernbase pgsize at *
    omega
  have guard : wrap (top + 2 ^ 32 - 2 * pgsize) = pgroundup sz := by
    rw [stack]
    unfold wrap
    unfold kernbase at *
    omega
  -- If the kernel stops from here on, some page of the address space is missing.
  have missed {ok : Prop} (h : (∀ s ∈ argv, Pushable s) → d.Covers top → ok) (e : VmHalt)
      (stopped : e.missed = s.missed ∧ ¬ ok) (short : ∀ s ∈ argv, Pushable s) :
      m.missed < e.missed := by
    rw [stopped.1]
    exact builds.missed_lt fun covers => stopped.2 (h short covers)
  have below : pgroundup sz < top := by
    unfold pgsize at stack
    omega
  rw [guard]
  refine .bind (((clearpteu_pays (m := m) (A := A) (X := X) builds.spans
    (below.trans_le user)).pre fun t e => ?_).weaken fun e stopped => missed (fun _ covers =>
      covers.table up below) e ⟨stopped.1, not_not.mpr stopped.2⟩) fun d' => .known fun ⟨spans', full⟩ => ?_
  · subst e
    exact ⟨builds.pays, rfl⟩
  refine .bind ((execArgs_pays spans'.kernel (Nat.zero_le _)).weaken fun e => missed
    (fun short covers => ⟨short, le_rfl, user, full covers⟩) e) fun r => .known fun pushed => ?_
  cases r with
  | none => exact .pure fun t pays => ⟨pays.1, fun _ e => nomatch e⟩
  | some r =>
    obtain ⟨sp, strings⟩ := r
    obtain ⟨few, low⟩ := pushed sp strings rfl
    have few : strings.length ≤ 32 := few
    refine .bind ((copyout_push ((∀ s ∈ argv, Pushable s) ∧ d.Covers top) spans'.kernel ?_
      (fun ok => ⟨user, full ok.2⟩) ?_).weaken fun e => missed (fun short covers => ⟨short, covers⟩) e)
        fun r => .ite (fun _ => .pure fun t post => ⟨post.2.1, fun _ e => nomatch e⟩) fun _ =>
          .pure fun t post => ⟨post.2.1, fun im e => ?_⟩
    · exact List.ne_nil_of_length_pos (by rw [ustack_bytes]; omega)
    · rintro ⟨short, covers⟩
      have low := low ⟨short, le_rfl, user, full covers⟩
      have place := wrap_sub (n := (strings.length + 4) * 4) (by omega) (low.trans user)
      have frame : (ustack sp strings).length = strings.length + 4 := by simp [ustack]
      rw [ustack_bytes, frame]
      unfold devspace
      omega
    · cases e
      exact ⟨rfl, post.2.builds builds spans' full⟩

/-- `exec` before the commit. -/
theorem execImage_pays {argv : List (List UInt8)} (valid : m.AllFree A) :
    Triple (m.Pays A · X) (execImage file argv) (fun r s =>
      match r with
      | none => m.Pays A s X
      | some im => m.Builds A X im.pgdir im.sz s)
      fun e => (∀ ph ∈ programHeaders file, ph.Loadable) → (∀ s ∈ argv, Pushable s) →
        m.missed < e.missed := by
  rw [execImage]
  dsimp only
  refine .ite (fun _ => .pure fun s pays => pays) fun _ => .ite (fun _ => .pure fun s pays => pays)
    fun _ => ?_
  refine .bind setupkvm_pays fun r => ?_
  cases r with
  | none => exact .pure fun s pays => pays
  | some d =>
    refine .known fun zero => .known fun kernel => ?_
    refine .bind (((execHeaders_pays valid).pre fun s pays =>
      ⟨.of_zero zero kernel, pays, fun _ va _ low => ?_⟩).weaken
        fun e missed loadable _ => missed loadable) fun r => ?_
    · exact absurd low (Nat.not_lt_zero va)
    obtain ⟨d, sz⟩ := r
    cases sz with
    | none =>
      rw [pure_bind]
      exact .bind ((freevm_pays valid).pre fun s post => post.1) fun _ => .pure fun s pays => pays
    | some sz =>
      refine .bind (((execStack_pays valid).pre fun s post => post.2 sz rfl).weaken
        fun e missed _ short => missed short) fun r => ?_
      obtain ⟨d, im⟩ := r
      cases im with
      | none =>
        exact .bind ((freevm_pays valid).pre fun s post => post.1) fun _ => .pure fun s pays => pays
      | some im => exact .pure fun s post => (post.2 im rfl).2

end

end Xv6Gui
