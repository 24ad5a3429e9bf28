import Mathlib.Algebra.Order.Ring.Nat

/-!
# Physical pages and page tables

`kalloc.c` and the user part of `vm.c`.  An address is a number below `2 ^ 32`, and arithmetic on
addresses is modulo `2 ^ 32`.  A physical page is given by its number, so `pa` stands for the address
`pa * PGSIZE`.

A page directory is the value of its entries and of the tables they point to.  Next to the entries
stand the numbers of the pages that hold the directory and the tables, because these pages come from
`kalloc` and go back to `kfree`.  The pages of users are in `Mem.page`.  A store through a wrong
pointer would change a directory that the model has as a value, so such a store is not made: the code
stops there, with a `Cause` of its own.

`kalloc` returns null when no page is free, and whenever `Mem.refuse` says so, because other
processors take and give back pages between two calls.
-/

namespace Xv6Gui

/-! ## Addresses -/

/-- `PGSIZE`. -/
def pgsize : Nat := 4096

/-- `NPTENTRIES` and `NPDENTRIES`. -/
def nptentries : Nat := 1024

/-- `KERNBASE`. -/
def kernbase : Nat := 0x80000000

/-- `EXTMEM`. -/
def extmem : Nat := 0x100000

/-- `KERNLINK`. -/
def kernlink : Nat := kernbase + extmem

/-- `PHYSTOP`. -/
def phystop : Nat := 0xE000000

/-- `DEVSPACE`. -/
def devspace : Nat := 0xF9000000

/-- Arithmetic of `uint`. -/
def wrap (n : Nat) : Nat := n % 2 ^ 32

/-- `PGROUNDUP`. -/
def pgroundup (sz : Nat) : Nat := wrap (sz + pgsize - 1) / pgsize * pgsize

/-- `PGROUNDDOWN`. -/
def pgrounddown (a : Nat) : Nat := a / pgsize * pgsize

/-- `PDX`. -/
def pdx (va : Nat) : Fin nptentries := ⟨va / 2 ^ 22 % nptentries, Nat.mod_lt _ (by decide)⟩

/-- `PTX`. -/
def ptx (va : Nat) : Fin nptentries := ⟨va / 2 ^ 12 % nptentries, Nat.mod_lt _ (by decide)⟩

/-! ## Page tables -/

/-- The flags of an entry. -/
abbrev Flags := BitVec 12

/-- `PTE_P`. -/
def pteP : Flags := 0x001

/-- `PTE_W`. -/
def pteW : Flags := 0x002

/-- `PTE_U`. -/
def pteU : Flags := 0x004

/-- An entry of a page table: `PTE_ADDR`, as the number of a page, and `PTE_FLAGS`. -/
structure Pte where
  addr : Nat
  flags : Flags
deriving DecidableEq

namespace Pte

/-- An entry that is not in use. -/
def zero : Pte := ⟨0, 0⟩

/-- `PTE_P` is set. -/
def Present (e : Pte) : Prop := e.flags &&& pteP ≠ 0
  deriving Decidable

/-- `PTE_U` is set. -/
def User (e : Pte) : Prop := e.flags &&& pteU ≠ 0
  deriving Decidable

end Pte

/-- A page table and the page it is in. -/
structure PageTable where
  frame : Nat
  entry : Fin nptentries → Pte

/-- A page directory and the page it is in.  An entry that is present points to a table, and its
flags are always `PTE_P | PTE_W | PTE_U`. -/
structure PageDir where
  frame : Nat
  table : Fin nptentries → Option PageTable

namespace PageDir

/-- Store a table. -/
def setTable (d : PageDir) (i : Fin nptentries) (t : PageTable) : PageDir :=
  { d with table := Function.update d.table i (some t) }

/-- `*pte = e`, for the entry of an address in a table that is there. -/
def store (d : PageDir) (va : Nat) (e : Pte) : PageDir :=
  match d.table (pdx va) with
  | none => d
  | some t => d.setTable (pdx va) { t with entry := Function.update t.entry (ptx va) e }

end PageDir

/-! ## Physical memory -/

/-- The data of a page. -/
abbrev Page := Fin pgsize → UInt8

/-- The addresses the linker chooses. -/
structure KernelImage where
  /-- `data`: the end of the text of the kernel. -/
  data : Nat
  /-- `end`: the end of the kernel. -/
  stop : Nat
  data_aligned : data % pgsize = 0
  kernlink_lt : kernlink < data
  data_lt : data < kernbase + phystop
  data_le : data ≤ stop

/-- The pages and `kmem`. -/
structure Mem where
  image : KernelImage
  freelist : List Nat
  page : Nat → Page
  /-- The answers of `kalloc` that are null whatever `freelist` is. -/
  refuse : List Bool
  /-- How often there was no page for a page table.  No code reads it. -/
  missed : Nat

/-- Why a call stops. -/
inductive Cause where
  | panic (message : String)
  /-- `uva2ka` reads through a null pointer. -/
  | nullPte
  /-- `loaduvm` stores into a page that is not a page of the user. -/
  | stray
deriving DecidableEq

/-- The kernel stops, after `missed` failures to allocate a page table. -/
structure VmHalt where
  cause : Cause
  missed : Nat

/-- Code of `vm.c`. -/
abbrev VmM := StateT Mem (Except VmHalt)

/-- A call stops. -/
def vmHalt {α : Type} (cause : Cause) : VmM α := do
  throw ⟨cause, (← get).missed⟩

/-- `kalloc`, which may refuse. -/
def kalloc : VmM (Option Nat) := do
  let m ← get
  let refused := m.refuse.head? = some true
  set { m with
    refuse := m.refuse.tail
    freelist := if refused then m.freelist else m.freelist.tail }
  return if refused then none else m.freelist.head?

/-- `memset` of a page. -/
def memsetPage (frame : Nat) (c : UInt8) : VmM Unit :=
  modify fun m => { m with page := Function.update m.page frame fun _ => c }

/-- A page that `kfree` takes. -/
def KernelImage.Frees (k : KernelImage) (frame : Nat) : Prop :=
  k.stop ≤ kernbase + frame * pgsize ∧ frame * pgsize < phystop
  deriving Decidable

/-- `kfree`. -/
def kfree (frame : Nat) : VmM Unit := do
  if (← get).image.Frees frame then
    memsetPage frame 1
    modify fun m => { m with freelist := frame :: m.freelist }
  else
    vmHalt (.panic "kfree")

/-! ## `vm.c` -/

/-- `walkpgdir`.  It returns the directory, in which a table may be new, and what the entry it
points to holds. -/
def walkpgdir (d : PageDir) (va : Nat) (alloc : Bool) : VmM (PageDir × Option Pte) :=
  match d.table (pdx va) with
  | some t => return (d, some (t.entry (ptx va)))
  | none =>
    if alloc then do
      match ← kalloc with
      | none =>
        modify fun m => { m with missed := m.missed + 1 }
        return (d, none)
      | some pgtab =>
        memsetPage pgtab 0
        return (d.setTable (pdx va) ⟨pgtab, fun _ => .zero⟩, some .zero)
    else
      return (d, none)

/-- The loop of `mappages` from the page at `a` on, with the number of pages behind it. -/
def mappagesLoop (perm : Flags) : Nat → PageDir → Nat → Nat → VmM (PageDir × Int)
  | n, d, a, pa => do
    let (d, pte) ← walkpgdir d a true
    match pte with
    | none => return (d, -1)
    | some e =>
      if e.Present then
        vmHalt (.panic "remap")
      else
        let d := d.store a ⟨pa, perm ||| pteP⟩
        match n with
        | 0 => return (d, 0)
        | n + 1 => mappagesLoop perm n d (wrap (a + pgsize)) (pa + 1)

/-- `mappages`. -/
def mappages (d : PageDir) (va size pa : Nat) (perm : Flags) : VmM (PageDir × Int) :=
  let a := pgrounddown va
  let last := pgrounddown (wrap (va + size + 2 ^ 32 - 1))
  mappagesLoop perm (wrap (last + 2 ^ 32 - a) / pgsize) d a pa

/-- `struct kmap`. -/
structure Kmap where
  virt : Nat
  physStart : Nat
  physEnd : Nat
  perm : Flags

/-- `kmap`. -/
def kmap (k : KernelImage) : List Kmap :=
  [⟨kernbase, 0, extmem, pteW⟩,
    ⟨kernlink, kernlink - kernbase, k.data - kernbase, 0⟩,
    ⟨k.data, k.data - kernbase, phystop, pteW⟩,
    ⟨devspace, devspace, 0, pteW⟩]

/-- The loop of `setupkvm`. -/
def setupkvmLoop : List Kmap → PageDir → VmM (Option PageDir)
  | [], d => return some d
  | k :: ks, d => do
    let (d, r) ← mappages d k.virt (wrap (k.physEnd + 2 ^ 32 - k.physStart))
      (k.physStart / pgsize) k.perm
    if r < 0 then return none else setupkvmLoop ks d

/-- `setupkvm`. -/
def setupkvm : VmM (Option PageDir) := do
  match ← kalloc with
  | none => return none
  | some pgdir =>
    memsetPage pgdir 0
    if kernbase + phystop > devspace then
      vmHalt (.panic "PHYSTOP too high")
    else
      setupkvmLoop (kmap (← get).image) ⟨pgdir, fun _ => none⟩

/-- The loop of `deallocuvm`, with a bound for its rounds. -/
def deallocuvmLoop (oldsz : Nat) : Nat → Nat → PageDir → VmM PageDir
  | 0, _, d => return d
  | rounds + 1, a, d =>
    if a < oldsz then do
      let (_, pte) ← walkpgdir d a false
      match pte with
      | none =>
        deallocuvmLoop oldsz rounds (wrap (a + (nptentries - 1) * pgsize + pgsize)) d
      | some e =>
        if e.Present then
          if e.addr = 0 then
            vmHalt (.panic "kfree")
          else do
            kfree e.addr
            deallocuvmLoop oldsz rounds (wrap (a + pgsize)) (d.store a .zero)
        else
          deallocuvmLoop oldsz rounds (wrap (a + pgsize)) d
    else
      return d

/-- `deallocuvm`. -/
def deallocuvm (d : PageDir) (oldsz newsz : Nat) : VmM (PageDir × Nat) :=
  if newsz ≥ oldsz then
    return (d, oldsz)
  else do
    let d ← deallocuvmLoop oldsz (oldsz / pgsize + 1) (pgroundup newsz) d
    return (d, newsz)

/-- The loop of `allocuvm`, with a bound for its rounds. -/
def allocuvmLoop (oldsz newsz : Nat) : Nat → Nat → PageDir → VmM (PageDir × Nat)
  | 0, _, d => return (d, newsz)
  | rounds + 1, a, d =>
    if a < newsz then do
      match ← kalloc with
      | none =>
        let (d, _) ← deallocuvm d newsz oldsz
        return (d, 0)
      | some mem =>
        memsetPage mem 0
        let (d, _) ← mappages d a pgsize mem (pteW ||| pteU)
        allocuvmLoop oldsz newsz rounds (wrap (a + pgsize)) d
    else
      return (d, newsz)

/-- `allocuvm`. -/
def allocuvm (d : PageDir) (oldsz newsz : Nat) : VmM (PageDir × Nat) :=
  if newsz ≥ kernbase then
    return (d, 0)
  else if newsz < oldsz then
    return (d, oldsz)
  else
    allocuvmLoop oldsz newsz (newsz / pgsize + 1) (pgroundup oldsz) d

/-- The entries of a directory, in the order of the loop of `freevm`.  The list is not unfolded in
proofs. -/
@[irreducible] def directoryEntries : List (Fin nptentries) := List.finRange nptentries

/-- `freevm` for one entry of the directory. -/
def freeTable : Option PageTable → VmM Unit
  | some t => kfree t.frame
  | none => return

/-- `freevm`, for a directory that is not null. -/
def freevm (d : PageDir) : VmM Unit := do
  let (d, _) ← deallocuvm d kernbase 0
  directoryEntries.forM fun i => freeTable (d.table i)
  kfree d.frame

/-- `clearpteu`. -/
def clearpteu (d : PageDir) (uva : Nat) : VmM PageDir := do
  let (_, pte) ← walkpgdir d uva false
  match pte with
  | none => vmHalt (.panic "clearpteu")
  | some e => return d.store uva { e with flags := e.flags &&& ~~~pteU }

/-- The loop of `copyuvm`, with a bound for its rounds. -/
def copyuvmLoop (pgdir : PageDir) (sz : Nat) : Nat → Nat → PageDir → VmM (Option PageDir)
  | 0, _, d => return some d
  | rounds + 1, i, d =>
    if i < sz then do
      let (_, pte) ← walkpgdir pgdir i false
      match pte with
      | none => vmHalt (.panic "copyuvm: pte should exist")
      | some e =>
        if ¬ e.Present then
          vmHalt (.panic "copyuvm: page not present")
        else do
          match ← kalloc with
          | none =>
            freevm d
            return none
          | some mem =>
            modify fun m => { m with page := Function.update m.page mem (m.page e.addr) }
            let (d, r) ← mappages d i pgsize mem e.flags
            if r < 0 then do
              freevm d
              return none
            else
              copyuvmLoop pgdir sz rounds (wrap (i + pgsize)) d
    else
      return some d

/-- `copyuvm`. -/
def copyuvm (pgdir : PageDir) (sz : Nat) : VmM (Option PageDir) := do
  match ← setupkvm with
  | none => return none
  | some d => copyuvmLoop pgdir sz (sz / pgsize + 1) 0 d

/-- `memmove` of some bytes to a place in a page. -/
def memmovePage (frame off : Nat) (bytes : List UInt8) : VmM Unit :=
  modify fun m => { m with page := Function.update m.page frame fun i =>
    if off ≤ i ∧ i < off + bytes.length then bytes.getD (i - off) 0 else m.page frame i }

/-- `uva2ka`. -/
def uva2ka (d : PageDir) (uva : Nat) : VmM (Option Nat) := do
  let (_, pte) ← walkpgdir d uva false
  match pte with
  | none => vmHalt .nullPte
  | some e =>
    if ¬ e.Present then return none
    else if ¬ e.User then return none
    else return some e.addr

/-- The loop of `copyout`, with a bound for its rounds. -/
def copyoutLoop (d : PageDir) : Nat → Nat → List UInt8 → VmM Int
  | 0, _, _ => return 0
  | rounds + 1, va, buf =>
    if buf = [] then
      return 0
    else do
      let va0 := pgrounddown va
      match ← uva2ka d va0 with
      | none => return -1
      | some pa0 => do
        let n := min (pgsize - (va - va0)) buf.length
        memmovePage pa0 (va - va0) (buf.take n)
        copyoutLoop d rounds (wrap (va0 + pgsize)) (buf.drop n)

/-- `copyout`. -/
def copyout (d : PageDir) (va : Nat) (p : List UInt8) : VmM Int := copyoutLoop d p.length va p

/-- What `readi` returns for a file with some bytes. -/
def readFile (file : List UInt8) (off n : Nat) : Option (List UInt8) :=
  if off ≤ file.length ∧ off + n < 2 ^ 32 then some ((file.drop off).take n) else none

/-- The loop of `loaduvm`, with a bound for its rounds. -/
def loaduvmLoop (d : PageDir) (addr : Nat) (file : List UInt8) (offset sz : Nat) :
    Nat → Nat → VmM Int
  | 0, _ => return 0
  | rounds + 1, i =>
    if i < sz then do
      let va := wrap (addr + i)
      let (_, pte) ← walkpgdir d va false
      match pte with
      | none => vmHalt (.panic "loaduvm: address should exist")
      | some e =>
        let n := if sz - i < pgsize then sz - i else pgsize
        match readFile file (wrap (offset + i)) n with
        | none => return -1
        | some bytes =>
          if bytes ≠ [] ∧ ¬ (va < kernbase ∧ e.Present) then
            vmHalt .stray
          else do
            memmovePage e.addr 0 bytes
            if bytes.length ≠ n then
              return -1
            else
              loaduvmLoop d addr file offset sz rounds (i + pgsize)
    else
      return 0

/-- `loaduvm`. -/
def loaduvm (d : PageDir) (addr : Nat) (file : List UInt8) (offset sz : Nat) : VmM Int :=
  if addr % pgsize ≠ 0 then
    vmHalt (.panic "loaduvm: addr must be page aligned")
  else
    loaduvmLoop d addr file offset sz (sz / pgsize + 1) 0

end Xv6Gui
