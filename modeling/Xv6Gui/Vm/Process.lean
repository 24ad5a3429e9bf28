import Xv6Gui.Proc.Table
import Xv6Gui.Vm.PageTable

/-!
# The memory of processes

`exec.c`, and `fork`, `growproc`, `exit`, `wait` and `userinit` of `proc.c`, as far as they deal with
memory.  A call is one step.  It is made by any process that is live, so the scheduler is left out,
and what the other processors do to `kmem` meanwhile is in `Mem.refuse`.  Open files, directories,
channels and the other registers of the trap frame are left out, and `exec` is given the bytes of the
file that `namei` finds.

A directory is a value, so a call that changes the directory of a process stores it again.
-/

namespace Xv6Gui

/-! ## Program files -/

/-- A byte of a structure that was read. -/
def byteAt (b : List UInt8) (i : Nat) : Nat := (b.getD i 0).toNat

/-- A `ushort` of a file. -/
def ushortAt (b : List UInt8) (i : Nat) : Nat := byteAt b i + 2 ^ 8 * byteAt b (i + 1)

/-- A `uint` of a file. -/
def uintAt (b : List UInt8) (i : Nat) : Nat := ushortAt b i + 2 ^ 16 * ushortAt b (i + 2)

/-- `struct elfhdr`, as far as `exec` reads it. -/
structure Elfhdr where
  magic : Nat
  entry : Nat
  phoff : Nat
  phnum : Nat

/-- `sizeof(struct elfhdr)`. -/
def sizeofElfhdr : Nat := 52

/-- The header in some bytes. -/
def Elfhdr.ofBytes (b : List UInt8) : Elfhdr :=
  ⟨uintAt b 0, uintAt b 24, uintAt b 28, ushortAt b 44⟩

/-- `struct proghdr`, as far as `exec` reads it. -/
structure Proghdr where
  type : Nat
  off : Nat
  vaddr : Nat
  filesz : Nat
  memsz : Nat
deriving DecidableEq

/-- `sizeof(struct proghdr)`. -/
def sizeofProghdr : Nat := 32

/-- The header in some bytes. -/
def Proghdr.ofBytes (b : List UInt8) : Proghdr :=
  ⟨uintAt b 0, uintAt b 4, uintAt b 8, uintAt b 16, uintAt b 20⟩

/-- `ELF_MAGIC`. -/
def elfMagic : Nat := 0x464C457F

/-- `ELF_PROG_LOAD`. -/
def elfProgLoad : Nat := 1

/-- `MAXARG`. -/
def maxarg : Nat := 32

/-! ## `exec` -/

/-- The loop over the program headers, with the number of those that are left.  `none` stands for
`goto bad`. -/
def execHeaders (file : List UInt8) : Nat → Nat → PageDir → Nat → VmM (PageDir × Option Nat)
  | 0, _, d, sz => return (d, some sz)
  | n + 1, off, d, sz => do
    let bytes := (readFile file off sizeofProghdr).getD []
    if bytes.length ≠ sizeofProghdr then
      return (d, none)
    else
      let ph := Proghdr.ofBytes bytes
      if ph.type ≠ elfProgLoad then
        execHeaders file n (wrap (off + sizeofProghdr)) d sz
      else if ph.memsz < ph.filesz then
        return (d, none)
      else do
        let (d, sz) ← allocuvm d sz (wrap (ph.vaddr + ph.memsz))
        if sz = 0 then
          return (d, none)
        else do
          let r ← loaduvm d ph.vaddr file ph.off ph.filesz
          if r < 0 then
            return (d, none)
          else
            execHeaders file n (wrap (off + sizeofProghdr)) d sz

/-- The loop that pushes the argument strings.  It returns the stack pointer and the pointers to the
strings. -/
def execArgs (d : PageDir) : List (List UInt8) → Nat → List Nat → VmM (Option (Nat × List Nat))
  | [], sp, argv => return some (sp, argv)
  | s :: ss, sp, argv =>
    if argv.length ≥ maxarg then
      return none
    else do
      let sp := wrap (sp + 2 ^ 32 - (s.length + 1)) / 4 * 4
      let r ← copyout d sp (s ++ [0])
      if r < 0 then return none else execArgs d ss sp (argv ++ [sp])

/-- A `uint` as bytes. -/
def uintBytes (n : Nat) : List UInt8 :=
  [.ofNat n, .ofNat (n / 2 ^ 8), .ofNat (n / 2 ^ 16), .ofNat (n / 2 ^ 24)]

/-- `ustack`, when `argc` strings are pushed and the stack pointer is `sp`. -/
def ustack (sp : Nat) (argv : List Nat) : List Nat :=
  [0xffffffff, argv.length, wrap (sp + 2 ^ 32 - (argv.length + 1) * 4)] ++ argv ++ [0]

/-- What `exec` installs. -/
structure Image where
  pgdir : PageDir
  sz : Nat
  entry : Nat
  sp : Nat

/-- The stack of the new image, from two pages at the next page boundary on. -/
def execStack (d : PageDir) (sz entry : Nat) (argv : List (List UInt8)) :
    VmM (PageDir × Option Image) := do
  let sz := pgroundup sz
  let (d, sz) ← allocuvm d sz (wrap (sz + 2 * pgsize))
  if sz = 0 then
    return (d, none)
  else do
    let d ← clearpteu d (wrap (sz + 2 ^ 32 - 2 * pgsize))
    match ← execArgs d argv sz [] with
    | none => return (d, none)
    | some (sp, pushed) => do
      let frame := ustack sp pushed
      let sp := wrap (sp + 2 ^ 32 - frame.length * 4)
      let r ← copyout d sp (frame.flatMap uintBytes)
      if r < 0 then
        return (d, none)
      else
        return (d, some ⟨d, sz, entry, sp⟩)

/-- `exec` from the first `readi` to the commit. -/
def execImage (file : List UInt8) (argv : List (List UInt8)) : VmM (Option Image) := do
  -- `readi` does not return -1 at offset 0, where the comparison with `sizeof` would not see it.
  let bytes := (readFile file 0 sizeofElfhdr).getD []
  let elf := Elfhdr.ofBytes bytes
  if bytes.length < sizeofElfhdr then
    return none
  else if elf.magic ≠ elfMagic then
    return none
  else
    match ← setupkvm with
    | none => return none
    | some d => do
      let (d, sz) ← execHeaders file elf.phnum elf.phoff d 0
      let (d, image) ← match sz with
        | none => pure (d, none)
        | some sz => execStack d sz elf.entry argv
      match image with
      | none => do
        freevm d
        return none
      | some image => return some image

/-! ## Processes -/

/-- `struct proc`, as far as memory is concerned. -/
structure VmProc where
  state : ProcState
  pid : Int
  parent : Option ProcPtr
  sz : Nat
  pgdir : Option PageDir
  kstack : Option Nat
  eip : Nat
  esp : Nat
  name : List UInt8

/-- Memory and processes. -/
structure Machine where
  mem : Mem
  ptable : ProcPtr → VmProc
  initproc : ProcPtr
  nextpid : Int

/-- Code that works on memory and processes. -/
abbrev MachineM := StateT Machine (Except VmHalt)

/-- A call of `vm.c`. -/
def onMem {α : Type} (x : VmM α) : MachineM α := fun s =>
  (x.run s.mem).map fun r => (r.1, { s with mem := r.2 })

/-- Change a process. -/
def setProc (p : ProcPtr) (f : VmProc → VmProc) : MachineM Unit :=
  modify fun s => { s with ptable := Function.update s.ptable p (f (s.ptable p)) }

/-- A directory that may be null: the first access to it would stop. -/
def needPgdir (pgdir : Option PageDir) (cause : Cause) : MachineM PageDir :=
  match pgdir with
  | some d => return d
  | none => onMem (vmHalt cause)

/-- What is behind the last `/` of a path. -/
def lastSegment (path : List UInt8) : List UInt8 :=
  (path.reverse.takeWhile (· ≠ slash)).reverse

/-- `exec` by process `p`, of the file that `namei` finds.  `safestrcpy` copies 15 bytes of the
name. -/
def execCall (p : ProcPtr) (path : List UInt8) (file : Option (List UInt8))
    (argv : List (List UInt8)) : MachineM Int := do
  match file with
  | none => return -1
  | some file =>
    match ← onMem (execImage file argv) with
    | none => return -1
    | some image => do
      let oldpgdir := ((← get).ptable p).pgdir
      setProc p fun e => { e with
        name := (lastSegment path).take 15
        pgdir := some image.pgdir
        sz := image.sz
        eip := image.entry
        esp := image.sp }
      onMem (freevm (← needPgdir oldpgdir (.panic "freevm: no pgdir")))
      return 0

/-- `allocproc`. -/
def allocprocCall : MachineM (Option ProcPtr) := do
  let s ← get
  match Kernel.entries.find? fun q => (s.ptable q).state = .unused with
  | none => return none
  | some np => do
    setProc np fun e => { e with state := .embryo, pid := s.nextpid }
    modify fun s => { s with nextpid := s.nextpid + 1 }
    let kstack ← onMem kalloc
    setProc np fun e => { e with kstack := kstack }
    match kstack with
    | none => do
      setProc np fun e => { e with state := .unused }
      return none
    | some _ => return some np

/-- `kfree` of a kernel stack, which is not null. -/
def kfreeStack : Option Nat → VmM Unit
  | some k => kfree k
  | none => vmHalt (.panic "kfree")

/-- `fork`. -/
def forkCall (p : ProcPtr) : MachineM Int := do
  match ← allocprocCall with
  | none => return -1
  | some np => do
    let proc := (← get).ptable p
    let pgdir ← onMem (copyuvm (← needPgdir proc.pgdir .nullPte) proc.sz)
    setProc np fun e => { e with pgdir := pgdir }
    let child := (← get).ptable np
    match pgdir with
    | none => do
      onMem (kfreeStack child.kstack)
      setProc np fun e => { e with kstack := none, state := .unused }
      return -1
    | some _ => do
      setProc np fun e => { e with
        sz := proc.sz
        parent := some p
        eip := proc.eip
        esp := proc.esp
        name := proc.name
        state := .runnable }
      return child.pid

/-- The `if` of `growproc`. -/
def growuvm (d : PageDir) (sz : Nat) (n : Int) : VmM (PageDir × Nat) :=
  let newsz := ((sz + n) % 2 ^ 32).toNat
  if n > 0 then allocuvm d sz newsz
  else if n < 0 then deallocuvm d sz newsz
  else return (d, sz)

/-- `growproc`. -/
def growprocCall (p : ProcPtr) (n : Int) : MachineM Int := do
  let proc := (← get).ptable p
  let (d, sz) ← onMem (growuvm (← needPgdir proc.pgdir .nullPte) proc.sz n)
  setProc p fun e => { e with pgdir := some d }
  if n ≠ 0 ∧ sz = 0 then
    return -1
  else do
    setProc p fun e => { e with sz := sz }
    return 0

/-- `p->parent == proc` becomes `p->parent = initproc`. -/
def Machine.reparent (s : Machine) (p : ProcPtr) : Machine :=
  { s with ptable := fun q =>
      let e := s.ptable q
      if e.parent = some p then { e with parent := some s.initproc } else e }

/-- `exit`. -/
def exitCall (p : ProcPtr) : MachineM Unit := do
  let s ← get
  if p = s.initproc then
    onMem (vmHalt (.panic "init exiting"))
  else do
    modify (·.reparent p)
    setProc p fun e => { e with state := .zombie }

/-- `wait` by process `p`, when it returns. -/
def waitCall (p : ProcPtr) : MachineM Int := do
  let s ← get
  match Kernel.entries.find? fun c =>
    (s.ptable c).parent = some p ∧ (s.ptable c).state = .zombie with
  | none => return -1
  | some c => do
    let child := s.ptable c
    onMem (kfreeStack child.kstack)
    onMem (freevm (← needPgdir child.pgdir (.panic "freevm: no pgdir")))
    setProc c fun e => { e with
      kstack := none, state := .unused, pid := 0, parent := none, name := [] }
    return child.pid

/-- `inituvm`, with the code of the first process. -/
def inituvm (d : PageDir) (init : List UInt8) : VmM PageDir := do
  if init.length ≥ pgsize then
    vmHalt (.panic "inituvm: more than a page")
  else
    match ← kalloc with
    | none => vmHalt .nullPte
    | some mem => do
      memsetPage mem 0
      let (d, _) ← mappages d 0 pgsize mem (pteW ||| pteU)
      memmovePage mem 0 init
      return d

/-- `userinit`. -/
def userinitCall (init : List UInt8) : MachineM Unit := do
  match ← allocprocCall with
  | none => onMem (vmHalt .nullPte)
  | some p => do
    modify fun s => { s with initproc := p }
    match ← onMem setupkvm with
    | none => onMem (vmHalt (.panic "userinit: out of memory?"))
    | some d => do
      let d ← onMem (inituvm d init)
      setProc p fun e => { e with
        pgdir := some d, sz := pgsize, esp := pgsize, eip := 0
        name := "initcode".toUTF8.toList, state := .runnable }

end Xv6Gui
