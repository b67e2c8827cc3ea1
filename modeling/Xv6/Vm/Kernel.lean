/-
# The kernel's use of pages

What the system calls do with pages: `fork`, `growproc`, `exit` and `wait` of `proc.c`, `exec` of
`exec.c`, `pipealloc` and `pipeclose` of `pipe.c` with the end of `sys_pipe`, and the part of
`main` that hands pages to the allocator and takes the first ones from it. A call runs to its end
before the next one begins.

`exec` gets the file that `namei` finds, or none; the calls of the file system around the reads are
left out. Its arguments are the strings in the memory of the process.

A pipe is its page and which of its ends are open. Whether `filealloc` and `fdalloc` find an entry
is left open, and an end is closed once, by the last `fileclose` of its file. Of `struct proc` the
fields are those that these calls read or that `exec` must leave alone when it fails; `fork` hands
back the entry of the child in place of its `pid`. `wait` hands back the entry that it freed, and
none where the source returns -1 or sleeps.
-/
import Xv6.Proc.Table
import Xv6.Vm.Calls

namespace Xv6.Vm

open Lib Ptable

/-! ## State -/

/-- `struct trapframe`: the registers that `exec` sets. -/
structure Trapframe where
  eip : ℕ
  esp : ℕ

/-- `struct proc`. -/
structure Proc where
  state : ProcState
  sz : ℕ
  /-- The page of the directory. -/
  pgdir : ℕ
  /-- The page of the kernel stack, 0 if there is none. -/
  kstack : ℕ
  parent : Option Slot
  tf : Trapframe
  name : List UInt8

/-- `struct pipe`, by its page. -/
structure Pipe where
  page : ℕ
  readopen : Bool
  writeopen : Bool

/-- Memory and everything that points to pages. -/
structure Kernel where
  phys : Phys
  proc : Slot → Proc
  initproc : Slot
  kpgdir : ℕ
  /-- The stacks on which the other processors started. -/
  bootStacks : List ℕ
  pipes : List Pipe

/-- Run a function of `vm.c` or `kalloc.c`. -/
def onPhys {α : Type} (m : Prog Phys α) : Prog Kernel α :=
  Prog.zoom Kernel.phys (fun k s => { k with phys := s }) m

/-- Store to fields of a process. -/
def setProc (p : Slot) (f : Proc → Proc) : Prog Kernel Unit :=
  modify fun k => { k with proc := Function.update k.proc p (f (k.proc p)) }

/-! ## fork, growproc, exit and wait -/

/-- `allocproc`. -/
def allocproc : Prog Kernel (Option Slot) := do
  let k ← get
  match (List.finRange NPROC).find? fun p => (k.proc p).state = .UNUSED with
  | none => pure none
  | some p => do
    setProc p fun q => { q with state := .EMBRYO }
    match ← onPhys kalloc with
    | none => do
      setProc p fun q => { q with kstack := 0, state := .UNUSED }
      pure none
    | some n => do
      setProc p fun q => { q with kstack := n }
      pure (some p)

/-- `fork`, by the process `cur`. -/
def fork (L : Layout) (cur : Slot) : Prog Kernel (Option Slot) := do
  match ← allocproc with
  | none => pure none
  | some np => do
    let k ← get
    match ← onPhys (copyuvm L (k.proc cur).pgdir (k.proc cur).sz) with
    | none => do
      onPhys (kfree L (k.proc np).kstack)
      setProc np fun q => { q with pgdir := 0, kstack := 0, state := .UNUSED }
      pure none
    | some d => do
      setProc np fun q =>
        { q with
          pgdir := d
          sz := (k.proc cur).sz
          parent := some cur
          tf := (k.proc cur).tf
          name := safestrcpy (k.proc cur).name 16
          state := .RUNNABLE }
      pure (some np)

/-- `growproc(n)`, by the process `cur`. -/
def growproc (L : Layout) (cur : Slot) (n : Int32) : Prog Kernel ℤ := do
  let k ← get
  let sz := (k.proc cur).sz
  let newsz := (((sz : ℤ) + n.toInt) % 2 ^ 32).toNat
  if n.toInt > 0 then do
    if newsz > KERNBASE then pure (-1)
    else do
      let r ← onPhys (allocuvm L (k.proc cur).pgdir sz newsz)
      if r = 0 then pure (-1)
      else do
        setProc cur fun q => { q with sz := r }
        pure 0
  else if n.toInt < 0 then do
    let r ← onPhys (deallocuvm L (k.proc cur).pgdir sz newsz)
    if r = 0 then pure (-1)
    else do
      setProc cur fun q => { q with sz := r }
      pure 0
  else pure 0

/-- `exit`, by the process `cur`, behind the loop that closes its files. -/
def exit (cur : Slot) : Prog Kernel Unit := do
  let k ← get
  if cur = k.initproc then Prog.panic "init exiting"
  else do
    modify fun k =>
      { k with
        proc := fun p =>
          if (k.proc p).parent = some cur then { k.proc p with parent := some k.initproc }
          else k.proc p }
    setProc cur fun q => { q with state := .ZOMBIE }

/-- The scan of `wait`, by the process `cur`: the first exited child is freed. -/
def wait (L : Layout) (cur : Slot) : Prog Kernel (Option Slot) := do
  let k ← get
  match (List.finRange NPROC).find? fun p =>
      (k.proc p).parent = some cur ∧ (k.proc p).state = .ZOMBIE with
  | none => pure none
  | some p => do
    onPhys (kfree L (k.proc p).kstack)
    onPhys (freevm L (k.proc p).pgdir)
    setProc p fun q => { q with kstack := 0, parent := none, name := [], state := .UNUSED }
    pure (some p)

/-! ## exec -/

/-- `ELF_MAGIC`. -/
def ELF_MAGIC : ℕ := 0x464C457F

/-- `ELF_PROG_LOAD`. -/
def ELF_PROG_LOAD : ℕ := 1

/-- `MAXARG`. -/
def MAXARG : ℕ := 32

/-- `sizeof(struct elfhdr)`. -/
def elfhdrSize : ℕ := 52

/-- `sizeof(struct proghdr)`. -/
def proghdrSize : ℕ := 32

/-- The little-endian number of `w` bytes at `off` in the file. -/
def File.getLE (f : File) (off w : ℕ) : ℕ :=
  Buf.getLE (fun i : Fin w => f.data (off + i)) 0 w

/-- The fields of `struct elfhdr` that `exec` reads. -/
structure Elfhdr where
  magic : ℕ
  entry : ℕ
  phoff : ℕ
  phnum : ℕ

/-- The header at the start of the file. -/
def File.elfhdr (f : File) : Elfhdr where
  magic := f.getLE 0 4
  entry := f.getLE 24 4
  phoff := f.getLE 28 4
  phnum := f.getLE 44 2

/-- The fields of `struct proghdr` that `exec` reads. -/
structure Proghdr where
  type : ℕ
  off : ℕ
  vaddr : ℕ
  filesz : ℕ
  memsz : ℕ

/-- The program header at `off`. -/
def File.proghdr (f : File) (off : ℕ) : Proghdr where
  type := f.getLE off 4
  off := f.getLE (off + 4) 4
  vaddr := f.getLE (off + 8) 4
  filesz := f.getLE (off + 16) 4
  memsz := f.getLE (off + 20) 4

/-- The loop of `exec` over the program headers, with `k` of them to go: the size of the program,
or none for `goto bad`. -/
def loadSegments (L : Layout) (pgdir : ℕ) (ip : File) : ℕ → ℕ → ℕ → Prog Phys (Option ℕ)
  | 0, _, sz => pure (some sz)
  | k + 1, off, sz => do
    if ip.readi off proghdrSize ≠ proghdrSize then pure none
    else do
      let ph := ip.proghdr off
      if ph.type ≠ ELF_PROG_LOAD then loadSegments L pgdir ip k ((off + proghdrSize) % 2 ^ 32) sz
      else if ph.memsz < ph.filesz then pure none
      else if (ph.vaddr + ph.memsz) % 2 ^ 32 < ph.vaddr then pure none
      else do
        let sz ← allocuvm L pgdir sz ((ph.vaddr + ph.memsz) % 2 ^ 32)
        if sz = 0 then pure none
        else if ph.vaddr % PGSIZE ≠ 0 then pure none
        else do
          let r ← loaduvm pgdir ph.vaddr ip ph.off ph.filesz
          if r < 0 then pure none
          else loadSegments L pgdir ip k ((off + proghdrSize) % 2 ^ 32) sz

/-- `sp - n`, of unsigned numbers. -/
def subSp (sp n : ℕ) : ℕ := (sp + (2 ^ 32 - n % 2 ^ 32)) % 2 ^ 32

/-- The loop of `exec` that pushes the argument strings: the stack pointer and the pointers to the
strings, or none for `goto bad`. -/
def pushArgs (cur pgdir : ℕ) : List (List UInt8) → ℕ → ℕ → List ℕ → Prog Phys (Option (ℕ × List ℕ))
  | [], _, sp, ustack => pure (some (sp, ustack))
  | arg :: argv, argc, sp, ustack => do
    if argc ≥ MAXARG then pure none
    else do
      let sp := subSp sp (arg.length + 1) / 4 * 4
      let r ← copyout cur pgdir sp (arg ++ [0])
      if r < 0 then pure none
      else pushArgs cur pgdir argv (argc + 1) sp (ustack ++ [sp])

/-- The bytes of an array of `uint`. -/
def wordBytes (ws : List ℕ) : List UInt8 :=
  ws.flatMap fun w => (List.range 4).map (leByte w)

/-- The name of the program: what is behind the last `/` of the path. -/
def lastElem (path : List UInt8) : List UInt8 :=
  path.foldl (fun last c => if c = 47 then [] else last ++ [c]) []

/-- `goto bad` with a page directory. -/
def bad (L : Layout) (pgdir : ℕ) : Prog Kernel ℤ := do
  onPhys (freevm L pgdir)
  pure (-1)

/-- The rest of `exec` once the program is loaded: the stack, the arguments and the commit. -/
def execStack (L : Layout) (p : Slot) (ip : File) (path : List UInt8) (argv : List (List UInt8))
    (pgdir sz : ℕ) : Prog Kernel ℤ := do
  let k ← get
  let cur := (k.proc p).pgdir
  let sz := PGROUNDUP sz
  let sz ← onPhys (allocuvm L pgdir sz (sz + 2 * PGSIZE))
  if sz = 0 then bad L pgdir
  else do
    onPhys (clearpteu pgdir (sz - 2 * PGSIZE))
    match ← onPhys (pushArgs cur pgdir argv 0 sz []) with
    | none => bad L pgdir
    | some (sp, ptrs) => do
      let argc := argv.length
      let ustack := [0xffffffff, argc, subSp sp ((argc + 1) * 4)] ++ ptrs ++ [0]
      let sp := subSp sp ((3 + argc + 1) * 4)
      let r ← onPhys (copyout cur pgdir sp (wordBytes ustack))
      if r < 0 then bad L pgdir
      else do
        setProc p fun q =>
          { q with
            name := safestrcpy (lastElem path) 16
            pgdir := pgdir
            sz := sz
            tf := ⟨ip.elfhdr.entry, sp⟩ }
        onPhys (freevm L cur)
        pure 0

/-- `exec(path, argv)`, by the process `p`, with the file that `path` names. -/
def exec (L : Layout) (p : Slot) (file : Option File) (path : List UInt8)
    (argv : List (List UInt8)) : Prog Kernel ℤ := do
  match file with
  | none => pure (-1)
  | some ip =>
    if ip.readi 0 elfhdrSize ≠ elfhdrSize then pure (-1)
    else if ip.elfhdr.magic ≠ ELF_MAGIC then pure (-1)
    else
      match ← onPhys (setupkvm L) with
      | none => pure (-1)
      | some pgdir => do
        match ← onPhys (loadSegments L pgdir ip ip.elfhdr.phnum ip.elfhdr.phoff 0) with
        | none => bad L pgdir
        | some sz => execStack L p ip path argv pgdir sz

/-! ## Pipes -/

/-- `pipeclose(p, writable)`, of the pipe in page `n`. -/
def pipeclose (L : Layout) (n : ℕ) (writable : Bool) : Prog Kernel Unit := do
  let k ← get
  match k.pipes.find? fun q => q.page = n with
  | none => pure ()
  | some q =>
    let q' : Pipe := if writable then { q with writeopen := false } else
      { q with readopen := false }
    if !q'.readopen && !q'.writeopen then do
      onPhys (kfree L n)
      modify fun k => { k with pipes := k.pipes.eraseP fun q => q.page = n }
    else
      modify fun k => { k with pipes := k.pipes.map fun q => if q.page = n then q' else q }

/-- `sys_pipe`, where `filealloc` finds two entries if `files` and `fdalloc` two descriptors if
`fds`. -/
def sysPipe (L : Layout) (files fds : Bool) : Prog Kernel ℤ := do
  if !files then pure (-1)
  else
    match ← onPhys kalloc with
    | none => pure (-1)
    | some n => do
      modify fun k => { k with pipes := ⟨n, true, true⟩ :: k.pipes }
      if fds then pure 0
      else do
        pipeclose L n false
        pipeclose L n true
        pure (-1)

/-! ## User code -/

/-- `w & PTE_W`. -/
def writable (w : UInt32) : Bool := w &&& 2 != 0

/-- A store of the user code of `p`: the processor lets it through if the entry has the bits for
it. -/
def userStore (p : Slot) (va : ℕ) (b : UInt8) : Prog Kernel Unit :=
  modify fun k =>
    let w := pte k.phys.mem (k.proc p).pgdir (va / PGSIZE)
    if present w && user w && writable w then
      { k with
        phys :=
          { k.phys with
            mem := Function.update k.phys.mem (ppn w)
              ((k.phys.mem (ppn w)).overlay (va % PGSIZE) 1 fun _ => b) } }
    else k

/-! ## Boot -/

/-- Memory before `main`, with nothing on the free list yet. -/
def start (mem : ℕ → Page) : Kernel where
  phys := { mem := mem, freelist := 0, denied := fun _ => false, asked := 0 }
  proc := fun _ => ⟨.UNUSED, 0, 0, 0, none, ⟨0, 0⟩, []⟩
  initproc := 0
  kpgdir := 0
  bootStacks := []
  pipes := []

/-- `startothers`: a stack for each of the `n` other processors. -/
def startothers (n : ℕ) : Prog Kernel Unit :=
  (List.range n).forM fun _ => do
    match ← onPhys kalloc with
    | none => Prog.panic "trap"
    | some stack => modify fun k => { k with bootStacks := k.bootStacks ++ [stack] }

/-- `userinit`, with the bytes of `initcode`. -/
def userinit (L : Layout) (initcode : List UInt8) : Prog Kernel Unit := do
  match ← allocproc with
  | none => Prog.panic "trap"
  | some p => do
    modify fun k => { k with initproc := p }
    match ← onPhys (setupkvm L) with
    | none => Prog.panic "userinit: out of memory?"
    | some d => do
      onPhys (inituvm d initcode)
      setProc p fun q =>
        { q with
          pgdir := d
          sz := PGSIZE
          tf := ⟨0, PGSIZE⟩
          name := [105, 110, 105, 116, 99, 111, 100, 101]
          state := .RUNNABLE }

/-- What `main` does with pages: `kinit1`, `kvmalloc`, `startothers`, `kinit2` and `userinit`, on a
machine with `ncpu` other processors. -/
def main (L : Layout) (ncpu : ℕ) (initcode : List UInt8) : Prog Kernel Unit := do
  onPhys (freerange L L.first (0x400 - L.first))
  match ← onPhys (setupkvm L) with
  | none => Prog.panic "trap"
  | some d => do
    modify fun k => { k with kpgdir := d }
    startothers ncpu
    onPhys (freerange L 0x400 (PHYSTOP / PGSIZE - 0x400))
    userinit L initcode

end Xv6.Vm
