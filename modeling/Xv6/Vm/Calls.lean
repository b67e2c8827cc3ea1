/-
# The functions of vm.c

`walkpgdir`, `mappages`, `setupkvm`, `inituvm`, `loaduvm`, `allocuvm`, `deallocuvm`, `freevm`,
`clearpteu`, `copyuvm`, `uva2ka` and `copyout`.

A page directory is the number of its page, and a null pointer `none`; an entry is the pair of the
page table and the index. Addresses and sizes are numbers below 2^32, and where the source can wrap
around, so does the model. `int` results are 0 and -1 as in the source.

`readi` copies from a regular file, given by its size and its bytes; the bounds checks are those of
`fs.c`. `uva2ka` uses the entry that `walkpgdir` returns without looking whether there is one. The
load from address 0 that this can come to goes through the page table in use, that of the calling
process `cur`, and traps where nothing is mapped there.

Left out are the messages that `allocuvm` prints, and `switchuvm`, `switchkvm` and `seginit`, which
load registers of the processor.
-/
import Xv6.Vm.Space

namespace Xv6.Vm

open Lib

/-- `PDX(va)`; addresses are below 2^32. -/
def pdx (va : ℕ) : ℕ := va / 2 ^ 22

/-- `PTX(va)`. -/
def ptx (va : ℕ) : ℕ := va / 2 ^ 12 % NPDENTRIES

/-- `walkpgdir(pgdir, va, alloc)`. -/
def walkpgdir (pgdir va : ℕ) (alloc : Bool) : Prog Phys (Option (ℕ × ℕ)) := do
  let pde ← getWord pgdir (pdx va)
  if present pde then pure (some (ppn pde, ptx va))
  else if !alloc then pure none
  else
    match ← kalloc with
    | none => pure none
    | some pgtab => do
      memset pgtab 0
      putWord pgdir (pdx va) (mkPte (pgtab * PGSIZE) (PTE_W ||| PTE_U))
      pure (some (pgtab, ptx va))

/-- The loop of `mappages` from the page `a`, with `k` rounds to go after this one. -/
def mapLoop (pgdir perm : ℕ) (k a pa : ℕ) : Prog Phys ℤ := do
  match ← walkpgdir pgdir a true with
  | none => pure (-1)
  | some (pgtab, i) => do
    let w ← getWord pgtab i
    if present w then Prog.panic "remap"
    else do
      putWord pgtab i (mkPte pa perm)
      match k with
      | 0 => pure 0
      | k + 1 => mapLoop pgdir perm k ((a + PGSIZE) % 2 ^ 32) ((pa + PGSIZE) % 2 ^ 32)

/-- `mappages(pgdir, va, size, pa, perm)`. The loop ends in the round in which `a` is `last`. -/
def mappages (pgdir va size pa perm : ℕ) : Prog Phys ℤ :=
  let a := PGROUNDDOWN va
  let last := PGROUNDDOWN ((va + size + (2 ^ 32 - 1)) % 2 ^ 32)
  mapLoop pgdir perm ((last + 2 ^ 32 - a) % 2 ^ 32 / PGSIZE) a pa

/-- The loop of `deallocuvm`. Where there is no page table, it goes on behind the addresses that
the table would map. -/
def deallocLoop (L : Layout) (pgdir oldsz a : ℕ) : Prog Phys Unit := do
  if a < oldsz then
    match ← walkpgdir pgdir a false with
    | none => deallocLoop L pgdir oldsz ((pdx a + 1) * 2 ^ 22)
    | some (pgtab, i) => do
      let w ← getWord pgtab i
      if present w then do
        if ppn w = 0 then Prog.panic "kfree"
        else do
          kfree L (ppn w)
          putWord pgtab i 0
          deallocLoop L pgdir oldsz (a + PGSIZE)
      else deallocLoop L pgdir oldsz (a + PGSIZE)
  else pure ()
termination_by oldsz - a
decreasing_by
  all_goals simp only [pdx, PGSIZE]; omega

/-- `deallocuvm(pgdir, oldsz, newsz)`. -/
def deallocuvm (L : Layout) (pgdir oldsz newsz : ℕ) : Prog Phys ℕ := do
  if newsz ≥ oldsz then pure oldsz
  else do
    deallocLoop L pgdir oldsz (PGROUNDUP newsz)
    pure newsz

/-- `freevm(pgdir)`. -/
def freevm (L : Layout) (pgdir : ℕ) : Prog Phys Unit := do
  let _ ← deallocuvm L pgdir KERNBASE 0
  (List.range NPDENTRIES).forM fun i => do
    let w ← getWord pgdir i
    if present w then kfree L (ppn w) else pure ()
  kfree L pgdir

/-- An entry of `kmap`. -/
structure Kmap where
  virt : ℕ
  phys_start : ℕ
  phys_end : ℕ
  perm : ℕ

/-- `kmap`: I/O space, kernel text, kernel data and memory, and devices. -/
def kmap (L : Layout) : List Kmap :=
  [⟨KERNBASE, 0, EXTMEM, PTE_W⟩,
    ⟨KERNBASE + EXTMEM, EXTMEM, L.data * PGSIZE, 0⟩,
    ⟨KERNBASE + L.data * PGSIZE, L.data * PGSIZE, PHYSTOP, PTE_W⟩,
    ⟨DEVSPACE, DEVSPACE, 0, PTE_W⟩]

/-- The loop of `setupkvm`. -/
def kmapLoop (L : Layout) (pgdir : ℕ) : List Kmap → Prog Phys (Option ℕ)
  | [] => pure (some pgdir)
  | k :: ks => do
    let r ← mappages pgdir k.virt ((k.phys_end + 2 ^ 32 - k.phys_start) % 2 ^ 32)
      k.phys_start k.perm
    if r < 0 then do
      freevm L pgdir
      pure none
    else kmapLoop L pgdir ks

/-- `setupkvm`. -/
def setupkvm (L : Layout) : Prog Phys (Option ℕ) := do
  match ← kalloc with
  | none => pure none
  | some pgdir => do
    memset pgdir 0
    if KERNBASE + PHYSTOP > DEVSPACE then Prog.panic "PHYSTOP too high"
    else kmapLoop L pgdir (kmap L)

/-- `inituvm(pgdir, init, sz)`. Its caller has memory enough. -/
def inituvm (pgdir : ℕ) (init : List UInt8) : Prog Phys Unit := do
  if init.length ≥ PGSIZE then Prog.panic "inituvm: more than a page"
  else
    match ← kalloc with
    | none => Prog.panic "trap"
    | some mem => do
      memset mem 0
      let _ ← mappages pgdir 0 PGSIZE (mem * PGSIZE) (PTE_W ||| PTE_U)
      let s ← get
      setPage mem ((s.mem mem).overlay 0 init.length fun i => init.getD i 0)

/-- The loop of `allocuvm`. -/
def allocLoop (L : Layout) (pgdir oldsz newsz a : ℕ) : Prog Phys ℕ := do
  if a < newsz then
    match ← kalloc with
    | none => do
      let _ ← deallocuvm L pgdir newsz oldsz
      pure 0
    | some mem => do
      memset mem 0
      let r ← mappages pgdir a PGSIZE (mem * PGSIZE) (PTE_W ||| PTE_U)
      if r < 0 then do
        let _ ← deallocuvm L pgdir newsz oldsz
        kfree L mem
        pure 0
      else allocLoop L pgdir oldsz newsz (a + PGSIZE)
  else pure newsz
termination_by newsz - a
decreasing_by simp only [PGSIZE]; omega

/-- `allocuvm(pgdir, oldsz, newsz)`. -/
def allocuvm (L : Layout) (pgdir oldsz newsz : ℕ) : Prog Phys ℕ :=
  if newsz ≥ KERNBASE then pure 0
  else if newsz < oldsz then pure oldsz
  else allocLoop L pgdir oldsz newsz (PGROUNDUP oldsz)

/-- `clearpteu(pgdir, uva)`. -/
def clearpteu (pgdir uva : ℕ) : Prog Phys Unit := do
  match ← walkpgdir pgdir uva false with
  | none => Prog.panic "clearpteu"
  | some (pgtab, i) => do
    let w ← getWord pgtab i
    putWord pgtab i (clearU w)

/-- The loop of `copyuvm`. -/
def copyLoop (L : Layout) (pgdir sz d i : ℕ) : Prog Phys (Option ℕ) := do
  if i < sz then
    match ← walkpgdir pgdir i false with
    | none => Prog.panic "copyuvm: pte should exist"
    | some (pgtab, j) => do
      let w ← getWord pgtab j
      if !present w then Prog.panic "copyuvm: page not present"
      else
        match ← kalloc with
        | none => do
          freevm L d
          pure none
        | some mem => do
          let s ← get
          setPage mem (s.mem (ppn w))
          let r ← mappages d i PGSIZE (mem * PGSIZE) (flags w)
          if r < 0 then do
            kfree L mem
            freevm L d
            pure none
          else copyLoop L pgdir sz d (i + PGSIZE)
  else pure (some d)
termination_by sz - i
decreasing_by simp only [PGSIZE]; omega

/-- `copyuvm(pgdir, sz)`. -/
def copyuvm (L : Layout) (pgdir sz : ℕ) : Prog Phys (Option ℕ) := do
  match ← setupkvm L with
  | none => pure none
  | some d => copyLoop L pgdir sz d 0

/-- A regular file. -/
structure File where
  /-- `ip->size`. -/
  size : ℕ
  /-- The bytes. -/
  data : ℕ → UInt8

/-- The number of bytes that `readi(ip, dst, off, n)` copies, or -1. -/
def File.readi (f : File) (off n : ℕ) : ℤ :=
  if off > f.size ∨ (off + n) % 2 ^ 32 < off then -1
  else if (off + n) % 2 ^ 32 > f.size then (f.size - off : ℕ)
  else n

/-- The loop of `loaduvm`. -/
def loadLoop (pgdir addr : ℕ) (ip : File) (offset sz i : ℕ) : Prog Phys ℤ := do
  if i < sz then
    match ← walkpgdir pgdir ((addr + i) % 2 ^ 32) false with
    | none => Prog.panic "loaduvm: address should exist"
    | some (pgtab, j) => do
      let w ← getWord pgtab j
      let n := if sz - i < PGSIZE then sz - i else PGSIZE
      let off := (offset + i) % 2 ^ 32
      let r := ip.readi off n
      let s ← get
      setPage (ppn w) ((s.mem (ppn w)).overlay 0 r.toNat fun k => ip.data (off + k))
      if r ≠ n then pure (-1)
      else loadLoop pgdir addr ip offset sz (i + PGSIZE)
  else pure 0
termination_by sz - i
decreasing_by simp only [PGSIZE]; omega

/-- `loaduvm(pgdir, addr, ip, offset, sz)`. -/
def loaduvm (pgdir addr : ℕ) (ip : File) (offset sz : ℕ) : Prog Phys ℤ :=
  if addr % PGSIZE ≠ 0 then Prog.panic "loaduvm: addr must be page aligned"
  else loadLoop pgdir addr ip offset sz 0

/-- `uva2ka(pgdir, uva)`, in a system call of the process with the directory `cur`. -/
def uva2ka (cur pgdir uva : ℕ) : Prog Phys (Option ℕ) := do
  let s ← get
  match ← walkpgdir pgdir uva false with
  | none =>
    -- `*pte` with `pte` null: the word at address 0 of the running process
    match target (pte s.mem cur 0) with
    | none => Prog.panic "trap"
    | some n =>
      let w := word s.mem n 0
      pure (if !present w then none else if !user w then none else some (ppn w))
  | some (pgtab, i) => do
    let w ← getWord pgtab i
    pure (if !present w then none else if !user w then none else some (ppn w))

/-- `copyout(pgdir, va, p, len)`, of the bytes `buf`. -/
def copyout (cur pgdir va : ℕ) (buf : List UInt8) : Prog Phys ℤ := do
  if buf.length > 0 then do
    let va0 := PGROUNDDOWN va
    match ← uva2ka cur pgdir va0 with
    | none => pure (-1)
    | some pa0 => do
      let n := min (PGSIZE - (va - va0)) buf.length
      let s ← get
      setPage pa0 ((s.mem pa0).overlay (va - va0) n fun k => buf.getD k 0)
      copyout cur pgdir ((va0 + PGSIZE) % 2 ^ 32) (buf.drop n)
  else pure 0
termination_by buf.length
decreasing_by
  simp only [List.length_drop, PGROUNDDOWN, PGSIZE]
  omega

end Xv6.Vm
