/-
# Physical memory and its allocator

`kalloc`, `kfree` and `freerange` of `kalloc.c`. Memory is its pages by physical page number, each
with its 4096 bytes; a kernel pointer to a page is the page's address above `KERNBASE`. The free
list runs through the pages themselves: the first word of a free page is the pointer to the next
one.

`kalloc` may also be told to find nothing (`denied`), as it does when another processor has taken
the last page.

`Free` says which pages are on the list. That depends on their own contents only (`Free.congr`), and
they determine the list (`Free.unique`).
-/
import Xv6.Lib.Bytes
import Xv6.Lib.Prog

namespace Xv6.Vm

open Lib List

/-- `PGSIZE`. -/
def PGSIZE : ℕ := 4096

/-- `KERNBASE`: the first kernel virtual address. -/
def KERNBASE : ℕ := 0x80000000

/-- `EXTMEM`: the start of extended memory. -/
def EXTMEM : ℕ := 0x100000

/-- `PHYSTOP`: the top of physical memory. -/
def PHYSTOP : ℕ := 0xE000000

/-- `DEVSPACE`: devices are at high addresses. -/
def DEVSPACE : ℕ := 0xFE000000

/-- `PGROUNDUP(a)`, for `a` not too close to the end of the address space. -/
def PGROUNDUP (a : ℕ) : ℕ := (a + (PGSIZE - 1)) / PGSIZE * PGSIZE

/-- `PGROUNDDOWN(a)`. -/
def PGROUNDDOWN (a : ℕ) : ℕ := a / PGSIZE * PGSIZE

/-- What the linker decides: the physical addresses of `data`, which `kernel.ld` puts at a page
boundary behind the text, and of `end`. The image leaves room for some page tables below 2 MB. -/
structure Layout where
  /-- `V2P(data) / PGSIZE`. -/
  data : ℕ
  /-- `V2P(end)`. -/
  «end» : ℕ
  data_gt : EXTMEM / PGSIZE < data
  data_le : data * PGSIZE ≤ «end»
  end_le : «end» ≤ 0x1E0000

/-- The first page behind the kernel. -/
def Layout.first (L : Layout) : ℕ := PGROUNDUP L.end / PGSIZE

/-- The contents of a page. -/
abbrev Page := Buf PGSIZE

/-- Physical memory and `kmem`. -/
structure Phys where
  /-- The pages by number. -/
  mem : ℕ → Page
  /-- `kmem.freelist`. -/
  freelist : UInt32
  /-- The calls of `kalloc` that find nothing, whatever the list holds. -/
  denied : ℕ → Bool
  /-- The number of calls of `kalloc` so far. -/
  asked : ℕ

/-- The kernel's pointer to page `n`, `P2V(n * PGSIZE)`. -/
def kva (n : ℕ) : UInt32 := UInt32.ofNat (KERNBASE + n * PGSIZE)

/-- The page that a kernel pointer is to. -/
def pageOf (v : UInt32) : ℕ := (v.toNat - KERNBASE) / PGSIZE

/-- The word `i` of page `n`. -/
def word (mem : ℕ → Page) (n i : ℕ) : UInt32 := (mem n).getU32 (4 * i)

/-- Load a word. -/
def getWord (n i : ℕ) : Prog Phys UInt32 := do
  let s ← get
  pure (word s.mem n i)

/-- Replace the contents of a page. -/
def setPage (n : ℕ) (b : Page) : Prog Phys Unit :=
  modify fun s => { s with mem := Function.update s.mem n b }

/-- Store a word. -/
def putWord (n i : ℕ) (w : UInt32) : Prog Phys Unit := do
  let s ← get
  setPage n ((s.mem n).putU32 (4 * i) w)

/-- `memset(v, c, PGSIZE)`. -/
def memset (n : ℕ) (c : UInt8) : Prog Phys Unit := setPage n fun _ => c

/-- `kalloc`. -/
def kalloc : Prog Phys (Option ℕ) := do
  let s ← get
  set { s with asked := s.asked + 1 }
  if s.denied s.asked then pure none
  else if s.freelist = 0 then pure none
  else do
    let r := pageOf s.freelist
    let next ← getWord r 0
    modify fun s => { s with freelist := next }
    pure (some r)

/-- `kfree`, of the page `n`. -/
def kfree (L : Layout) (n : ℕ) : Prog Phys Unit := do
  if n * PGSIZE < L.end ∨ PHYSTOP ≤ n * PGSIZE then Prog.panic "kfree"
  memset n 1
  let s ← get
  putWord n 0 s.freelist
  modify fun s => { s with freelist := kva n }

/-- `freerange`, over `k` pages from page `n`. -/
def freerange (L : Layout) (n k : ℕ) : Prog Phys Unit :=
  (range' n k).forM (kfree L)

/-! ## The free list -/

/-- The list that starts at the pointer `head` has the pages `l`. -/
def Free (mem : ℕ → Page) : UInt32 → List ℕ → Prop
  | head, [] => head = 0
  | head, n :: l => head = kva n ∧ Free mem (word mem n 0) l

/-- A page that the allocator was given at boot. -/
def Layout.Ram (L : Layout) (n : ℕ) : Prop := L.first ≤ n ∧ n < PHYSTOP / PGSIZE

variable {n : ℕ}

theorem Layout.Ram.lt {L : Layout} (h : L.Ram n) : n < 0xE000 := h.2

theorem toNat_kva (h : n < 0xE000) : (kva n).toNat = KERNBASE + n * PGSIZE := by
  rw [kva, UInt32.toNat_ofNat']
  exact Nat.mod_eq_of_lt (by simp only [KERNBASE, PGSIZE]; omega)

theorem pageOf_kva (h : n < 0xE000) : pageOf (kva n) = n := by
  rw [pageOf, toNat_kva h, Nat.add_sub_cancel_left, Nat.mul_div_cancel n (by decide)]

theorem kva_ne_zero (h : n < 0xE000) : kva n ≠ 0 := by
  intro h0
  have := toNat_kva h
  rw [h0] at this
  simp only [UInt32.toNat_zero, KERNBASE] at this
  omega

/-- The list depends on its own pages only. -/
theorem Free.congr {mem mem' : ℕ → Page} : ∀ {l : List ℕ} {head : UInt32},
    Free mem head l → (∀ n ∈ l, mem' n = mem n) → Free mem' head l
  | [], _, h, _ => h
  | n :: l, _, h, heq => by
    refine ⟨h.1, ?_⟩
    rw [word, heq n mem_cons_self]
    exact h.2.congr fun m hm => heq m (mem_cons_of_mem n hm)

/-- The list is determined by memory. -/
theorem Free.unique {mem : ℕ → Page} : ∀ {l l' : List ℕ} {head : UInt32},
    Free mem head l → Free mem head l' → (∀ n ∈ l, n < 0xE000) → (∀ n ∈ l', n < 0xE000) → l = l'
  | [], [], _, _, _, _, _ => rfl
  | [], n :: _, _, h, h', _, hn => by
    rw [show _ = (0 : UInt32) from h] at h'
    exact absurd h'.1.symm (kva_ne_zero (hn n mem_cons_self))
  | n :: _, [], _, h, h', hn, _ => by
    rw [show _ = (0 : UInt32) from h'] at h
    exact absurd h.1.symm (kva_ne_zero (hn n mem_cons_self))
  | n :: l, n' :: l', _, h, h', hn, hn' => by
    have hkva : kva n = kva n' := h.1.symm.trans h'.1
    have heq : n = n' := by
      rw [← pageOf_kva (hn n mem_cons_self), hkva, pageOf_kva (hn' n' mem_cons_self)]
    subst heq
    rw [h.2.unique h'.2 (fun m hm => hn m (mem_cons_of_mem n hm))
      fun m hm => hn' m (mem_cons_of_mem n hm)]

/-- Page `n` is on the free list, which has pages of physical memory only. -/
def Phys.IsFree (s : Phys) (n : ℕ) : Prop :=
  ∃ l, Free s.mem s.freelist l ∧ (∀ m ∈ l, m < PHYSTOP / PGSIZE) ∧ n ∈ l

end Xv6.Vm
