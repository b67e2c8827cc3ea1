/-
# Who owns which page

Every page that the allocator was given at boot is on the free list, belongs to an address space, is
a kernel stack or holds a pipe. `Inv` says that for the whole kernel: the pages of the spaces
(`Kernel.spaces`), the other pages in use (`Kernel.held`) and the free ones are all of them, each
once. It also says that no space has a user page above `KERNBASE` and none that its process does not
count in `sz`.

`main_booted`: `main` does not fail, whatever memory holds, and leaves the kernel in such a state
with one process of one page.
-/
import Xv6.Vm.Exec

namespace Xv6.Vm

open Function Lib List Multiset Nat Ptable

variable {L : Layout} {A D H : Multiset ℕ} {s0 s : Phys} {l : List ℕ} {d n sz : ℕ} {E : Fail → Prop}
  {k : Kernel} {p : Slot} {q : Proc}

/-! ## The pages in use -/

/-- The directory of a process. -/
def Proc.dir (q : Proc) : Option ℕ := if q.state = .UNUSED then none else some q.pgdir

/-- The kernel stack of a process. -/
def Proc.stack (q : Proc) : Option ℕ := if q.state = .UNUSED then none else some q.kstack

/-- The directories of the address spaces. -/
def Kernel.spaces (k : Kernel) : Multiset ℕ :=
  k.kpgdir ::ₘ selects (finRange NPROC) fun p => (k.proc p).dir

/-- The pages in use outside of the spaces. -/
def Kernel.held (k : Kernel) : Multiset ℕ :=
  selects (finRange NPROC) (fun p => (k.proc p).stack) +
    ((k.bootStacks : Multiset ℕ) + (k.pipes.map Pipe.page : List ℕ))

/-- The pages that `main` gives to the allocator. -/
def Layout.ram (L : Layout) : Multiset ℕ := (range' L.first (0xE000 - L.first) : List ℕ)

/-- **The invariant of the kernel between system calls.** -/
structure Inv (L : Layout) (k : Kernel) : Prop where
  own : ∃ l, Own L L.ram k.phys k.phys l k.spaces k.held
  kern : ∀ d ∈ k.spaces, Kern k.phys.mem d
  size : ∀ p, (k.proc p).state ≠ .UNUSED → (k.proc p).sz < KERNBASE
  below : ∀ p, (k.proc p).state ≠ .UNUSED → ∀ u < USERPAGES,
    present (pte k.phys.mem (k.proc p).pgdir u) = true → u * PGSIZE < (k.proc p).sz

theorem mem_ram : n ∈ L.ram ↔ L.Ram n := by
  rw [Layout.ram, mem_coe, mem_range'_1, Layout.Ram]
  simp only [PHYSTOP, PGSIZE]
  omega

theorem nodup_ram (L : Layout) : L.ram.Nodup := nodup_range'

theorem Layout.first_le (L : Layout) : L.first ≤ 0x1E0 := by
  have := L.end_le
  simp only [Layout.first, PGROUNDUP, PGSIZE]
  omega

/-- A new start for the comparison. -/
theorem Own.rebase (h : Own L A s0 s l D H) : Own L A s s l D H :=
  ⟨h.nodup, h.ram, h.free, h.sum, fun _ _ => rfl, rfl⟩

/-! ## Boot -/

/-- **`freerange`** puts its pages on the list. -/
theorem wp_freerange {Q : Unit → Phys → Prop} {k : ℕ}
    (h : Own L A s0 s l D ((range' n k : List ℕ) + H))
    (hQ : ∀ l' s', Own L A s0 s' l' D H → Q () s') : wp (freerange L n k) E Q s := by
  rw [freerange]
  refine wp_forM (fun is s' => ∃ l', Own L A s0 s' l' D ((is : List ℕ) + H)) (fun n is s' hI => ?_)
    (fun s' hI => ?_) ⟨l, h⟩
  · obtain ⟨l', hown⟩ := hI
    rw [← cons_coe, cons_add] at hown
    exact wp_kfree hown fun hown' => ⟨_, hown'⟩
  · obtain ⟨l', hown⟩ := hI
    rw [coe_nil, zero_add] at hown
    exact hQ l' s' hown

/-- Memory before `main`: nothing is on the list yet. -/
theorem start_own (L : Layout) (mem : ℕ → Page) :
    Own L L.ram (start mem).phys (start mem).phys [] 0
      ((range' L.first (0x400 - L.first) : List ℕ) + (range' 0x400 0xDC00 : List ℕ)) := by
  refine ⟨nodup_ram L, fun n hn => mem_ram.1 hn, rfl, ?_, fun _ _ => rfl, rfl⟩
  have hle := L.first_le
  rw [coe_nil, zero_bind, zero_add, zero_add, coe_add, Layout.ram]
  have := range'_append_1 (s := L.first) (m := 0x400 - L.first) (n := 0xDC00)
  rw [show L.first + (0x400 - L.first) = 0x400 by omega,
    show 0x400 - L.first + 0xDC00 = 0xE000 - L.first by omega] at this
  rw [this]

/-- A space without user pages has at most 513 pages. -/
theorem card_pages_le {mem : ℕ → Page} (hpte : ∀ u < USERPAGES, pte mem d u = 0)
    (htab : ∀ i, Bare i → tab mem d i = none) : (pages mem d).card ≤ 513 := by
  have husers : users mem d = 0 := picks_eq_zero fun u hu => by rw [hpte u hu, target_zero]
  have hcard : (tables mem d).card ≤ NPDENTRIES - 512 :=
    card_picks_le (by decide) fun i hi => htab i (.inl hi)
  rw [pages, husers, add_zero, card_cons]
  simp only [NPDENTRIES] at hcard
  omega

/-- A space with one user page has at most 1026 pages. -/
theorem card_pages_single {mem : ℕ → Page}
    (hpte : ∀ u < USERPAGES, u ≠ 0 → pte mem d u = 0) : (pages mem d).card ≤ 1026 := by
  have husers : (users mem d).card ≤ 1 := card_picks_le_of_ge fun u hu hlt => by
    rw [hpte u hlt (by omega), target_zero]
  have hcard : (tables mem d).card ≤ NPDENTRIES - 0 :=
    card_picks_le (zero_le _) fun i hi => absurd hi (not_lt_zero i)
  rw [pages, card_cons, card_add]
  simp only [NPDENTRIES] at hcard
  omega

/-- **`startothers`** takes a page for each processor. -/
theorem wp_startothers {Q : Unit → Kernel → Prop} {c : ℕ}
    (h : Own L A s0 k.phys l D ((k.bootStacks : Multiset ℕ) + H))
    (hden : ∀ i, s0.denied i = false) (hc : c ≤ l.length)
    (hQ : ∀ l' s' bs, s'.mem = k.phys.mem → Own L A s0 s' l' D ((bs : List ℕ) + H) →
      Q () { k with phys := s', bootStacks := bs }) :
    wp (startothers c) E Q k := by
  rw [startothers]
  refine wp_forM (fun is k' => ∃ l' s' bs, k' = { k with phys := s', bootStacks := bs } ∧
    s'.mem = k.phys.mem ∧ Own L A s0 s' l' D ((bs : List ℕ) + H) ∧ is.length ≤ l'.length)
    (fun i is k' hI => ?_) (fun k' hI => ?_)
      ⟨l, k.phys, k.bootStacks, rfl, rfl, h, by simpa using hc⟩
  · obtain ⟨l', s', bs, rfl, hmem, hown, hlen⟩ := hI
    rw [wp_bind, wp_onPhys]
    refine wp_kalloc hown (fun s'' _ _ hshort => ?_) fun n l'' s'' hl hmem' hown' => ?_
    · rcases hshort with ⟨i, hi⟩ | rfl
      · rw [hden i] at hi
        cases hi
      · simp at hlen
    · rw [wp_modify]
      refine ⟨l'', s'', bs ++ [n], rfl, hmem'.trans hmem, ?_, ?_⟩
      · rw [← coe_add, coe_singleton, add_comm (bs : Multiset ℕ), singleton_add, cons_add]
        exact hown'
      · rw [hl] at hlen
        simpa using hlen
  · obtain ⟨l', s', bs, rfl, hmem, hown, -⟩ := hI
    exact hQ l' s' bs hmem hown

/-! ## The process table -/

/-- Two states of the kernel in which the same pages are in use for the same purpose. -/
structure Alike (k k' : Kernel) : Prop where
  dir : ∀ p, (k'.proc p).dir = (k.proc p).dir
  stack : ∀ p, (k'.proc p).stack = (k.proc p).stack
  sz : ∀ p, (k.proc p).state ≠ .UNUSED → (k'.proc p).sz = (k.proc p).sz
  kpgdir : k'.kpgdir = k.kpgdir
  bootStacks : k'.bootStacks = k.bootStacks
  pipes : k'.pipes = k.pipes

theorem Alike.pages {k' : Kernel} (h : Alike k k') : k'.spaces = k.spaces ∧ k'.held = k.held := by
  rw [Kernel.spaces, Kernel.spaces, Kernel.held, Kernel.held, h.kpgdir, h.bootStacks, h.pipes]
  simp only [h.dir, h.stack, and_self]

theorem Alike.refl (k : Kernel) (s : Phys) : Alike k { k with phys := s } :=
  ⟨fun _ => rfl, fun _ => rfl, fun _ _ => rfl, rfl, rfl, rfl⟩

/-- An entry that was unused and is again. -/
theorem Alike.unused (hp : (k.proc p).state = .UNUSED) (hq : q.state = .UNUSED) (s : Phys) :
    Alike k { k with phys := s, proc := update k.proc p q } := by
  have hdir : q.dir = (k.proc p).dir := by rw [Proc.dir, Proc.dir, if_pos hq, if_pos hp]
  have hstack : q.stack = (k.proc p).stack := by rw [Proc.stack, Proc.stack, if_pos hq, if_pos hp]
  refine ⟨fun j => ?_, fun j => ?_, fun j hj => ?_, rfl, rfl, rfl⟩ <;> dsimp only
  · by_cases hjp : j = p
    · rw [hjp, update_self, hdir]
    · rw [update_of_ne hjp]
  · by_cases hjp : j = p
    · rw [hjp, update_self, hstack]
    · rw [update_of_ne hjp]
  · rw [update_of_ne (by rintro rfl; exact hj hp)]

/-- The table with a process in the entry `p`. -/
theorem selects_update_some {f : Slot → Option ℕ} (p : Slot) (a : ℕ) :
    selects (finRange NPROC) (update f p (some a)) =
      a ::ₘ selects (finRange NPROC) (update f p none) :=
  selects_update (nodup_finRange NPROC) (mem_finRange p) (update_self ..)
    (update_self ..) fun j hj => by
      rw [update_of_ne hj, update_of_ne hj]

/-- What a change of one entry does to what the table selects. -/
theorem apply_update (f : Proc → Option ℕ) (proc : Slot → Proc) (p : Slot) (q : Proc) :
    (fun j => f (update proc p q j)) =
      update (fun j => f (proc j)) p (f q) :=
  funext fun _ => Function.apply_update (fun _ => f) proc p q _

/-- **`allocproc`** takes an unused entry and a page for the stack. -/
theorem wp_allocproc {Q : Option Slot → Kernel → Prop}
    (h : Own L A s0 k.phys l D H)
    (hnone : ∀ k', Alike k k' → k'.phys.mem = k.phys.mem → Own L A s0 k'.phys l D H →
      (∀ p, (k.proc p).state ≠ .UNUSED) ∨ Short s0 l → Q none k')
    (hsome : ∀ p n l' s', (k.proc p).state = .UNUSED → s'.mem = k.phys.mem →
      Own L A s0 s' l' D (n ::ₘ H) →
      Q (some p) { k with
        phys := s'
        proc := update k.proc p { k.proc p with state := .EMBRYO, kstack := n } }) :
    wp allocproc E Q k := by
  rw [allocproc, wp_bind, wp_get]
  cases hfind : (finRange NPROC).find? fun p => (k.proc p).state = .UNUSED with
  | none =>
    dsimp only
    rw [wp_pure]
    refine hnone k (.refl k k.phys) rfl h (.inl fun p hp => ?_)
    simpa [hp] using find?_eq_none.1 hfind p (mem_finRange p)
  | some p =>
    have hp : (k.proc p).state = .UNUSED := by simpa using find?_some hfind
    dsimp only
    rw [wp_bind, wp_setProc, wp_bind, wp_onPhys]
    refine wp_kalloc h (fun s' hmem hown hshort => ?_) fun n l' s' _ hmem hown => ?_
    · rw [wp_bind, wp_setProc, wp_pure]
      dsimp only
      rw [update_idem, update_self]
      exact hnone _ (.unused hp rfl s') hmem hown (.inr hshort)
    · rw [wp_bind, wp_setProc, wp_pure]
      dsimp only
      rw [update_idem, update_self]
      exact hsome p n l' s' hp hmem hown

/-- **`inituvm`** maps one page. -/
theorem wp_inituvm {Q : Unit → Phys → Prop} {init : List UInt8} (h : Own L A s0 s l {d} H)
    (hinit : init.length < PGSIZE) (hno : present (pte s.mem d 0) = false)
    (hden : ∀ i, s0.denied i = false) (hl : 2 ≤ l.length)
    (hQ : ∀ n l' s', n < 2 ^ 20 → Own L A s0 s' l' {d} H →
      pte s'.mem d = update (pte s.mem d) 0 (mkPte (n * PGSIZE) (PTE_W ||| PTE_U)) →
      Q () s') : wp (inituvm d init) E Q s := by
  have hshort : ∀ l' : List ℕ, Short s0 l' → l' = [] := by
    rintro l' (⟨i, hi⟩ | hl')
    · rw [hden i] at hi
      cases hi
    · exact hl'
  rw [inituvm, if_neg (not_le.2 hinit), wp_bind]
  refine wp_kalloc h (fun s' _ _ hs => ?_) fun n l' s' hcons hmem hown => ?_
  · rw [hshort l hs] at hl
    cases hl
  · have hnH : n ∈ n ::ₘ H := mem_cons_self n H
    have hn : n < 2 ^ 20 := by
      have := hown.ram_held.lt
      omega
    have hview : pte (update s'.mem n fun _ => 0) d = pte s.mem d := by
      rw [(hown.setHeld_view hnH (Multiset.mem_singleton_self d) _).2, hmem]
    dsimp only
    rw [wp_bind, wp_memset, wp_bind, show (0 : ℕ) = 0 * PGSIZE from rfl]
    refine wp_mappages_user (hown.setHeld hnH (fun _ => 0)) (by decide) perm_lt
      (by rw [hview, hno]) (fun s2 _ _ hs => ?_) fun l2 s2 hown2 _ _ hpte2 => ?_
    · rw [hcons, hshort l' hs] at hl
      simp at hl
    · rw [hview] at hpte2
      rw [wp_bind, wp_get, wp_setPage]
      obtain ⟨hown3, -, hpte3⟩ := hown2.setUser (v := 0) (n := n) (by decide)
        (by rw [hpte2, update_self, target_mkPte hn perm_lt])
        ((s2.mem n).overlay 0 init.length fun i => init.getD i 0)
      exact hQ n l2 _ hn hown3 (hpte3.trans hpte2)

/-- The kernel when the first process is ready. -/
structure Booted (L : Layout) (k : Kernel) : Prop where
  inv : Inv L k
  free : ∃ l, Own L L.ram k.phys k.phys l k.spaces k.held ∧ 50000 ≤ l.length
  denied : ∀ i, k.phys.denied i = false
  running : (k.proc k.initproc).state = .RUNNABLE
  sz : (k.proc k.initproc).sz = PGSIZE
  user : ∃ n < 2 ^ 20,
    pte k.phys.mem (k.proc k.initproc).pgdir 0 = mkPte (n * PGSIZE) (PTE_W ||| PTE_U)
  sized : Sized (pte k.phys.mem (k.proc k.initproc).pgdir) PGSIZE

/-- The table of an empty kernel selects nothing. -/
theorem selects_unused (h : ∀ p, (k.proc p).state = .UNUSED) :
    selects (finRange NPROC) (fun p => (k.proc p).dir) = 0 ∧
      selects (finRange NPROC) (fun p => (k.proc p).stack) = 0 := by
  refine ⟨eq_zero_of_forall_notMem fun a ha => ?_, eq_zero_of_forall_notMem fun a ha => ?_⟩ <;>
  · obtain ⟨p, -, hp⟩ := mem_selects.1 ha
    simp only [Proc.dir, Proc.stack, if_pos (h p)] at hp
    cases hp

/-- The kernel with one process. -/
theorem spaces_single (hq : q.state = .RUNNABLE) (hunused : ∀ p, (k.proc p).state = .UNUSED) :
    selects (finRange NPROC) (fun j => (update k.proc p q j).dir) = {q.pgdir} ∧
      selects (finRange NPROC) (fun j => (update k.proc p q j).stack) =
        {q.kstack} := by
  have hdir : q.dir = some q.pgdir := by rw [Proc.dir, hq]; rfl
  have hstack : q.stack = some q.kstack := by rw [Proc.stack, hq]; rfl
  have hdir' : (k.proc p).dir = none := by rw [Proc.dir, if_pos (hunused p)]
  have hstack' : (k.proc p).stack = none := by rw [Proc.stack, if_pos (hunused p)]
  rw [apply_update Proc.dir, apply_update Proc.stack, hdir, hstack, selects_update_some,
    selects_update_some, ← hdir', update_eq_self, hdir', ← hstack',
    update_eq_self, (selects_unused hunused).1, (selects_unused hunused).2]
  exact ⟨rfl, rfl⟩

/-- What makes a kernel with one process a booted one. -/
theorem Booted.of_single {s' : Phys} (hq : q.state = .RUNNABLE)
    (hsz : q.sz = PGSIZE) (hunused : ∀ p, (k.proc p).state = .UNUSED) (hpipes : k.pipes = [])
    (h : Own L L.ram s0 s' l (k.kpgdir ::ₘ {q.pgdir}) (q.kstack ::ₘ k.bootStacks))
    (hl : 50000 ≤ l.length) (hden : ∀ i, s0.denied i = false) (hk : Kern s'.mem k.kpgdir)
    (hk' : Kern s'.mem q.pgdir) (hn : n < 2 ^ 20)
    (hpte0 : pte s'.mem q.pgdir 0 = mkPte (n * PGSIZE) (PTE_W ||| PTE_U))
    (hpte : ∀ u < USERPAGES, u ≠ 0 → pte s'.mem q.pgdir u = 0) :
    Booted L { k with phys := s', proc := update k.proc p q, initproc := p } := by
  obtain ⟨hdirs, hstacks⟩ := spaces_single (p := p) hq hunused
  have hspaces : Kernel.spaces
      { k with phys := s', proc := update k.proc p q, initproc := p } =
      k.kpgdir ::ₘ {q.pgdir} := by
    rw [Kernel.spaces, hdirs]
  have hheld : Kernel.held
      { k with phys := s', proc := update k.proc p q, initproc := p } =
      q.kstack ::ₘ k.bootStacks := by
    rw [Kernel.held, hstacks, hpipes, map_nil, coe_nil, add_zero, singleton_add]
  have hown : Own L L.ram s' s' l (k.kpgdir ::ₘ {q.pgdir}) (q.kstack ::ₘ k.bootStacks) := h.rebase
  have hlive : ∀ j, (update k.proc p q j).state ≠ .UNUSED → update k.proc p q j = q := by
    intro j hj
    by_cases hjp : j = p
    · rw [hjp, update_self]
    · rw [update_of_ne hjp] at hj
      exact absurd (hunused j) hj
  have hsized : Sized (pte s'.mem q.pgdir) PGSIZE := by
    intro u hu
    by_cases hu0 : u = 0
    · rw [hu0, hpte0, present_mkPte hn perm_lt]
      exact ⟨fun _ => by decide, fun _ => rfl⟩
    · rw [hpte u hu hu0]
      refine ⟨fun hp => absurd hp (by decide), fun hlt => ?_⟩
      have hle := mul_le_mul_right PGSIZE (pos_of_ne_zero hu0)
      rw [Nat.one_mul] at hle
      exact absurd hlt (not_lt.2 hle)
  refine ⟨⟨⟨l, ?_⟩, fun d hd => ?_, fun j hj => ?_, fun j hj u hu hp => ?_⟩, ⟨l, ?_, hl⟩,
    fun i => ?_, ?_, ?_, ⟨n, hn, ?_⟩, ?_⟩
  · rw [hspaces, hheld]
    exact hown
  · rw [hspaces, Multiset.mem_cons, Multiset.mem_singleton] at hd
    rcases hd with rfl | rfl
    · exact hk
    · exact hk'
  · dsimp only
    rw [hlive j hj, hsz]
    decide
  · dsimp only at hp ⊢
    rw [hlive j hj] at hp ⊢
    rw [hsz]
    exact (hsized u hu).1 hp
  · rw [hspaces, hheld]
    exact hown
  · exact (congrFun h.denied i).trans (hden i)
  · exact (congrArg Proc.state (update_self ..)).trans hq
  · exact (congrArg Proc.sz (update_self ..)).trans hsz
  · dsimp only
    rw [update_self]
    exact hpte0
  · dsimp only
    rw [update_self]
    exact hsized

/-- **`userinit`** makes the first process. -/
theorem wp_userinit {initcode : List UInt8} (hinit : initcode.length < PGSIZE)
    (h : Own L L.ram s0 k.phys l {k.kpgdir} k.bootStacks) (hk : Kern k.phys.mem k.kpgdir)
    (hden : ∀ i, s0.denied i = false) (hl : 56000 ≤ l.length) (hpipes : k.pipes = [])
    (hunused : ∀ p, (k.proc p).state = .UNUSED) :
    wp (userinit L initcode) E (fun _ k' => Booted L k') k := by
  rw [userinit, wp_bind]
  refine wp_allocproc h (fun k' _ _ _ hnone => ?_) fun p n l1 s1 hp hmem1 hown1 => ?_
  · rcases hnone with hall | ⟨i, hi⟩ | rfl
    · exact absurd (hunused 0) (hall 0)
    · rw [hden i] at hi
      cases hi
    · cases hl
  · have hden1 : ∀ i, s1.denied i = false := fun i => by rw [hown1.denied, hden i]
    have hlen1 : l1.length + 1 = l.length := by
      have hcard := congrArg card (hown1.sum.trans h.sum.symm)
      rw [hmem1] at hcard
      simp only [card_add, card_cons, coe_card] at hcard
      omega
    have hpart : Own L L.ram s0 s1 l1 (0 + {k.kpgdir}) (0 + (n ::ₘ k.bootStacks)) := by
      simpa only [zero_add] using hown1
    have hA : (l1 + (0 : Multiset ℕ).bind (pages s1.mem) + 0 : Multiset ℕ) = l1 := by
      rw [zero_bind, add_zero, add_zero]
    dsimp only
    rw [wp_bind, wp_modify, wp_bind, wp_onPhys]
    refine wp_setupkvm hpart.restrict (fun l2 s2 hown2 hscarce => ?_)
      fun d l2 s2 hown2 hk2 hpte2 htab2 _ => ?_
    · rcases hscarce with ⟨i, hi⟩ | hcard
      · rw [hden1 i] at hi
        cases hi
      · rw [hA, coe_card, card_zero] at hcard
        omega
    · have hlen2 : l1.length ≤ l2.length + 513 := by
        have hcard := congrArg card (hown2.sum_singleton.trans hA)
        have hle := card_pages_le hpte2 htab2
        simp only [card_add, coe_card, card_zero] at hcard
        omega
      dsimp only
      rw [wp_bind, wp_onPhys]
      refine wp_inituvm hown2 hinit (by rw [hpte2 0 (by decide)]; decide) hden1 (by omega)
        fun n' l3 s3 hn' hown3 hpte3 => ?_
      obtain ⟨hown, hkeep⟩ := hpart.frame hown3
      have hpte3' : ∀ u < USERPAGES, u ≠ 0 → pte s3.mem d u = 0 := fun u hu hu0 => by
        rw [hpte3, update_of_ne hu0, hpte2 u hu]
      have hlen3 : l1.length ≤ l3.length + 1026 := by
        have hcard := congrArg card (hown3.sum_singleton.trans hA)
        have hle := card_pages_single hpte3'
        simp only [card_add, coe_card, card_zero] at hcard
        omega
      have hkpg := (pages_congr (hkeep k.kpgdir (Multiset.mem_singleton_self _))).2.2
      rw [zero_add, add_comm, singleton_add] at hown
      rw [wp_setProc]
      dsimp only
      rw [update_idem, update_self]
      refine .of_single rfl rfl hunused hpipes hown (by omega) hden
        (hk.congr fun u _ => by rw [hkpg, hmem1]) (hk2.congr fun u hu => ?_) hn'
        (by rw [hpte3, update_self]) hpte3'
      rw [hpte3, update_of_ne (by rintro rfl; exact absurd hu (by decide))]

/-- **`main` does not fail**, whatever memory holds. -/
theorem main_booted (L : Layout) {ncpu : ℕ} {initcode : List UInt8} (hcpu : ncpu < 8)
    (hinit : initcode.length < PGSIZE) (mem : ℕ → Page) :
    ∃ k, main L ncpu initcode (start mem) = .ok ((), k) ∧ Booted L k := by
  have hfirst := L.first_le
  have hden : ∀ i, (start mem).phys.denied i = false := fun _ => rfl
  suffices h : wp (main L ncpu initcode) (fun _ => False) (fun _ k => Booted L k) (start mem) by
    obtain ⟨_, k, hk, hb⟩ := exists_ok_of_wp h
    exact ⟨k, hk, hb⟩
  rw [main, wp_bind, wp_onPhys]
  refine wp_freerange (start_own L mem) fun l1 s1 hown1 => ?_
  rw [wp_bind, wp_onPhys, show PHYSTOP / PGSIZE - 0x400 = 0xDC00 by decide]
  refine wp_setupkvm hown1 (fun l2 s2 _ hscarce => ?_) fun d l2 s2 hown2 hk2 hpte2 htab2 _ => ?_
  · rcases hscarce with ⟨i, hi⟩ | hcard
    · cases hi
    · simp only [Layout.ram, coe_card, length_range'] at hcard
      omega
  · have hlen2 : 31 ≤ l2.length := by
      have hcard := congrArg card hown2.sum_singleton
      have hle := card_pages_le hpte2 htab2
      simp only [Layout.ram, card_add, coe_card, length_range'] at hcard
      omega
    dsimp only
    rw [wp_bind, wp_modify, wp_bind]
    refine wp_startothers (by simpa only [start, coe_nil, zero_add] using hown2) hden
      (by omega) fun l3 s3 bs hmem3 hown3 => ?_
    rw [wp_bind, wp_onPhys]
    have hpart : Own L L.ram (start mem).phys s3 l3 (0 + {d})
        ((range' 0x400 0xDC00 : List ℕ) + bs) := by
      rw [zero_add, add_comm]
      exact hown3
    refine wp_freerange (H := 0) (by rw [add_zero]; exact hpart.restrict) fun l4 s4 hown4 => ?_
    have hlen4 : 0xDC00 ≤ l4.length := by
      have hcard := congrArg card hown4.sum
      simp only [zero_bind, card_add, coe_card, card_zero, length_range'] at hcard
      omega
    obtain ⟨hown, hkeep⟩ := hpart.frame hown4
    rw [zero_add, zero_add] at hown
    have hpte := (pages_congr (hkeep d (Multiset.mem_singleton_self d))).2.2
    exact wp_userinit hinit hown (hk2.congr fun u _ => by rw [hpte, hmem3]) hden (by omega) rfl
      fun _ => rfl

/-- The layout of the kernel image that is built from these sources. -/
def Layout.image : Layout := ⟨0x109, 0x1167f0, by decide, by decide, by decide⟩

theorem exists_booted : ∃ k, Booted Layout.image k := by
  obtain ⟨k, -, hk⟩ := main_booted Layout.image (by decide : 1 < 8)
    (by decide : ([] : List UInt8).length < PGSIZE) fun _ _ => 0
  exact ⟨k, hk⟩

/-- The space of a process and the others. -/
theorem Kernel.spaces_cons (hp : (k.proc p).state ≠ .UNUSED) :
    k.spaces = (k.proc p).pgdir ::ₘ k.kpgdir ::ₘ
      selects (finRange NPROC) (update (fun j => (k.proc j).dir) p none) := by
  have hdir : (k.proc p).dir = some (k.proc p).pgdir := by rw [Proc.dir, if_neg hp]
  rw [Kernel.spaces, cons_swap, ← selects_update_some, ← hdir, update_eq_self]

end Xv6.Vm
