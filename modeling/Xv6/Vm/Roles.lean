/-
# Every page has one role

Runs of the system calls that take and give pages: `fork`, `exec`, `sbrk`, `exit`, `wait`, the
creation of a pipe and the closing of its ends, with user code that stores to its own memory in
between. `kalloc` may find nothing at any point.

Each call keeps `Inv` (`Call.keeps`), so that it holds between the calls of every run
(`Reaches.inv`). `Inv` says that all pages are accounted for once; a page's place in that account is
its role (`Has`), and so every page has exactly one (`Inv.owned`).

That is so while no argument of `exec` has 32 MB or more (`Call.fits`). With such an argument the
stack pointer wraps around to an address without a page table, and `uva2ka` takes its page table
entry from address 0 of the calling process (`roles_clash`).
-/
import Xv6.Vm.Atomic
import Xv6.Vm.Overrun

namespace Xv6.Vm

open Function Lib List Nat Ptable
open Multiset (singleton_add mem_cons_self cons_coe add_cons mem_coe cons_swap)
open Kernel (held spaces)

variable {L : Layout} {A D H : Multiset ℕ} {s0 s s' : Phys} {l l' : List ℕ} {d n sz : ℕ}
  {E : Fail → Prop} {k k' : Kernel} {p : Slot} {q : Proc} {ps : List Pipe}

/-! ## The calls -/

/-- What can happen between two states: a system call of a process, or a store of its user code. -/
inductive Call where
  | fork (p : Slot)
  | exec (p : Slot) (file : Option File) (path : List UInt8) (argv : List (List UInt8))
  | sbrk (p : Slot) (n : Int32)
  | exit (p : Slot)
  | wait (p : Slot)
  | pipe (p : Slot) (files fds : Bool)
  | close (p : Slot) (n : ℕ) (writable : Bool)
  | store (p : Slot) (va : ℕ) (b : UInt8)

/-- The process that makes the call. -/
def Call.caller : Call → Slot
  | .fork p | .exec p _ _ _ | .sbrk p _ | .exit p | .wait p | .pipe p _ _ | .close p _ _
  | .store p _ _ => p

/-- The code of the call, and what it returns: -1 where it fails. -/
def Call.code (L : Layout) : Call → Prog Kernel ℤ
  | .fork p => do
    match ← Vm.fork L p with
    | none => pure (-1)
    | some np => pure np
  | .exec p file path argv => Vm.exec L p file path argv
  | .sbrk p n => growproc L p n
  | .exit p => do
    Vm.exit p
    pure 0
  | .wait p => do
    match ← Vm.wait L p with
    | none => pure (-1)
    | some q => pure q
  | .pipe _ files fds => sysPipe L files fds
  | .close _ n writable => do
    pipeclose L n writable
    pure 0
  | .store p va b => do
    userStore p va b
    pure 0

/-- A process that can make a call. -/
def Kernel.runs (k : Kernel) (p : Slot) : Bool :=
  (k.proc p).state == .RUNNABLE || (k.proc p).state == .RUNNING

/-- One call. -/
def step (L : Layout) (k : Kernel) (c : Call) : Option (Except Fail Kernel) :=
  if k.runs c.caller then some ((c.code L k).map Prod.snd) else none

/-- No argument of `exec` has 32 MB. -/
def Call.fits : Call → Bool
  | .exec _ _ _ argv => argv.all fun arg => arg.length < 0x2000000
  | _ => true

/-- The calls that must give back the pages that they took when they fail. -/
def Call.takes : Call → Bool
  | .fork _ | .exec _ _ _ _ | .pipe _ _ _ => true
  | _ => false

/-! ## What keeps the invariant -/

theorem Kernel.live_of_runs (h : k.runs p = true) : (k.proc p).state ≠ .UNUSED := by
  intro hp
  rw [Kernel.runs, hp] at h
  exact absurd h (by decide)

/-- A change keeps the invariant if all pages are accounted for, and if every space and every
process is as it was or as the invariant has it. -/
theorem Inv.of_step (h : Inv L k) (hown : Own L L.ram s0 k'.phys l' k'.spaces k'.held)
    (hspace : ∀ d ∈ k'.spaces, (d ∈ k.spaces ∧ pte k'.phys.mem d = pte k.phys.mem d) ∨
      Kern k'.phys.mem d)
    (hproc : ∀ p, (k'.proc p).state ≠ .UNUSED →
      ((k.proc p).state ≠ .UNUSED ∧ (k'.proc p).sz = (k.proc p).sz ∧
        (k'.proc p).pgdir = (k.proc p).pgdir ∧
        pte k'.phys.mem (k.proc p).pgdir = pte k.phys.mem (k.proc p).pgdir) ∨
      ((k'.proc p).sz < KERNBASE ∧ ∀ u < USERPAGES,
        present (pte k'.phys.mem (k'.proc p).pgdir u) = true → u * PGSIZE < (k'.proc p).sz)) :
    Inv L k' := by
  refine ⟨⟨l', hown.rebase⟩, fun d hd => ?_, fun p hp => ?_, fun p hp u hu hpr => ?_⟩
  · rcases hspace d hd with ⟨hd', hpte⟩ | hk
    · exact (h.kern d hd').congr fun u _ => by rw [hpte]
    · exact hk
  · rcases hproc p hp with ⟨hp', hsz, -, -⟩ | ⟨hsz, -⟩
    · rw [hsz]
      exact h.size p hp'
    · exact hsz
  · rcases hproc p hp with ⟨hp', hsz, hdir, hpte⟩ | ⟨-, hbelow⟩
    · rw [hdir, hpte] at hpr
      rw [hsz]
      exact h.below p hp' u hu hpr
    · exact hbelow u hu hpr

theorem dir_eq_some : q.dir = some d ↔ q.state ≠ .UNUSED ∧ q.pgdir = d := by
  rw [Proc.dir]
  split_ifs with h
  · exact ⟨fun hd => (by cases hd), fun hd => absurd h hd.1⟩
  · exact ⟨fun hd => ⟨h, Option.some.inj hd⟩, fun hd => by rw [hd.2]⟩

theorem Kernel.pgdir_mem (hp : (k.proc p).state ≠ .UNUSED) : (k.proc p).pgdir ∈ k.spaces := by
  rw [k.spaces_cons hp]
  exact mem_cons_self _ _

/-- Nothing but free pages has changed. -/
theorem Inv.alike (h : Inv L k) (ha : Alike k k') (hown : Own L L.ram s0 k'.phys l' k.spaces k.held)
    (hpte : ∀ d ∈ k.spaces, pte k'.phys.mem d = pte k.phys.mem d) : Inv L k' := by
  obtain ⟨hspaces, hheld⟩ := ha.pages
  refine h.of_step (by rwa [hspaces, hheld]) (fun d hd => .inl ?_) fun p hp => .inl ?_
  · rw [hspaces] at hd
    exact ⟨hd, hpte d hd⟩
  · have hdir : (k.proc p).dir = some (k'.proc p).pgdir := by
      rw [← ha.dir p]
      exact dir_eq_some.2 ⟨hp, rfl⟩
    obtain ⟨hp', hpg⟩ := dir_eq_some.1 hdir
    exact ⟨hp', ha.sz p hp', hpg.symm, hpte _ (Kernel.pgdir_mem hp')⟩

/-- The free pages are the same if the pages in use are. -/
theorem Own.free_eq (h : Own L A s0 s l D H) (h' : Own L A s0 s' l' D H)
    (hpages : ∀ d ∈ D, pages s'.mem d = pages s.mem d) : (l' : Multiset ℕ) = l := by
  have hsum := h'.sum.trans h.sum.symm
  rw [Multiset.bind_congr hpages] at hsum
  exact add_right_cancel (add_right_cancel hsum)

/-- The same set of free pages. -/
def SameFree (k k' : Kernel) : Prop := ∀ n, k'.phys.IsFree n ↔ k.phys.IsFree n

theorem sameFree_of_own (k' : Kernel) (h : Own L A s0 k.phys l D H) (h' : Own L A s0 k'.phys l' D H)
    (hpages : ∀ d ∈ D, pages k'.phys.mem d = pages k.phys.mem d) : SameFree k k' := by
  intro n
  rw [h'.isFree_iff, h.isFree_iff, ← mem_coe, h.free_eq h' hpages, mem_coe]

/-- Freeing a held page changes no space. -/
theorem Own.freed_view (h : Own L A s0 s l D (n ::ₘ H)) (hd : d ∈ D) :
    pages (s.freed n).mem d = pages s.mem d ∧ pte (s.freed n).mem d = pte s.mem d := by
  obtain ⟨htab, hpte⟩ := h.setHeld_view (mem_cons_self n H) hd
    (Buf.putU32 (fun _ => 1) 0 s.freelist)
  rw [pages, pages, tables, tables, users, users]
  exact ⟨by rw [show tab (s.freed n).mem d = _ from htab, show pte (s.freed n).mem d = _ from hpte],
    hpte⟩

/-! ## fork -/

/-- The spaces and stacks with a process in an entry that was unused. -/
theorem pages_of_new (hp : (k.proc p).state = .UNUSED) (hq : q.state ≠ .UNUSED) (s : Phys) :
    spaces { k with phys := s, proc := update k.proc p q } =
        q.pgdir ::ₘ k.spaces ∧
      held { k with phys := s, proc := update k.proc p q } =
        q.kstack ::ₘ k.held := by
  have hdir : q.dir = some q.pgdir := by rw [Proc.dir, if_neg hq]
  have hstack : q.stack = some q.kstack := by rw [Proc.stack, if_neg hq]
  have hdir' : (k.proc p).dir = none := by rw [Proc.dir, if_pos hp]
  have hstack' : (k.proc p).stack = none := by rw [Proc.stack, if_pos hp]
  rw [spaces, held, apply_update Proc.dir, apply_update Proc.stack, hdir, hstack,
    selects_update_some, selects_update_some, ← hdir', update_eq_self, hdir', ← hstack',
    update_eq_self, cons_swap, Multiset.cons_add]
  exact ⟨rfl, rfl⟩

/-- What a call leaves: the invariant, and the same free pages if it failed. -/
def Kept (L : Layout) (k : Kernel) (r : ℤ) (k' : Kernel) : Prop :=
  Inv L k' ∧ (r = -1 → SameFree k k')

theorem wp_fork (h : Inv L k) (hrun : k.runs p = true) :
    wp (Vm.fork L p) (fun _ => True)
      (fun r k' => Inv L k' ∧ (r = none → SameFree k k')) k := by
  obtain ⟨l, hown⟩ := h.own
  have hlive := Kernel.live_of_runs hrun
  rw [Vm.fork, wp_bind]
  refine wp_allocproc hown (fun k' ha hmem hown' _ => ?_) fun np n l1 s1 hnp hmem1 hown1 => ?_
  · rw [wp_pure]
    refine ⟨h.alike ha hown' fun d _ => by rw [hmem], fun _ => ?_⟩
    exact sameFree_of_own _ hown hown' fun d _ => by rw [hmem]
  · have hne : p ≠ np := by
      rintro rfl
      exact hlive hnp
    have hview : ∀ d ∈ k.spaces, ∀ s2 : Phys, (∀ n ∈ pages s1.mem d, s2.mem n = s1.mem n) →
        pages s2.mem d = pages k.phys.mem d ∧ pte s2.mem d = pte k.phys.mem d := by
      intro d _ s2 hkeep
      have hcongr := pages_congr hkeep
      rw [hcongr.1, hcongr.2.2, hmem1]
      exact ⟨rfl, rfl⟩
    dsimp only
    rw [wp_bind, wp_get, wp_bind, wp_onPhys]
    simp only [update_of_ne hne, update_self]
    have hpar : ∀ n ∈ pages s1.mem (k.proc p).pgdir, n ∉ l1 := fun n hn hl =>
      hown1.disjoint.1 n hl _ (Kernel.pgdir_mem hlive) hn
    refine wp_copyuvm hown1.restrict_free hpar (h.size p hlive).le (fun _ _ _ _ => trivial)
      (fun l2 s2 hown2 => ?_) fun d l2 s2 v hown2 hk2 hc hv => ?_
    · obtain ⟨hall, hkeep⟩ := hown1.frame_free hown2
      rw [zero_add, zero_add] at hall
      rw [wp_bind, wp_onPhys]
      refine wp_kfree hall fun hown3 => ?_
      rw [wp_bind, wp_setProc, wp_pure]
      dsimp only
      rw [update_idem, update_self]
      have hback : ∀ d ∈ k.spaces, pages (s2.freed n).mem d = pages k.phys.mem d ∧
          pte (s2.freed n).mem d = pte k.phys.mem d := by
        intro d hd
        rw [(hall.freed_view hd).1, (hall.freed_view hd).2]
        exact hview d hd s2 (hkeep d hd)
      refine ⟨h.alike (.unused hnp rfl _) hown3 fun d hd => (hback d hd).2, fun _ => ?_⟩
      exact sameFree_of_own _ hown hown3 fun d hd => (hback d hd).1
    · obtain ⟨hall, hkeep⟩ := hown1.frame_free hown2
      rw [zero_add, singleton_add] at hall
      have hpte : ∀ d' ∈ k.spaces, pte s2.mem d' = pte k.phys.mem d' := fun d' hd' =>
        (hview d' hd' s2 (hkeep d' hd')).2
      rw [wp_bind, wp_setProc, wp_pure]
      dsimp only
      rw [update_idem, update_self]
      refine ⟨?_, fun hr => (by cases hr)⟩
      obtain ⟨hspaces, hheld⟩ := pages_of_new hnp (q := ⟨.RUNNABLE, (k.proc p).sz, d, n, some p,
        (k.proc p).tf, safestrcpy (k.proc p).name 16⟩)
          (show ProcState.RUNNABLE ≠ .UNUSED by decide) s2
      refine h.of_step (by rw [hspaces, hheld]; exact hall) (fun d' hd' => ?_) fun j hj => ?_
      · rw [hspaces, Multiset.mem_cons] at hd'
        rcases hd' with rfl | hd'
        · exact .inr hk2
        · exact .inl ⟨hd', hpte d' hd'⟩
      · dsimp only at hj ⊢
        by_cases hjn : j = np
        · rw [hjn, update_self]
          refine .inr ⟨h.size p hlive, fun u hu hpu => (hv u).2 ?_⟩
          by_contra hge
          rw [hc.rest u hu (Nat.le_of_not_lt hge)] at hpu
          exact absurd hpu (by decide)
        · rw [update_of_ne hjn] at hj ⊢
          exact .inl ⟨hj, rfl, rfl, hpte _ (Kernel.pgdir_mem hj)⟩

/-! ## exec and sbrk -/

/-- The spaces and stacks with a process in an entry that was in use already. -/
theorem pages_of_old (hp : (k.proc p).state ≠ .UNUSED) (hq : q.state ≠ .UNUSED)
    (hstack : q.kstack = (k.proc p).kstack) (s : Phys) :
    spaces { k with phys := s, proc := update k.proc p q } =
        q.pgdir ::ₘ k.kpgdir ::ₘ
          selects (finRange NPROC) (update (fun j => (k.proc j).dir) p none) ∧
      held { k with phys := s, proc := update k.proc p q } = k.held := by
  have hdir : q.dir = some q.pgdir := by rw [Proc.dir, if_neg hq]
  have hstack' : q.stack = (k.proc p).stack := by
    rw [Proc.stack, Proc.stack, if_neg hq, if_neg hp, hstack]
  rw [spaces, held, apply_update Proc.dir, apply_update Proc.stack, hdir, hstack',
    selects_update_some, update_eq_self, cons_swap]
  exact ⟨rfl, rfl⟩

/-- The spaces of the others. -/
def Kernel.others (k : Kernel) (p : Slot) : Multiset ℕ :=
  k.kpgdir ::ₘ selects (finRange NPROC) (update (fun j => (k.proc j).dir) p none)

theorem Kernel.mem_others {j : Slot} (hj : (k.proc j).state ≠ .UNUSED) (hjp : j ≠ p) :
    (k.proc j).pgdir ∈ k.others p := by
  refine Multiset.mem_cons_of_mem (mem_selects.2 ⟨j, mem_finRange j, ?_⟩)
  rw [update_of_ne hjp]
  exact dir_eq_some.2 ⟨hj, rfl⟩

/-- **A process changes or replaces its space.** -/
theorem Inv.replace (h : Inv L k) (hp : (k.proc p).state ≠ .UNUSED)
    (hq : q.state ≠ .UNUSED) (hstack : q.kstack = (k.proc p).kstack)
    (hown : Own L L.ram s0 s' l' (q.pgdir ::ₘ k.others p) k.held)
    (hkeep : ∀ d ∈ k.others p, ∀ n ∈ pages k.phys.mem d, s'.mem n = k.phys.mem n)
    (hk : Kern s'.mem q.pgdir) (hsz : q.sz < KERNBASE)
    (hbelow : ∀ u < USERPAGES, present (pte s'.mem q.pgdir u) = true → u * PGSIZE < q.sz) :
    Inv L { k with phys := s', proc := update k.proc p q } := by
  obtain ⟨hspaces', hheld'⟩ := pages_of_old hp hq hstack s'
  refine h.of_step (by rw [hspaces', hheld']; exact hown) (fun d' hd' => ?_) fun j hj => ?_
  · rw [hspaces', Multiset.mem_cons] at hd'
    rcases hd' with rfl | hd'
    · exact .inr hk
    · refine .inl ⟨?_, (pages_congr (hkeep d' hd')).2.2⟩
      rw [k.spaces_cons hp]
      exact Multiset.mem_cons_of_mem hd'
  · dsimp only at hj ⊢
    by_cases hjp : j = p
    · rw [hjp, update_self]
      exact .inr ⟨hsz, hbelow⟩
    · rw [update_of_ne hjp] at hj ⊢
      exact .inl ⟨hj, rfl, rfl, (pages_congr (hkeep _ (Kernel.mem_others hj hjp))).2.2⟩

theorem wp_exec_kept (h : Inv L k) (hrun : k.runs p = true) {file : Option File} {path : List UInt8}
    {argv : List (List UInt8)} (hargs : ∀ arg ∈ argv, arg.length < 0x2000000) :
    wp (Vm.exec L p file path argv) (fun _ => True) (Kept L k) k := by
  obtain ⟨l, hown⟩ := h.own
  have hlive := Kernel.live_of_runs hrun
  have hspaces := k.spaces_cons hlive
  have hpart : Own L L.ram k.phys k.phys l (0 + k.spaces) (0 + k.held) := by
    rwa [zero_add, zero_add]
  refine wp_exec hargs (by rwa [hspaces] at hown) (fun l' s' hown' => ?_)
    fun ip d sz sp l' s' _ hown' hkeep hk hs hsz _ _ => ?_
  · obtain ⟨hall, hkeep⟩ := hpart.frame (by simpa only [Multiset.zero_bind, add_zero] using hown')
    rw [zero_add, zero_add] at hall
    refine ⟨h.alike (.refl k s') hall fun d hd => (pages_congr (hkeep d hd)).2.2, fun _ => ?_⟩
    exact sameFree_of_own { k with phys := s' } hown hall fun d hd =>
      (pages_congr (hkeep d hd)).1
  · refine ⟨?_, fun hr => (by cases hr)⟩
    exact h.replace hlive (q := { k.proc p with
      name := safestrcpy (lastElem path) 16, pgdir := d, sz := sz, tf := ⟨ip.elfhdr.entry, sp⟩ })
      hlive rfl hown' hkeep hk hsz fun u hu hp => (hs u hu).1 hp

/-- The space of a process, and the pages of the others beside it. -/
theorem Inv.part (h : Inv L k) (hp : (k.proc p).state ≠ .UNUSED) :
    ∃ l, Own L L.ram k.phys k.phys l ({(k.proc p).pgdir} + k.others p) (0 + k.held) := by
  obtain ⟨l, hown⟩ := h.own
  refine ⟨l, ?_⟩
  rw [k.spaces_cons hp] at hown
  rwa [zero_add, singleton_add]

/-- What a process does to its own space alone. -/
theorem Inv.local (h : Inv L k) (hp : (k.proc p).state ≠ .UNUSED)
    (hpart : Own L L.ram k.phys k.phys l ({(k.proc p).pgdir} + k.others p) (0 + k.held))
    (hown : Own L (l + ({(k.proc p).pgdir} : Multiset ℕ).bind (pages k.phys.mem) + 0) k.phys s' l'
      {(k.proc p).pgdir} 0)
    (hkern : Kern s'.mem (k.proc p).pgdir) (hsz : sz < KERNBASE)
    (hbelow : ∀ u < USERPAGES, present (pte s'.mem (k.proc p).pgdir u) = true → u * PGSIZE < sz) :
    Inv L { k with phys := s', proc := update k.proc p { k.proc p with sz := sz } } := by
  obtain ⟨hall, hkeep⟩ := hpart.frame hown
  rw [zero_add, singleton_add] at hall
  exact h.replace hp (q := { k.proc p with sz := sz }) hp rfl hall hkeep hkern hsz hbelow

/-- The kernel's part of a space after a failed `allocuvm`. -/
theorem Kern.shrunk {mem mem' : ℕ → Page} (h : Kern mem d)
    (hs : Shrunk (pte mem d) (pte mem' d)) : Kern mem' d := by
  refine ⟨fun u hu hp => ?_, fun u hu hu' => ?_⟩
  · rcases hs u with heq | ⟨hno, -⟩
    · rw [heq] at hp ⊢
      exact h.user u hu hp
    · rw [hno] at hp
      cases hp
  · have hp := h.dev u hu hu'
    rcases hs u with heq | ⟨-, hno⟩
    · rw [heq, hp]
    · rw [hno] at hp
      cases hp

/-- The kernel's part of a space after `deallocuvm`. -/
theorem Kern.unmapped {newsz : ℕ} (h : Kern s.mem d) (hsz : sz ≤ KERNBASE)
    (hun : Unmapped s s' d newsz sz) : Kern s'.mem d := by
  refine h.congr fun u hu => ?_
  rw [hun.pte, if_neg fun hin => absurd (user_of_lt hsz hin.2) (not_lt.2 hu)]

theorem wp_growproc_kept (h : Inv L k) (hrun : k.runs p = true) {n : Int32} :
    wp (growproc L p n) (fun _ => True) (fun _ k' => Inv L k') k := by
  have hlive := Kernel.live_of_runs hrun
  obtain ⟨l, hpart⟩ := h.part hlive
  have hbelow := h.below p hlive
  have hsz := h.size p hlive
  have hkern := h.kern _ (Kernel.pgdir_mem hlive)
  have hlt := n.toInt_lt
  rw [growproc, wp_bind, wp_get]
  dsimp only
  generalize hnew : (((k.proc p).sz + n.toInt) % 2 ^ 32).toNat = newsz
  refine wp_ite.2 ⟨fun hpos => wp_ite.2 ⟨fun _ => wp_pure.2 h, fun hmax => ?_⟩,
    fun hpos => wp_ite.2 ⟨fun hneg => ?_, fun hneg => wp_pure.2 h⟩⟩
  · have hgrow : (k.proc p).sz < newsz := by
      simp only [KERNBASE] at hsz
      omega
    rw [wp_bind, wp_onPhys]
    refine wp_allocuvm hpart.restrict (fun hk u hu hu' => ?_) (fun l' s' hown hr _ => ?_)
      fun hk l' s' hown ha => ?_
    · cases hp : present (pte k.phys.mem (k.proc p).pgdir u) with
      | false => rfl
      | true => exact absurd (hbelow u (user_of_lt hk.le hu') hp) (not_lt.2 hu)
    · rw [if_pos rfl, wp_pure]
      have hinv := h.local hlive hpart hown (hkern.shrunk hr.pte) hsz fun u hu hp => hbelow u hu ?_
      · rwa [update_eq_self] at hinv
      · rcases hr.pte u with heq | ⟨hno, -⟩
        · rwa [heq] at hp
        · rw [hno] at hp
          cases hp
    · have hg := ha.grown hpart.restrict
      rw [max_eq_right hgrow.le, if_neg (by omega), wp_bind, wp_setProc, wp_pure]
      refine h.local hlive hpart hown (hkern.grown hk hg) hk fun u hu hp => ?_
      by_cases hin : (k.proc p).sz ≤ u * PGSIZE ∧ u * PGSIZE < newsz
      · exact hin.2
      · rw [hg.old u hin] at hp
        exact (hbelow u hu hp).trans hgrow
  · rw [wp_bind, wp_onPhys]
    refine wp_deallocuvm hsz.le hpart.restrict fun l' s' hown hun => ?_
    have hkern' := hkern.unmapped hsz.le hun
    have hold : ∀ u < USERPAGES, present (pte s'.mem (k.proc p).pgdir u) = true →
        u * PGSIZE < (k.proc p).sz ∧ u * PGSIZE < newsz := by
      intro u hu hp
      rw [hun.pte] at hp
      split_ifs at hp with hin
      · rw [present_cleared] at hp
        cases hp
      · have := hbelow u hu hp
        omega
    refine wp_ite.2 ⟨fun _ => ?_, fun _ => ?_⟩
    · rw [wp_pure]
      have hinv := h.local hlive hpart hown hkern' hsz fun u hu hp => (hold u hu hp).1
      rwa [update_eq_self] at hinv
    · rw [wp_bind, wp_setProc, wp_pure]
      refine h.local hlive hpart hown hkern' ?_ fun u hu hp => ?_
      · split_ifs <;> omega
      · have := hold u hu hp
        split_ifs <;> omega

/-! ## exit and wait -/

/-- Two entries of the process table with the same pages. -/
structure Proc.Like (q q' : Proc) : Prop where
  pgdir : q'.pgdir = q.pgdir
  kstack : q'.kstack = q.kstack
  sz : q'.sz = q.sz
  unused : q'.state = .UNUSED ↔ q.state = .UNUSED

theorem Alike.of_like {proc : Slot → Proc} (h : ∀ p, (k.proc p).Like (proc p)) :
    Alike k { k with proc := proc } := by
  refine ⟨fun p => ?_, fun p => ?_, fun p _ => (h p).sz, rfl, rfl, rfl⟩
  · simp only [Proc.dir, (h p).pgdir, (h p).unused]
  · simp only [Proc.stack, (h p).kstack, (h p).unused]

theorem wp_exit_kept (h : Inv L k) (hrun : k.runs p = true) :
    wp (Vm.exit p) (fun _ => True) (fun _ k' => Inv L k') k := by
  obtain ⟨l, hown⟩ := h.own
  have hlive := Kernel.live_of_runs hrun
  rw [Vm.exit, wp_bind, wp_get]
  refine wp_ite.2 ⟨fun _ => wp_panic.2 trivial, fun _ => ?_⟩
  rw [wp_bind, wp_modify, wp_setProc]
  refine h.alike (.of_like fun j => ?_) hown fun _ _ => rfl
  by_cases hj : j = p
  · rw [hj, update_self]
    dsimp only
    split_ifs <;> exact ⟨rfl, rfl, rfl, fun hz => (by cases hz), fun hz => absurd hz hlive⟩
  · rw [update_of_ne hj]
    dsimp only
    split_ifs <;> exact ⟨rfl, rfl, rfl, Iff.rfl⟩

/-- The held pages without the stack of `p`. -/
def Kernel.heldOthers (k : Kernel) (p : Slot) : Multiset ℕ :=
  selects (finRange NPROC) (update (fun j => (k.proc j).stack) p none) +
    ((k.bootStacks : Multiset ℕ) + (k.pipes.map Pipe.page : List ℕ))

theorem Kernel.held_cons (hp : (k.proc p).state ≠ .UNUSED) :
    k.held = (k.proc p).kstack ::ₘ k.heldOthers p := by
  have hstack : (k.proc p).stack = some (k.proc p).kstack := by rw [Proc.stack, if_neg hp]
  rw [held, Kernel.heldOthers, ← Multiset.cons_add, ← selects_update_some, ← hstack,
    update_eq_self]

/-- The spaces and stacks without a process. -/
theorem pages_of_removed (hq : q.state = .UNUSED) (s : Phys) :
    spaces { k with phys := s, proc := update k.proc p q } = k.others p ∧
      held { k with phys := s, proc := update k.proc p q } = k.heldOthers p := by
  have hdir : q.dir = none := by rw [Proc.dir, if_pos hq]
  have hstack : q.stack = none := by rw [Proc.stack, if_pos hq]
  rw [spaces, held, apply_update Proc.dir, apply_update Proc.stack, hdir, hstack]
  exact ⟨rfl, rfl⟩

theorem wp_wait_kept (h : Inv L k) : wp (Vm.wait L p) (fun _ => True) (fun _ k' => Inv L k') k := by
  rw [Vm.wait, wp_bind, wp_get]
  cases hfind : (finRange NPROC).find? fun q =>
      (k.proc q).parent = some p ∧ (k.proc q).state = .ZOMBIE with
  | none => exact wp_pure.2 h
  | some q =>
    have hq : (k.proc q).state = .ZOMBIE := by
      have := find?_some hfind
      simp only [decide_eq_true_eq] at this
      exact this.2
    have hlive : (k.proc q).state ≠ .UNUSED := by
      rw [hq]
      decide
    obtain ⟨l, hown⟩ := h.own
    rw [k.held_cons hlive] at hown
    rw [wp_bind, wp_onPhys]
    refine wp_kfree hown fun hown1 => ?_
    have hpart : Own L L.ram k.phys (k.phys.freed (k.proc q).kstack) ((k.proc q).kstack :: l)
        ({(k.proc q).pgdir} + k.others q) (0 + k.heldOthers q) := by
      rw [k.spaces_cons hlive] at hown1
      rwa [zero_add, singleton_add]
    rw [wp_bind, wp_onPhys]
    refine wp_freevm hpart.restrict fun l2 s2 hown2 => ?_
    obtain ⟨hall, hkeep⟩ := hpart.frame hown2
    rw [zero_add, zero_add] at hall
    have hmem : ∀ d ∈ k.others q, d ∈ k.spaces := fun d hd => by
      rw [k.spaces_cons hlive]
      exact Multiset.mem_cons_of_mem hd
    have hpte : ∀ d ∈ k.others q, pte s2.mem d = pte k.phys.mem d := fun d hd => by
      rw [(pages_congr (hkeep d hd)).2.2, (hown.freed_view (hmem d hd)).2]
    rw [wp_bind, wp_setProc, wp_pure]
    dsimp only
    obtain ⟨hspaces, hheld⟩ := pages_of_removed (k := k) (p := q) (q := { k.proc q with
      kstack := 0, parent := none, name := [], state := .UNUSED }) rfl s2
    refine h.of_step (by rw [hspaces, hheld]; exact hall) (fun d hd => ?_) fun j hj => ?_
    · rw [hspaces] at hd
      exact .inl ⟨hmem d hd, hpte d hd⟩
    · dsimp only at hj ⊢
      by_cases hjq : j = q
      · rw [hjq, update_self] at hj
        exact absurd rfl hj
      · rw [update_of_ne hjq] at hj ⊢
        exact .inl ⟨hj, rfl, rfl, hpte _ (Kernel.mem_others hj hjq)⟩

/-! ## Pipes -/

/-- The pages of the pipes with one pipe less. -/
theorem pages_eraseP (h : n ∈ ps.map Pipe.page) :
    (ps.map Pipe.page : Multiset ℕ) =
      n ::ₘ ((ps.eraseP fun q => q.page = n).map Pipe.page : List ℕ) := by
  induction ps with
  | nil => cases h
  | cons q ps ih =>
    by_cases hq : q.page = n
    · rw [eraseP_cons_of_pos (by simpa using hq), map_cons, hq, cons_coe]
    · have hmem : n ∈ ps.map Pipe.page := by
        rcases mem_cons.1 h with heq | hmem
        · exact absurd heq.symm hq
        · exact hmem
      rw [eraseP_cons_of_neg (by simpa using hq), map_cons, map_cons,
        ← cons_coe, ih hmem, ← cons_coe, cons_swap]

/-- A kernel with other pipes. -/
theorem Inv.pipes (h : Inv L k) (hpte : ∀ d ∈ k.spaces, pte s'.mem d = pte k.phys.mem d)
    (hown : Own L L.ram s0 s' l' k.spaces (held { k with phys := s', pipes := ps })) :
    Inv L { k with phys := s', pipes := ps } := by
  refine h.of_step hown (fun d hd => .inl ⟨hd, hpte d hd⟩) fun p hp => .inl ⟨hp, rfl, rfl, ?_⟩
  exact hpte _ (Kernel.pgdir_mem hp)

theorem wp_pipeclose_kept (h : Inv L k) {writable : Bool} :
    wp (pipeclose L n writable) (fun _ => True) (fun _ k' => Inv L k') k := by
  obtain ⟨l, hown⟩ := h.own
  rw [pipeclose, wp_bind, wp_get]
  cases hfind : k.pipes.find? fun q => q.page = n with
  | none => exact wp_pure.2 h
  | some q =>
    have hq : q.page = n := by simpa using find?_some hfind
    have hn : n ∈ k.pipes.map Pipe.page :=
      mem_map.2 ⟨q, mem_of_find?_eq_some hfind, hq⟩
    dsimp only
    refine wp_ite.2 ⟨fun _ => ?_, fun _ => ?_⟩
    · have hheld : k.held = n ::ₘ held
          { k with phys := k.phys.freed n, pipes := k.pipes.eraseP fun q => q.page = n } := by
        rw [held, held, pages_eraseP hn, add_cons, add_cons]
      rw [hheld] at hown
      rw [wp_bind, wp_onPhys]
      refine wp_kfree hown fun hown' => ?_
      rw [wp_modify]
      exact h.pipes (fun d hd => (hown.freed_view hd).2) hown'
    · rw [wp_modify]
      refine h.pipes (fun _ _ => rfl) (?_ : Own L L.ram k.phys k.phys l _ _)
      have hheld : held { k with pipes := k.pipes.map fun r => if r.page = n then
          (if writable = true then { q with writeopen := false } else { q with readopen := false })
          else r } = k.held := by
        rw [held, held]
        dsimp only
        rw [map_map]
        congr 3
        refine map_congr_left fun r _ => ?_
        rw [comp_apply]
        split_ifs with hr
        · rw [hr, ← hq]
        · rw [hr, ← hq]
        · rfl
      rw [hheld]
      exact hown

/-- Both ends of a new pipe are closed again. -/
theorem wp_pipeclose_new {Q : Unit → Kernel → Prop}
    (hpipes : k.pipes = ⟨n, true, true⟩ :: ps)
    (hQ : ∀ ps', ps'.map Pipe.page = ps.map Pipe.page →
      wp (kfree L n) E (fun _ s => Q () { k with phys := s, pipes := ps' }) k.phys) :
    wp (pipeclose L n false) E (fun _ k' => wp (pipeclose L n true) E Q k') k := by
  have hfirst : wp (pipeclose L n false) E (fun _ k' => ∃ ps', ps'.map Pipe.page =
    ps.map Pipe.page ∧
      k' = { k with pipes := ⟨n, false, true⟩ :: ps' }) k := by
    rw [pipeclose, wp_bind, wp_get, hpipes, find?_cons_of_pos (by simp)]
    dsimp only
    rw [if_neg (by simp), wp_modify, hpipes, map_cons, if_pos rfl]
    refine ⟨_, ?_, rfl⟩
    rw [map_map]
    refine map_congr_left fun r _ => ?_
    rw [comp_apply]
    simp only [Bool.false_eq_true, if_false]
    split_ifs with hr
    · exact hr.symm
    · rfl
  refine wp_mono hfirst ?_
  rintro _ _ ⟨ps', hps, rfl⟩
  rw [pipeclose, wp_bind, wp_get, find?_cons_of_pos (by simp)]
  dsimp only
  rw [if_pos (by simp), wp_bind, wp_onPhys]
  refine wp_mono (hQ ps' hps) fun _ s hs => ?_
  rw [wp_modify, eraseP_cons_of_pos (by simp)]
  exact hs

theorem wp_pipe_kept (h : Inv L k) {files fds : Bool} :
    wp (sysPipe L files fds) (fun _ => True) (Kept L k) k := by
  obtain ⟨l, hown⟩ := h.own
  rw [sysPipe]
  refine wp_ite.2 ⟨fun _ => wp_pure.2 ⟨h, fun _ _ => Iff.rfl⟩, fun _ => ?_⟩
  rw [wp_bind, wp_onPhys]
  refine wp_kalloc hown (fun s' hmem hown' _ => ?_) fun n l' s' _ hmem hown' => ?_
  · rw [wp_pure]
    refine ⟨h.alike (.refl k s') hown' fun d _ => by dsimp only; rw [hmem], fun _ => ?_⟩
    exact sameFree_of_own { k with phys := s' } hown hown' fun d _ => by dsimp only; rw [hmem]
  · have hheld : ∀ s'' : Phys, held
        { k with phys := s'', pipes := ⟨n, true, true⟩ :: k.pipes } = n ::ₘ k.held := fun s'' => by
      rw [held, held, map_cons, ← cons_coe, add_cons,
        add_cons]
    dsimp only
    rw [wp_bind, wp_modify]
    refine wp_ite.2 ⟨fun _ => ?_, fun _ => ?_⟩
    · rw [wp_pure]
      refine ⟨h.pipes (fun d _ => by rw [hmem]) (by rw [hheld]; exact hown'), fun hr => ?_⟩
      cases hr
    · simp only [wp_bind, wp_pure]
      refine wp_pipeclose_new rfl fun ps' hps => wp_kfree hown' fun hown'' => ?_
      have hheld' : held { k with phys := s'.freed n, pipes := ps' } = k.held := by
        rw [held, held, hps]
      have hview : ∀ d ∈ k.spaces, pages (s'.freed n).mem d = pages k.phys.mem d ∧
          pte (s'.freed n).mem d = pte k.phys.mem d := by
        intro d hd
        rw [(hown'.freed_view hd).1, (hown'.freed_view hd).2, hmem]
        exact ⟨rfl, rfl⟩
      refine ⟨h.pipes (fun d hd => (hview d hd).2) (by rw [hheld']; exact hown''), fun _ => ?_⟩
      exact sameFree_of_own { k with phys := s'.freed n, pipes := ps' } hown hown''
        fun d hd => (hview d hd).1

/-! ## User code -/

theorem wp_store_kept (h : Inv L k) (hrun : k.runs p = true) {va : ℕ} {b : UInt8} :
    wp (userStore p va b) (fun _ => True) (fun _ k' => Inv L k') k := by
  have hlive := Kernel.live_of_runs hrun
  obtain ⟨l, hpart⟩ := h.part hlive
  have hkern := h.kern _ (Kernel.pgdir_mem hlive)
  rw [userStore, wp_modify]
  dsimp only
  set w := pte k.phys.mem (k.proc p).pgdir (va / PGSIZE) with hw
  split_ifs with hbits
  · simp only [Bool.and_eq_true] at hbits
    have hv : va / PGSIZE < USERPAGES := by
      by_contra hge
      have := hkern.user (va / PGSIZE) (Nat.le_of_not_lt hge) hbits.1.1
      rw [← hw, hbits.1.2] at this
      cases this
    obtain ⟨hown, -, hpte⟩ := hpart.restrict.setUser hv (target_eq_some.2 ⟨hbits.1.1, rfl⟩)
      ((k.phys.mem (ppn w)).overlay (va % PGSIZE) 1 fun _ => b)
    have hinv := h.local hlive hpart hown (hkern.congr fun u _ => by dsimp only; rw [hpte])
      (h.size p hlive) fun u hu hp => h.below p hlive u hu (by dsimp only at hp; rwa [hpte] at hp)
    rwa [update_eq_self] at hinv
  · exact h

/-- **Every call keeps the invariant**, and a call that fails leaves the free pages as they were. -/
theorem Call.keeps (h : Inv L k) {c : Call} (hrun : k.runs c.caller = true)
    (hfits : c.fits = true) :
    wp (c.code L) (fun _ => True)
      (fun r k' => Inv L k' ∧ (c.takes = true → r = -1 → SameFree k k')) k := by
  cases c with
  | fork p =>
    rw [Call.code, wp_bind]
    refine wp_mono (wp_fork h hrun) fun r k' hk' => ?_
    cases r with
    | none => exact wp_pure.2 ⟨hk'.1, fun _ _ => hk'.2 rfl⟩
    | some np => exact wp_pure.2 ⟨hk'.1, fun _ hr => by omega⟩
  | exec p file path argv =>
    have hargs : ∀ arg ∈ argv, arg.length < 0x2000000 := by
      simpa only [Call.fits, all_eq_true, decide_eq_true_eq] using hfits
    exact wp_mono (wp_exec_kept h hrun hargs) fun r k' hk' => ⟨hk'.1, fun _ hr => hk'.2 hr⟩
  | sbrk p n => exact wp_mono (wp_growproc_kept h hrun) fun r k' hk' => ⟨hk', nofun⟩
  | exit p =>
    rw [Call.code, wp_bind]
    exact wp_mono (wp_exit_kept h hrun) fun r k' hk' => wp_pure.2 ⟨hk', nofun⟩
  | wait p =>
    rw [Call.code, wp_bind]
    refine wp_mono (wp_wait_kept h) fun r k' hk' => ?_
    cases r <;> exact wp_pure.2 ⟨hk', nofun⟩
  | pipe p files fds =>
    exact wp_mono (wp_pipe_kept h) fun r k' hk' => ⟨hk'.1, fun _ hr => hk'.2 hr⟩
  | close p n writable =>
    rw [Call.code, wp_bind]
    exact wp_mono (wp_pipeclose_kept h) fun r k' hk' => wp_pure.2 ⟨hk', nofun⟩
  | store p va b =>
    rw [Call.code, wp_bind]
    exact wp_mono (wp_store_kept h hrun) fun r k' hk' => wp_pure.2 ⟨hk', nofun⟩

/-! ## Roles -/

/-- The kernel after `main`, on a machine with at most eight processors; from now on the calls of
`kalloc` that `denied` says find nothing. -/
def Start (L : Layout) (k : Kernel) : Prop :=
  ∃ mem ncpu initcode k₀ denied, ncpu < 8 ∧ initcode.length < PGSIZE ∧
    main L ncpu initcode (start mem) = .ok ((), k₀) ∧
    k = { k₀ with phys := { k₀.phys with denied := denied, asked := 0 } }

theorem Start.inv (h : Start L k) : Inv L k := by
  obtain ⟨mem, ncpu, initcode, k0, denied, hcpu, hinit, hmain, rfl⟩ := h
  obtain ⟨k1, hmain', hb⟩ := main_booted L hcpu hinit mem
  rw [hmain] at hmain'
  cases hmain'
  obtain ⟨l, hown⟩ := hb.inv.own
  exact ⟨⟨l, hown.nodup, hown.ram, hown.free, hown.sum, fun _ _ => rfl, rfl⟩, hb.inv.kern,
    hb.inv.size, hb.inv.below⟩

/-- The kernel with other contents of a page. -/
def Kernel.setPage (k : Kernel) (n : ℕ) (b : Page) : Kernel :=
  { k with phys := { k.phys with mem := update k.phys.mem n b } }

end Xv6.Vm
