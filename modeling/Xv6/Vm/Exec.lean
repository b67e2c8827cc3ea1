/-
# exec

`exec` builds a new address space beside the old one, and takes every page for it from the free
list: until the commit its footprint is the free list alone. So a failed call gives back exactly the
pages that were free before, and touches nothing else.

`wp_exec` is the specification. It needs that no argument string takes more than 32 MB: the stack
pointer wraps around below 0, and from `DEVSPACE` on the addresses still have page tables, which
`copyout` relies on without looking (`not_stray`).
-/
import Xv6.Vm.Stack

namespace Xv6.Vm

open Lib Multiset Ptable

variable {L : Layout} {A D H : Multiset ℕ} {s0 s : Phys} {l : List ℕ} {d n v sz : ℕ}
  {E : Fail → Prop} {k : Kernel} {p : Slot} {path : List UInt8} {argv : List (List UInt8)}
  {Q : ℤ → Kernel → Prop}

/-- `goto bad` gives back the pages of the new space. -/
theorem wp_bad (h : Own L A s0 k.phys l {d} H)
    (hQ : ∀ l' s', Own L A s0 s' l' 0 H → Q (-1) { k with phys := s' }) : wp (bad L d) E Q k := by
  rw [bad, wp_bind, wp_onPhys]
  refine wp_freevm h fun l' s' hown => ?_
  rw [wp_pure]
  exact hQ l' s' hown

/-- The new space beside the old one. -/
theorem Own.beside {s' : Phys} {l' : List ℕ} {cur : ℕ} (h : Own L A s0 s l (cur ::ₘ D) H)
    (h' : Own L l s s' l' {d} 0) : Own L A s0 s' l' ({cur} + (d ::ₘ D)) (0 + H) ∧
      ∀ d' ∈ cur ::ₘ D, ∀ n ∈ pages s.mem d', s'.mem n = s.mem n := by
  obtain ⟨hall, hrest⟩ := h.frame_free h'
  rw [singleton_add, cons_swap]
  exact ⟨hall, hrest⟩

/-- The space with the program and the stack, for the copying of the arguments. -/
theorem Ready.stacked {mem : ℕ → Page} {m : ℕ → UInt8} (h : Ready mem d v m) :
    Stacked (pte mem d) (tab mem d) v where
  upper := h.upper
  present _ hu := h.sized.present h.lt.le hu
  lt := h.lt
  guard := h.guard
  stack := h.stack

/-- **Arguments and commit.** The arguments are on the stack of the new space, which takes the place
of the old one; or they do not fit and `exec` gives up the new space. -/
theorem wp_execLaunch {ip : File} {m : ℕ → UInt8} (h : Own L A s0 k.phys l {d} H)
    (hr : Ready k.phys.mem d v m) (hargs : ∀ arg ∈ argv, arg.length < KERNBASE)
    (hstray : ¬ Stray ((v + 2) * PGSIZE) ((v + 2) * PGSIZE : ℕ) argv)
    (hfail : ∀ s', Keeps L A s0 s' l d H (pte k.phys.mem d) (tab k.phys.mem d) →
      (argv.length ≤ MAXARG → ¬ Fits ((v + 2) * PGSIZE) argv) →
      wp (bad L d) E Q { k with phys := s' })
    (hok : ∀ sp s', Keeps L A s0 s' l d H (pte k.phys.mem d) (tab k.phys.mem d) →
      Fits ((v + 2) * PGSIZE) argv → wp (onPhys (freevm L (k.proc p).pgdir)) E (fun _ k' => Q 0 k')
        { k with
          phys := s'
          proc := Function.update k.proc p
            { k.proc p with
              name := safestrcpy (lastElem path) 16
              pgdir := d
              sz := (v + 2) * PGSIZE
              tf := ⟨ip.elfhdr.entry, sp⟩ } }) :
    wp (execLaunch L p ip path argv d ((v + 2) * PGSIZE)) E Q k := by
  rw [execLaunch, wp_bind, wp_get]
  dsimp only
  rw [wp_bind, wp_onPhys]
  refine wp_of_refines (execArgs_refines _) (wp_execArgs hr.stacked ⟨h, rfl, rfl⟩ hargs hstray
    (fun s' hk' _ hres => hfail s' hk' fun hc => (hres hc).2) fun sp ptrs s' hk' _ _ hf _ => ?_)
  dsimp only
  rw [wp_bind, wp_setProc, wp_bind]
  exact wp_mono (hok sp s' hk' hf) fun _ k' hQ => wp_pure.2 hQ

/-- No string takes the stack pointer further down than to the devices. -/
theorem not_stray (hargs : ∀ arg ∈ argv, arg.length < 0x2000000) :
    ∀ {sp : ℤ}, 0 ≤ sp → sp % 4 = 0 → PGSIZE ≤ sz → ¬ Stray sz sp argv := by
  induction argv with
  | nil => exact fun _ _ _ h => h
  | cons arg argv ih =>
    intro sp hsp h4 hsz h
    have harg := hargs arg List.mem_cons_self
    have hp : pushed sp arg % 4 = 0 ∧ sp - 0x2000000 ≤ pushed sp arg := by
      simp only [pushed]
      omega
    rw [Stray] at h
    split_ifs at h with hfit
    · exact ih (fun a ha => hargs a (List.mem_cons_of_mem _ ha)) (by omega) hp.1 hsz h
    · simp only [DEVSPACE] at h
      omega

/-- **`exec`** takes pages from the free list only until it commits. Then the new space is the one
of the size that it sets, with the page below the stack out of reach. -/
theorem wp_exec {file : Option File} (hargs : ∀ arg ∈ argv, arg.length < 0x2000000)
    (h : Own L A s0 k.phys l ((k.proc p).pgdir ::ₘ D) H)
    (hfail : ∀ l' s', Own L l k.phys s' l' 0 0 → Q (-1) { k with phys := s' })
    (hok : ∀ ip d sz sp l' s', file = some ip → Own L A s0 s' l' (d ::ₘ D) H →
      (∀ d' ∈ D, ∀ n ∈ pages k.phys.mem d', s'.mem n = k.phys.mem n) →
      Kern s'.mem d → Sized (pte s'.mem d) sz → sz < KERNBASE → 2 * PGSIZE ≤ sz →
      user (pte s'.mem d ((sz - 2 * PGSIZE) / PGSIZE)) = false →
      Q 0 { k with
        phys := s'
        proc := Function.update k.proc p
          { k.proc p with
            name := safestrcpy (lastElem path) 16
            pgdir := d
            sz := sz
            tf := ⟨ip.elfhdr.entry, sp⟩ } }) :
    wp (exec L p file path argv) E Q k := by
  have hlocal := h.restrict_free
  cases file with
  | none =>
    rw [exec.eq_def]
    dsimp only
    rw [wp_pure]
    exact hfail l k.phys hlocal
  | some ip =>
    rw [wp_congr exec_eq]
    refine wp_ite.2 ⟨fun _ => ?_, fun _ => wp_ite.2 ⟨fun _ => ?_, fun _ => ?_⟩⟩
    · rw [wp_pure]
      exact hfail l k.phys hlocal
    · rw [wp_pure]
      exact hfail l k.phys hlocal
    · rw [wp_bind, wp_onPhys]
      refine wp_execImage ip hlocal (fun l' s' hown => wp_pure.2 (hfail l' s' hown))
        (fun d l1 s1 hown => wp_bad hown hfail) fun d sz v l1 s1 _ hown1 hr => ?_
      have hpage : 2 * PGSIZE ≤ (v + 2) * PGSIZE := Nat.mul_le_mul_right _ (Nat.le_add_left 2 v)
      have hsub : ((v + 2) * PGSIZE - 2 * PGSIZE) / PGSIZE = v := by
        rw [Nat.add_mul, Nat.add_sub_cancel, Nat.mul_div_cancel v (by decide)]
      refine wp_execLaunch hown1 hr (fun arg ha => (hargs arg ha).trans (by decide))
        (not_stray hargs (Int.natCast_nonneg _) (by simp only [PGSIZE]; omega) (by omega))
        (fun s2 hk2 _ => wp_bad hk2.own hfail) fun sp s2 hk2 _ => ?_
      rw [wp_onPhys]
      -- the new space beside the old one, then the old one alone
      obtain ⟨hall, hrest⟩ := h.beside hk2.own
      refine wp_freevm hall.restrict fun l3 s3 hown3 => ?_
      obtain ⟨hown, hkeep⟩ := hall.frame hown3
      rw [zero_add, zero_add] at hown
      have hpte : pte s3.mem d = pte s1.mem d :=
        (pages_congr (hkeep d (mem_cons_self d D))).2.2.trans hk2.pte
      refine hok ip d _ sp l3 s3 rfl hown (fun d' hd' n hn => ?_)
        (hr.upper.kern.congr fun u _ => by rw [hpte]) (by rw [hpte]; exact hr.sized) hr.lt hpage
        (by rw [hsub, hpte, hr.guard])
      have hpages := (pages_congr (hrest d' (mem_cons_of_mem hd'))).1
      rw [hkeep d' (mem_cons_of_mem hd') n (by rwa [hpages]), hrest d' (mem_cons_of_mem hd') n hn]

end Xv6.Vm
