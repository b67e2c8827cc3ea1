/-
# fork copies memory

`copyuvm` of `vm.c` makes the child's address space page by page: it takes a frame, copies the
parent's page into it and maps it with the parent's flags, while `mappages` takes page tables in
between. Every page that it writes was free, so the parent's table and memory stay as they are, and
so does what the loop reads.

`copyuvm_exact` is the result. Wherever `kalloc` finds nothing, in `setupkvm` or in the loop,
`copyuvm` comes to an end without a panic, with an exact copy or with the free frames as before.
-/
import Xv6.Vm.Atomic

namespace Xv6.Vm

open Lib Multiset Ptable

variable {L : Layout} {s s' : Phys} {l l' : List ℕ} {pgdir d n v sz : ℕ} {E : Fail → Prop}

/-- The child's space `d` in the state `s'`: the same user addresses as in the space `pgdir` of the
state `s`, with the same flags and contents, in frames that are its own. -/
structure Copied (s s' : Phys) (pgdir d : ℕ) : Prop where
  mapped : ∀ u < USERPAGES, present (pte s'.mem d u) = present (pte s.mem pgdir u)
  flags : ∀ u < USERPAGES, present (pte s.mem pgdir u) = true →
    flags (pte s'.mem d u) = flags (pte s.mem pgdir u)
  contents : ∀ u < USERPAGES, present (pte s.mem pgdir u) = true →
    s'.mem (ppn (pte s'.mem d u)) = s.mem (ppn (pte s.mem pgdir u))
  distinct : ∀ u < USERPAGES, ∀ v < USERPAGES, present (pte s'.mem d u) = true →
    present (pte s'.mem d v) = true → ppn (pte s'.mem d u) = ppn (pte s'.mem d v) → u = v
  apart : ∀ n ∈ pages s'.mem d, n ∉ pages s.mem pgdir
  parent : pages s'.mem pgdir = pages s.mem pgdir ∧ pte s'.mem pgdir = pte s.mem pgdir ∧
    ∀ n ∈ pages s.mem pgdir, s'.mem n = s.mem n

/-- All is copied, or nothing is taken. -/
def AllOrNothing (s : Phys) (pgdir : ℕ) : Option ℕ → Phys → Prop
  | some d, s' => Copied s s' pgdir d
  | none, s' => ∀ n, s'.IsFree n ↔ s.IsFree n

/-- What `copyuvm(pgdir, sz)` must do: it ends, and not in a panic. -/
def CopyExact (L : Layout) (s : Phys) (pgdir sz : ℕ) : Prop :=
  ∃ r s', copyuvm L pgdir sz s = .ok (r, s') ∧ AllOrNothing s pgdir r s'

/-- The copy at the end of the loop. -/
theorem Copies.copied (hc : Copies s s' pgdir d v) (h : Own L l s s' l' {d} 0)
    (hpar : ∀ n ∈ pages s.mem pgdir, n ∉ l) (hs : Sized (pte s.mem pgdir) sz)
    (hv : ∀ u, u * PGSIZE < sz ↔ u < v) : Copied s s' pgdir d := by
  have hdone : ∀ u < USERPAGES, present (pte s.mem pgdir u) = true ↔ u < v := fun u hu =>
    (hs u hu).trans (hv u)
  refine ⟨fun u hu => ?_, fun u hu hp => (hc.done u ((hdone u hu).1 hp)).2.1, fun u hu hp =>
    (hc.done u ((hdone u hu).1 hp)).2.2, fun u hu w hw hpu hpw heq => ?_, fun n hn hn' => ?_,
    (h.parent hpar).1, (h.parent hpar).2, fun n hn => h.keeps n fun hl =>
    hpar n hn (mem_coe.1 hl)⟩
  · by_cases huv : u < v
    · rw [(hc.done u huv).1, (hdone u hu).2 huv]
    · rw [hc.rest u hu (Nat.le_of_not_lt huv)]
      exact (Bool.eq_false_iff.2 fun hp => huv ((hdone u hu).1 hp)).symm
  · exact h.target_inj hu hw (target_eq_some.2 ⟨hpu, heq⟩) (target_eq_some.2 ⟨hpw, rfl⟩)
  · exact hpar n hn' (mem_coe.1 (h.mem_of_pages (mem_singleton_self d) hn))

/-- **fork copies memory exactly or not at all.** For every space whose user pages are those below
`sz`, none of them free, and every pattern of failures of `kalloc`. -/
theorem copyuvm_exact (hfree : Free s.mem s.freelist l) (hnodup : l.Nodup)
    (hram : ∀ n ∈ l, L.Ram n) (hpar : ∀ n ∈ pages s.mem pgdir, n ∉ l)
    (hs : Sized (pte s.mem pgdir) sz) (hsz : sz < KERNBASE) : CopyExact L s pgdir sz := by
  have hown := own_of_free hfree hnodup hram
  refine exists_ok_of_wp (Q := AllOrNothing s pgdir) ?_
  exact wp_copyuvm hown hpar hsz.le
    (fun u hu hno => absurd (hs.present hsz.le hu) (by rw [hno]; decide))
    (fun l' s' hown' => hown.isFree_same hown') fun d l' s' v hown' _ hc hv =>
    hc.copied hown' hpar hs hv

/-- The hypotheses of `copyuvm_exact` are satisfiable: the first process forks. -/
theorem copyuvm_exact_booted : ∃ L s pgdir, Sized (pte s.mem pgdir) 4096 ∧
    CopyExact L s pgdir 4096 := by
  obtain ⟨k, hk⟩ := exists_booted
  obtain ⟨l, hown⟩ := hk.inv.own
  have hp : (k.proc k.initproc).state ≠ .UNUSED := by
    rw [hk.running]
    decide
  rw [Kernel.spaces_cons hp] at hown
  have hfree := hown.restrict_free
  exact ⟨_, k.phys, (k.proc k.initproc).pgdir, hk.sized, copyuvm_exact hfree.free
    (coe_nodup.1 hfree.nodup) (fun n hn => hfree.ram n (mem_coe.2 hn))
    (fun n hn hl => hown.disjoint.1 n hl _ (mem_cons_self _ _) hn) hk.sized (by decide)⟩

end Xv6.Vm
