/-
# Counting over processes

The state of a system of processes gives each process a value, and a step
changes the value at one process.  A quantity summed over the processes then
changes by the one summand (`sum_update`), which is the bookkeeping step of
every counting invariant.
-/

import Mathlib.Algebra.BigOperators.Group.Finset.Basic
import Mathlib.Algebra.BigOperators.Pi
import Mathlib.Algebra.BigOperators.Ring.Finset
import Mathlib.Algebra.Order.BigOperators.Group.Finset

namespace Xv6.Lib

open Finset Function

variable {ι : Type*} [Fintype ι] {α : Type*}

/-- Changing the value at `p` changes a sum over all by the one summand. -/
theorem sum_update_eq [DecidableEq ι] {G : Type*} [AddCommGroup G] (f : α → G) (s : ι → α) (p : ι)
    (a : α) : ∑ q, f (update s p a q) = ∑ q, f (s q) - f (s p) + f a := by
  rw [show (fun q => f (update s p a q)) = update (f ∘ s) p (f a) from comp_update f s p a,
    sum_update_of_mem (mem_univ p), ← add_sum_erase univ (fun q => f (s q)) (mem_univ p),
    sdiff_singleton_eq_erase, add_sub_cancel_left, add_comm]
  rfl

/-- The same for natural numbers, without the subtraction. -/
theorem sum_update [DecidableEq ι] (f : α → ℕ) (s : ι → α) (p : ι) (a : α) :
    ∑ q, f (update s p a q) + f (s p) = ∑ q, f (s q) + f a := by
  have h := sum_update_eq (fun x => (f x : ℤ)) s p a
  simp only [← Nat.cast_sum] at h
  omega

/-- One summand is at most the sum. -/
theorem le_sum (f : α → ℕ) (s : ι → α) (p : ι) : f (s p) ≤ ∑ q, f (s q) :=
  single_le_sum (fun q _ => Nat.zero_le (f (s q))) (mem_univ p)

end Xv6.Lib
