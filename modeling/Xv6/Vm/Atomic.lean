/-
# exec is atomic

`exec_atomic`: whatever the file holds and wherever `kalloc` finds nothing, `exec` ends without a
panic. Either it returns -1 with the process and the set of free pages as before, or it returns 0
and the new space has user pages exactly below the new size, with the page under the stack out of
reach.

The arguments may be much longer than the stack page, up to 32 MB each. From there on the stack
pointer can wrap around to addresses without a page table.
-/
import Xv6.Vm.Owner

namespace Xv6.Vm

open Lib Ptable

variable {L : Layout} {A D H : Multiset ℕ} {s0 s : Phys} {l : List ℕ} {n : ℕ}

/-- The free pages are those of the list. -/
theorem Own.isFree_iff (h : Own L A s0 s l D H) : s.IsFree n ↔ n ∈ l := by
  have hlt : ∀ n ∈ l, n < 0xE000 := fun n hn => (h.ram n (h.mem_of_free hn)).lt
  constructor
  · rintro ⟨l', hfree, hlt', hn⟩
    rwa [h.free.unique hfree hlt hlt']
  · exact fun hn => ⟨l, h.free, hlt, hn⟩

/-- What was made of the free pages and given back leaves the set of free pages as it was. -/
theorem Own.isFree_same {s' : Phys} {l' : List ℕ} (h : Own L A s0 s l D H)
    (h' : Own L l s s' l' 0 0) (n : ℕ) : s'.IsFree n ↔ s.IsFree n := by
  have hsum := h'.sum
  rw [Multiset.zero_bind, add_zero, add_zero] at hsum
  rw [h'.isFree_iff, h.isFree_iff, ← Multiset.mem_coe, hsum, Multiset.mem_coe]

/-- What `exec(path, argv)` must do. -/
def ExecAtomic (L : Layout) (k : Kernel) (p : Slot) (file : Option File) (path : List UInt8)
    (argv : List (List UInt8)) : Prop :=
  ∃ r k', exec L p file path argv k = .ok (r, k') ∧
    ((r = -1 ∧ k'.proc = k.proc ∧ ∀ n, k'.phys.IsFree n ↔ k.phys.IsFree n) ∨
      (r = 0 ∧ Sized (pte k'.phys.mem (k'.proc p).pgdir) (k'.proc p).sz ∧
        (k'.proc p).sz < KERNBASE ∧ 2 * PGSIZE ≤ (k'.proc p).sz ∧
        user (pte k'.phys.mem (k'.proc p).pgdir (((k'.proc p).sz - 2 * PGSIZE) / PGSIZE)) = false))

/-- **`exec` is atomic**, for every file, every arguments of less than 32 MB each and every pattern
of failures of `kalloc`. -/
theorem exec_atomic {k : Kernel} {p : Slot} (h : Inv L k) (hp : (k.proc p).state ≠ .UNUSED)
    (file : Option File) (path : List UInt8) {argv : List (List UInt8)}
    (hargs : ∀ arg ∈ argv, arg.length < 0x2000000) : ExecAtomic L k p file path argv := by
  obtain ⟨l, hown⟩ := h.own
  have hspaces := Kernel.spaces_cons hp
  refine exists_ok_of_wp (wp_exec hargs (by rwa [hspaces] at hown) (fun l' s' hown' => ?_)
    fun ip d sz sp l' s' _ _ _ _ hs hsz h2 hguard => ?_)
  · exact .inl ⟨rfl, rfl, hown.isFree_same hown'⟩
  · refine .inr ⟨rfl, ?_⟩
    dsimp only
    rw [Function.update_self]
    exact ⟨hs, hsz, h2, hguard⟩

/-- The hypotheses of `exec_atomic` are satisfiable: the first process executes a file of zeroes. -/
theorem exec_atomic_booted : ∃ L k p, Inv L k ∧ (k.proc p).state ≠ .UNUSED ∧
    ExecAtomic L k p (some ⟨100, fun _ => 0⟩) [] [[0x61]] := by
  obtain ⟨k, hk⟩ := exists_booted
  have hp : (k.proc k.initproc).state ≠ .UNUSED := by
    rw [hk.running]
    decide
  exact ⟨_, k, k.initproc, hk.inv, hp, exec_atomic hk.inv hp _ _ (by decide)⟩

end Xv6.Vm
