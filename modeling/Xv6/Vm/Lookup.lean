/-
# Looking up user pages

`uva2ka` of `vm.c` uses the entry that `walkpgdir` returns without looking whether there is one.
`checked` is `uva2ka` that stops there instead. `copyout` is written here over the function that
looks up its pages (`copyoutWith`), so that it can be run with either one. Where the run with
`checked` returns, no entry was missing, and `copyout` itself does the same (`copyout_refines`).
-/
import Xv6.Vm.Calls

namespace Xv6.Vm

open Lib

/-- `uva2ka(pgdir, uva)`, with a check for the page table. -/
def checked (pgdir uva : ℕ) : Prog Phys (Option ℕ) := do
  match ← walkpgdir pgdir uva false with
  | none => Prog.panic "uva2ka: no page table"
  | some (pgtab, i) => do
    let w ← getWord pgtab i
    pure (if !present w then none else if !user w then none else some (ppn w))

/-- `copyout`, with the function that looks up the pages. -/
def copyoutWith (lookup : ℕ → Prog Phys (Option ℕ)) (va : ℕ) (buf : List UInt8) : Prog Phys ℤ := do
  if buf.length > 0 then do
    let va0 := PGROUNDDOWN va
    match ← lookup va0 with
    | none => pure (-1)
    | some pa0 => do
      let n := min (PGSIZE - (va - va0)) buf.length
      let s ← get
      setPage pa0 ((s.mem pa0).overlay (va - va0) n fun k => buf.getD k 0)
      copyoutWith lookup ((va0 + PGSIZE) % 2 ^ 32) (buf.drop n)
  else pure 0
termination_by buf.length
decreasing_by
  simp only [List.length_drop, PGROUNDDOWN, PGSIZE]
  omega

variable {cur d : ℕ}

/-- `uva2ka` does what `checked` does. -/
theorem checked_refines (va : ℕ) : Refines (checked d va) (uva2ka cur d va) := by
  intro s x hx
  unfold checked at hx
  unfold uva2ka
  rw [bind_of_ok (show (get : Prog Phys Phys) s = .ok (s, s) from rfl)]
  cases hw : walkpgdir d va false s with
  | error e =>
    rw [bind_of_error hw] at hx
    cases hx
  | ok y =>
    obtain ⟨_ | ⟨t, i⟩, s'⟩ := y
    · rw [bind_of_ok hw] at hx
      cases hx
    · rw [bind_of_ok hw] at hx ⊢
      exact hx

theorem copyout_eq (va : ℕ) (buf : List UInt8) :
    copyout cur d va buf = copyoutWith (uva2ka cur d) va buf := by
  induction hm : buf.length using Nat.strongRecOn generalizing va buf with
  | ind m ih =>
    rw [copyout, copyoutWith]
    split_ifs with hlen
    · dsimp only
      congr 1
      funext r
      cases r with
      | none => rfl
      | some pa0 =>
        dsimp only
        congr 1
        funext s
        congr 1
        funext u
        refine ih _ ?_ _ _ rfl
        simp only [List.length_drop, PGROUNDDOWN, PGSIZE]
        omega
    · rfl

theorem copyoutWith_refines {lookup lookup' : ℕ → Prog Phys (Option ℕ)}
    (h : ∀ va, Refines (lookup va) (lookup' va)) (va : ℕ) (buf : List UInt8) :
    Refines (copyoutWith lookup va buf) (copyoutWith lookup' va buf) := by
  induction hm : buf.length using Nat.strongRecOn generalizing va buf with
  | ind m ih =>
    rw [copyoutWith, copyoutWith]
    split_ifs with hlen
    · dsimp only
      refine (h _).bind fun r => ?_
      cases r with
      | none => exact .refl _
      | some pa0 =>
        refine (Refines.refl _).bind fun s => (Refines.refl _).bind fun _ => ih _ ?_ _ _ rfl
        simp only [List.length_drop, PGROUNDDOWN, PGSIZE]
        omega
    · exact .refl _

/-- **`copyout` does what it does with `checked` lookups.** -/
theorem copyout_refines (va : ℕ) (buf : List UInt8) :
    Refines (copyoutWith (checked d) va buf) (copyout cur d va buf) := by
  rw [copyout_eq]
  exact copyoutWith_refines checked_refines va buf

end Xv6.Vm
