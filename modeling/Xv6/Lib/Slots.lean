/-
# A finite map kept in slots

Slot `j` of a table is free or holds a key with its value, and the first `n` slots are in
the table.  A search (`find`) takes the first slot with the key; if no key is in two slots
(`Distinct`) it does not matter which (`Distinct.find_eq_some`).  Filling a free slot, or the
one past the last, binds a key that was not bound (`Distinct.find_insert`), and freeing its
slot removes it (`Distinct.find_erase`); every other binding is as before, and the keys stay
distinct.
-/

import Mathlib.Data.List.Range
import Mathlib.Logic.Function.Basic

namespace Xv6.Lib
namespace Slots

open Function Option

variable {κ ν : Type*} {t : ℕ → Option (κ × ν)} {n j : ℕ} {x : κ} {v : ν}

/-- The value bound to a key, and the slot it is in. -/
def find [DecidableEq κ] (t : ℕ → Option (κ × ν)) (n : ℕ) (x : κ) : Option (ν × ℕ) :=
  (List.range n).findSome? fun j =>
    match t j with
    | some (y, v) => if y = x then some (v, j) else none
    | none => none

/-- No key is in two slots. -/
def Distinct (t : ℕ → Option (κ × ν)) (n : ℕ) : Prop :=
  ∀ i < n, ∀ j < n, ∀ x v w, t i = some (x, v) → t j = some (x, w) → i = j

theorem slot_eq_some [DecidableEq κ] {r : ν × ℕ} :
    (match t j with
      | some (y, v) => if y = x then some (v, j) else none
      | none => none) = some r ↔ t j = some (x, r.1) ∧ r.2 = j := by
  obtain ⟨v, i⟩ := r
  cases ht : t j with
  | none => simp
  | some e =>
    obtain ⟨y, w⟩ := e
    by_cases hy : y = x
    · simp [hy, eq_comm]
    · simp [hy]

theorem find_eq_none [DecidableEq κ] : find t n x = none ↔ ∀ j < n, ∀ v, t j ≠ some (x, v) := by
  rw [find, List.findSome?_eq_none_iff]
  refine forall_congr' fun j => ?_
  rw [List.mem_range]
  refine imp_congr_right fun _ => ?_
  rw [eq_none_iff_forall_not_mem]
  constructor
  · intro h v hv
    exact h (v, j) (slot_eq_some.2 ⟨hv, rfl⟩)
  · intro h r hr
    exact h r.1 (slot_eq_some.1 hr).1

theorem mem_of_find [DecidableEq κ] (h : find t n x = some (v, j)) : j < n ∧ t j = some (x, v) := by
  obtain ⟨i, hi, hslot⟩ := List.exists_of_findSome?_eq_some h
  obtain ⟨ht, hj⟩ := slot_eq_some.1 hslot
  obtain rfl : j = i := hj
  exact ⟨List.mem_range.1 hi, ht⟩

namespace Distinct

variable (h : Distinct t n)

include h

/-- With distinct keys the slot that holds a key is the one found. -/
theorem find_eq_some [DecidableEq κ] : find t n x = some (v, j) ↔ j < n ∧ t j = some (x, v) := by
  refine ⟨mem_of_find, fun ⟨hj, ht⟩ => ?_⟩
  cases hfind : find t n x with
  | none => exact absurd ht (find_eq_none.1 hfind j hj v)
  | some r =>
    obtain ⟨w, i⟩ := r
    obtain ⟨hi, hti⟩ := mem_of_find hfind
    obtain rfl := h i hi j hj x w v hti ht
    rw [ht, some.injEq, Prod.mk.injEq] at hti
    rw [hti.2]

/-- The slots after a free one, or the one past the last, has been filled. -/
theorem insert (hj : j ≤ n) (hnew : ∀ i < n, ∀ w, t i ≠ some (x, w)) :
    Distinct (update t j (some (x, v))) (max n (j + 1)) := by
  intro i hi i' hi' y w w' ht ht'
  rw [update_apply] at ht ht'
  split_ifs at ht ht' with hij hij' hij'
  · rw [hij, hij']
  · rw [some.injEq, Prod.mk.injEq] at ht
    exact absurd (ht.1 ▸ ht') (hnew i' (by omega) w')
  · rw [some.injEq, Prod.mk.injEq] at ht'
    exact absurd (ht'.1 ▸ ht) (hnew i (by omega) w)
  · exact h i (by omega) i' (by omega) y w w' ht ht'

/-- **Filling a free slot binds the key** and leaves every other binding. -/
theorem find_insert [DecidableEq κ] (hj : j ≤ n) (hfree : j < n → t j = none)
    (hnew : find t n x = none) :
    find (update t j (some (x, v))) (max n (j + 1)) =
      update (find t n) x (some (v, j)) := by
  rw [find_eq_none] at hnew
  have hins := h.insert (v := v) hj hnew
  funext y
  refine ext fun r => ?_
  obtain ⟨w, i⟩ := r
  rw [hins.find_eq_some, update_apply, update_apply]
  by_cases hy : y = x
  · subst hy
    rw [if_pos rfl, some.injEq, Prod.mk.injEq]
    by_cases hij : i = j
    · subst hij
      rw [if_pos rfl, some.injEq, Prod.mk.injEq]
      exact ⟨fun hr => ⟨hr.2.2, rfl⟩, fun hr => ⟨by omega, rfl, hr.1⟩⟩
    · rw [if_neg hij]
      exact ⟨fun hr => absurd hr.2 (hnew i (by omega) w), fun hr => absurd hr.2.symm hij⟩
  · rw [if_neg hy, h.find_eq_some]
    by_cases hij : i = j
    · subst hij
      rw [if_pos rfl, some.injEq, Prod.mk.injEq]
      refine ⟨fun hr => absurd hr.2.1.symm hy, fun hr => ?_⟩
      rw [hfree hr.1] at hr
      cases hr.2
    · rw [if_neg hij]
      exact ⟨fun hr => ⟨by omega, hr.2⟩, fun hr => ⟨by omega, hr.2⟩⟩

/-- The slots after one has been freed, or a free one has been added. -/
theorem erase (hj : j ≤ n) : Distinct (update t j none) (max n (j + 1)) := by
  intro i hi i' hi' y w w' ht ht'
  rw [update_apply] at ht ht'
  split_ifs at ht ht'
  exact h i (by omega) i' (by omega) y w w' ht ht'

/-- **Freeing the slot of a key removes its binding** and no other. -/
theorem find_erase [DecidableEq κ] (hx : find t n x = some (v, j)) :
    find (update t j none) n = update (find t n) x none := by
  obtain ⟨hj, ht⟩ := mem_of_find hx
  have herase := h.erase hj.le
  rw [max_eq_left hj] at herase
  funext y
  refine ext fun r => ?_
  obtain ⟨w, i⟩ := r
  rw [herase.find_eq_some, update_apply, update_apply]
  by_cases hy : y = x
  · subst hy
    rw [if_pos rfl]
    refine iff_of_false ?_ (by simp)
    rintro ⟨hi, hti⟩
    split_ifs at hti with hij
    exact hij (h i hi j hj y w v hti ht)
  · rw [if_neg hy, h.find_eq_some]
    by_cases hij : i = j
    · subst hij
      rw [if_pos rfl, ht]
      simp [Ne.symm hy]
    · rw [if_neg hij]

end Distinct

end Slots
end Xv6.Lib
