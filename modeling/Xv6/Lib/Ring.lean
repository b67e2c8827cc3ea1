/-
# A ring with free-running counters

A ring of `N` places, filled at `nwrite` and emptied at `nread`: two 32-bit counters that
are only ever incremented and wrap around, the place of a counter being its value modulo
`N`.  `items` is what the ring holds, oldest first.  Where `N` divides `2 ^ 32` the wrap
does not show: `items_push`, `items_pop` and `items_unpush` hold whatever the counters are.
-/

import Mathlib.Data.Int.ModEq
import Mathlib.Data.List.Range
import Mathlib.Logic.Function.Basic

namespace Xv6.Lib

open Function List Nat UInt32

/-- A ring of `N` places and its two counters. -/
structure Ring (α : Type*) (N : ℕ) where
  data : Fin N → α
  nread : UInt32
  nwrite : UInt32

namespace Ring

set_option linter.unusedSectionVars false

variable {α : Type*} {N : ℕ} [NeZero N] (r : Ring α N)

/-- The place of a counter. -/
def place (x : UInt32) : Fin N := Fin.ofNat N x.toNat

/-- How many items the ring holds. -/
def count : ℕ := (r.nwrite - r.nread).toNat

/-- What the ring holds, oldest first. -/
def items : List α := (range r.count).map fun j => r.data (place (r.nread + ofNat j))

/-- `x` is stored behind the others. -/
def push (x : α) : Ring α N :=
  { r with data := update r.data (place r.nwrite) x, nwrite := r.nwrite + 1 }

/-- The newest item. -/
def back : α := r.data (place (r.nwrite - 1))

/-- The newest item is taken back. -/
def unpush : Ring α N := { r with nwrite := r.nwrite - 1 }

/-- The oldest item. -/
def front : α := r.data (place r.nread)

/-- The oldest item is taken out. -/
def pop : Ring α N := { r with nread := r.nread + 1 }

@[simp] theorem length_items : r.items.length = r.count := by
  rw [items, length_map, length_range]

theorem nwrite_eq : r.nwrite = r.nread + UInt32.ofNat r.count := by
  rw [count, UInt32.ofNat_toNat]
  grind

theorem count_lt : r.count < 2 ^ 32 := toNat_lt _

theorem count_eq_zero : r.count = 0 ↔ r.nread = r.nwrite := by
  constructor
  · intro h
    rw [r.nwrite_eq, h]
    exact (UInt32.add_zero _).symm
  · intro h
    rw [count, h, UInt32.sub_self]
    rfl

/-- The ring is full when the counters are `N` apart. -/
theorem count_eq (hN : N < 2 ^ 32) : r.count = N ↔ r.nwrite = r.nread + ofNat N := by
  constructor
  · intro h
    rw [r.nwrite_eq, h]
  · intro h
    rw [count, h, UInt32.add_comm, UInt32.add_sub_cancel, UInt32.toNat_ofNat_of_lt' hN]

theorem place_add (hN : N ∣ 2 ^ 32) (x : UInt32) (d : ℕ) :
    (place (x + UInt32.ofNat d) : Fin N).val = (x.toNat + d) % N := by
  rw [place, Fin.val_ofNat, UInt32.toNat_add, UInt32.toNat_ofNat', add_mod_mod, mod_mod_of_dvd _ hN]

theorem count_push (x : α) (h : r.count < N) (hN : N < 2 ^ 32) :
    (r.push x).count = r.count + 1 := by
  have hw : (r.push x).nwrite - (r.push x).nread = ofNat (r.count + 1) := by
    change r.nwrite + 1 - r.nread = _
    rw [r.nwrite_eq, ofNat_add]
    grind
  rw [count, hw, toNat_ofNat_of_lt' (show r.count + 1 < 2 ^ 32 by omega)]

theorem count_pop (h : r.count ≠ 0) : r.pop.count + 1 = r.count := by
  have hw : r.pop.nwrite - r.pop.nread = ofNat (r.count - 1) := by
    change r.nwrite - (r.nread + 1) = _
    obtain ⟨k, hk⟩ := exists_eq_succ_of_ne_zero h
    rw [r.nwrite_eq, hk, succ_sub_one, succ_eq_add_one, ofNat_add]
    grind
  have := r.count_lt
  rw [count, hw, toNat_ofNat_of_lt' (show r.count - 1 < 2 ^ 32 by omega)]
  omega

theorem count_unpush (h : r.count ≠ 0) : r.unpush.count + 1 = r.count := by
  have hw : r.unpush.nwrite - r.unpush.nread = ofNat (r.count - 1) := by
    change r.nwrite - 1 - r.nread = _
    obtain ⟨k, hk⟩ := exists_eq_succ_of_ne_zero h
    rw [r.nwrite_eq, hk, succ_sub_one, succ_eq_add_one, ofNat_add]
    grind
  have := r.count_lt
  rw [count, hw, toNat_ofNat_of_lt' (show r.count - 1 < 2 ^ 32 by omega)]
  omega

/-- **The newest item is the last one.** -/
theorem items_unpush (h : r.count ≠ 0) : r.items = r.unpush.items ++ [r.back] := by
  have hback : r.nread + ofNat r.unpush.count = r.nwrite - 1 := by
    have hw := r.unpush.nwrite_eq
    exact hw.symm
  rw [items, ← r.count_unpush h, range_succ, map_append, map_singleton, hback]
  rfl

/-- **A stored item is the last one.** -/
theorem items_push (x : α) (h : r.count < N) (hN : N < 2 ^ 32) (hdvd : N ∣ 2 ^ 32) :
    (r.push x).items = r.items ++ [x] := by
  have hw : (place r.nwrite : Fin N).val = (r.nread.toNat + r.count) % N := by
    conv_lhs => rw [r.nwrite_eq]
    exact place_add hdvd _ _
  rw [items, r.count_push x h hN, range_succ, map_append, map_singleton]
  congr 1
  · refine map_congr_left fun j hj => ?_
    rw [mem_range] at hj
    refine update_of_ne (fun hc => ?_) ..
    have hval := congrArg Fin.val hc
    change (place (r.nread + ofNat j) : Fin N).val = _ at hval
    rw [place_add hdvd, hw] at hval
    have hd := (modEq_iff_dvd' (by omega)).1 (show r.nread.toNat + j ≡ _ [MOD N] from hval)
    have := le_of_dvd (by omega) hd
    omega
  · change [update r.data (place r.nwrite) x (place (r.nread + ofNat r.count))] = _
    rw [← r.nwrite_eq, update_self]

/-- **The oldest item is the first one.** -/
theorem items_pop (h : r.count ≠ 0) : r.items = r.front :: r.pop.items := by
  rw [items, ← r.count_pop h, range_succ_eq_map, map_cons, map_map]
  congr 1
  · change r.data (place (r.nread + 0)) = _
    rw [UInt32.add_zero]
    rfl
  · refine map_congr_left fun j _ => ?_
    change r.data (place (r.nread + ofNat (j + 1))) = r.data (place (r.nread + 1 + ofNat j))
    rw [ofNat_add]
    congr 2
    grind

end Ring
end Xv6.Lib
