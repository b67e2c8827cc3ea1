/-
# What a partial function selects

`selects I f` is the multiset of the values that a partial function has on the indices of a list,
and `picks f N` those on the numbers below `N`. Giving the function a value at one more place adds
that value (`selects_update`); if no value is picked twice, each comes from one place (`picks_inj`).
-/
import Mathlib.Data.List.Range
import Mathlib.Data.Multiset.Filter
import Mathlib.Data.List.Pairwise
import Mathlib.Data.List.Nodup

namespace Xv6.Lib

open List

section Selects

variable {ι α β : Type*} {I : List ι} {f g : ι → Option α} {i : ι} {a : α}

/-- The values of `f` on `I`. -/
def selects (I : List ι) (f : ι → Option α) : Multiset α :=
  (I.filterMap f : List α)

theorem mem_selects : a ∈ selects I f ↔ ∃ i ∈ I, f i = some a := by
  simp [selects]

theorem selects_congr (h : ∀ i ∈ I, f i = g i) : selects I f = selects I g := by
  rw [selects, selects]
  congr 1
  exact filterMap_congr h

/-- **One value more.** -/
theorem selects_update (hI : I.Nodup) (hi : i ∈ I) (hf : f i = none) (hg : g i = some a)
    (hfg : ∀ j, j ≠ i → g j = f j) : selects I g = a ::ₘ selects I f := by
  obtain ⟨l1, l2, rfl⟩ := append_of_mem hi
  have hnot : i ∉ l1 ++ l2 := (nodup_cons.1 (perm_middle.nodup_iff.1 hI)).1
  have h1 : l1.filterMap g = l1.filterMap f :=
    filterMap_congr fun j hj => hfg j fun h => hnot (mem_append_left _ (h ▸ hj))
  have h2 : l2.filterMap g = l2.filterMap f :=
    filterMap_congr fun j hj => hfg j fun h => hnot (mem_append_right _ (h ▸ hj))
  rw [selects, selects, filterMap_append, filterMap_append,
    filterMap_cons_some hg, filterMap_cons_none hf, h1, h2, Multiset.cons_coe]
  exact Multiset.coe_eq_coe.2 perm_middle

/-- **The values at some of the places and those at the others.** -/
theorem selects_split (P : ι → Prop) [DecidablePred P] (f : ι → Option α) :
    ∀ I : List ι, selects I f =
      selects I (fun i => if P i then f i else none) +
        selects I (fun i => if P i then none else f i)
  | [] => rfl
  | i :: I => by
    have ih := selects_split P f I
    simp only [selects, Multiset.coe_add, Multiset.coe_eq_coe] at ih ⊢
    by_cases hP : P i
    · cases hf : f i with
      | none =>
        rw [filterMap_cons_none hf, filterMap_cons_none (by rw [if_pos hP, hf]),
          filterMap_cons_none (by rw [if_pos hP])]
        exact ih
      | some a =>
        rw [filterMap_cons_some hf, filterMap_cons_some (by rw [if_pos hP, hf]),
          filterMap_cons_none (by rw [if_pos hP])]
        exact ih.cons a
    · cases hf : f i with
      | none =>
        rw [filterMap_cons_none hf, filterMap_cons_none (by rw [if_neg hP]),
          filterMap_cons_none (by rw [if_neg hP, hf])]
        exact ih
      | some a =>
        rw [filterMap_cons_some hf, filterMap_cons_none (by rw [if_neg hP]),
          filterMap_cons_some (by rw [if_neg hP, hf])]
        exact (ih.cons a).trans perm_middle.symm

end Selects

section Picks

variable {α β : Type*} {f g : ℕ → Option α} {N i j m : ℕ} {a : α}

/-- The values of `f` below `N`. -/
def picks (f : ℕ → Option α) (N : ℕ) : Multiset α := selects (range N) f

theorem picks_eq (f : ℕ → Option α) (N : ℕ) : picks f N = ((range N).filterMap f : List α) := rfl

theorem mem_picks : a ∈ picks f N ↔ ∃ i < N, f i = some a := by
  rw [picks, mem_selects]
  simp

theorem picks_congr (h : ∀ i < N, f i = g i) : picks f N = picks g N :=
  selects_congr fun i hi => h i (mem_range.1 hi)

theorem picks_eq_zero (h : ∀ i < N, f i = none) : picks f N = 0 := by
  refine Multiset.eq_zero_of_forall_notMem fun a ha => ?_
  obtain ⟨i, hi, hf⟩ := mem_picks.1 ha
  rw [h i hi] at hf
  cases hf

theorem picks_update (hi : i < N) (hf : f i = none) (hg : g i = some a)
    (hfg : ∀ j, j ≠ i → g j = f j) : picks g N = a ::ₘ picks f N :=
  selects_update nodup_range (mem_range.2 hi) hf hg hfg

theorem picks_split (P : ℕ → Prop) [DecidablePred P] (f : ℕ → Option α) (N : ℕ) :
    picks f N =
      picks (fun i => if P i then f i else none) N + picks (fun i => if P i then none else f i) N :=
  selects_split P f _

/-- A value that is picked once comes from one place. -/
theorem picks_inj (h : (picks f N).Nodup) (hi : i < N) (hj : j < N) (hfi : f i = some a)
    (hfj : f j = some a) : i = j := by
  by_contra hne
  have hne' : ∀ {i j : ℕ}, i < N → j < N → f i = some a → f j = some a → ¬i < j := by
    intro i j hi hj hfi hfj hlt
    have hp := pairwise_filterMap.1 (Multiset.coe_nodup.1 h)
    have := pairwise_iff_getElem.1 hp i j (by simpa using hi) (by simpa using hj) hlt
    exact this a (by simpa using hfi) a (by simpa using hfj) rfl
  rcases Nat.lt_or_gt_of_ne hne with hlt | hlt
  · exact hne' hi hj hfi hfj hlt
  · exact hne' hj hi hfj hfi hlt

theorem range_split (hm : m ≤ N) : range N = range m ++ range' m (N - m) := by
  have happ := range'_append_1 (s := 0) (m := m) (n := N - m)
  rw [Nat.zero_add, Nat.add_sub_cancel' hm] at happ
  rw [range_eq_range', range_eq_range', happ]

/-- No more values than places that can have one. -/
theorem card_picks_le (hm : m ≤ N) (h : ∀ i < m, f i = none) : (picks f N).card ≤ N - m := by
  have hnil : (range m).filterMap f = [] :=
    filterMap_eq_nil_iff.2 fun i hi => h i (mem_range.1 hi)
  rw [picks_eq, Multiset.coe_card, range_split hm, filterMap_append, hnil, nil_append]
  exact (length_filterMap_le _ _).trans (by rw [length_range'])

theorem card_picks_le_of_ge (h : ∀ i, m ≤ i → i < N → f i = none) : (picks f N).card ≤ m := by
  rcases Nat.le_total N m with hN | hN
  · rw [picks_eq, Multiset.coe_card]
    exact ((length_filterMap_le _ _).trans (by rw [length_range])).trans hN
  · have hnil : (range' m (N - m)).filterMap f = [] :=
      filterMap_eq_nil_iff.2 fun i hi => by
        have := mem_range'_1.1 hi
        exact h i this.1 (by omega)
    rw [picks_eq, Multiset.coe_card, range_split hN, filterMap_append, hnil, append_nil]
    exact (length_filterMap_le _ _).trans (by rw [length_range])

end Picks

attribute [irreducible] selects picks

end Xv6.Lib
