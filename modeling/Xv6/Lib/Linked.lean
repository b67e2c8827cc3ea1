/-
# Linked lists in a memory

`next` gives the successor of a node.  `Linked next l c` says that the nodes `l` are linked
in this order and that the last one points to `c`; a list is cyclic if its last node points
to its first.  `Linked.rotate` takes a cyclic list from any of its nodes.
-/

import Mathlib.Data.List.Nodup

namespace Xv6.Lib

open List

variable {α : Type*} {next next' : α → α} {a c : α} {l l1 l2 : List α}

/-- The nodes `l` are linked in this order, and the last one points to `c`. -/
def Linked (next : α → α) : List α → α → Prop
  | [], _ => True
  | a :: l, c => next a = l.headD c ∧ Linked next l c

theorem linked_cons : Linked next (a :: l) c ↔ next a = l.headD c ∧ Linked next l c := .rfl

theorem linked_append {l r : List α} :
    Linked next (l ++ r) c ↔ Linked next l (r.headD c) ∧ Linked next r c := by
  induction l with
  | nil => exact ⟨fun h => ⟨trivial, h⟩, fun h => h.2⟩
  | cons a l ih =>
    have hhead : (l ++ r).headD c = l.headD (r.headD c) := by
      cases l <;> rfl
    rw [cons_append, linked_cons, linked_cons, ih, hhead, and_assoc]

theorem Linked.next_eq (h : Linked next (l1 ++ a :: l2) c) : next a = l2.headD c :=
  (linked_append.1 h).2.1

theorem Linked.congr (h : Linked next l c) (hn : ∀ x ∈ l, next' x = next x) : Linked next' l c := by
  induction l with
  | nil => exact trivial
  | cons a l ih =>
    refine ⟨(hn a mem_cons_self).trans h.1, ih h.2 fun x hx => ?_⟩
    exact hn x (mem_cons_of_mem a hx)

/-- The last node points to `c`. -/
theorem Linked.last (h : Linked next (a :: l) c) :
    l.getLastD a ∈ a :: l ∧ next (l.getLastD a) = c := by
  induction l generalizing a with
  | nil => exact ⟨mem_cons_self, h.1⟩
  | cons b l ih =>
    obtain ⟨h1, h2⟩ := ih h.2
    rw [getLastD_cons]
    exact ⟨mem_cons_of_mem _ h1, h2⟩

theorem Linked.map_next (h : Linked next (a :: l) c) : (a :: l).map next = l ++ [c] := by
  induction l generalizing a with
  | nil => exact congrArg (fun x => [x]) h.1
  | cons b l ih =>
    rw [map_cons, ih h.2, h.1]
    rfl

/-- Each node of a cyclic list has one predecessor. -/
theorem Linked.next_inj (h : Linked next (a :: l) a) (hnodup : (a :: l).Nodup) {x y : α}
    (hx : x ∈ a :: l) (hy : y ∈ a :: l) (hxy : next x = next y) : x = y := by
  refine inj_on_of_nodup_map ?_ hx hy hxy
  rw [h.map_next]
  exact (perm_append_singleton a l).nodup_iff.2 hnodup

/-- The last node is made to point to another node. -/
theorem Linked.retarget {c' : α} (h : Linked next (a :: l) c) (hnodup : (a :: l).Nodup)
    (hlast : next' (l.getLastD a) = c')
    (hn : ∀ x ∈ a :: l, x ≠ l.getLastD a → next' x = next x) : Linked next' (a :: l) c' := by
  induction l generalizing a with
  | nil => exact ⟨hlast, trivial⟩
  | cons b l ih =>
    rw [getLastD_cons] at hlast hn
    obtain ⟨ha, hnodup⟩ := nodup_cons.1 hnodup
    have hne : a ≠ l.getLastD b := fun hc => ha (hc ▸ h.2.last.1)
    refine ⟨(hn a mem_cons_self hne).trans h.1, ih h.2 hnodup hlast fun x hx => ?_⟩
    exact hn x (mem_cons_of_mem a hx)

/-- A cyclic list, taken from another of its nodes. -/
theorem Linked.rotate {f : α} (h : Linked next (l1 ++ f :: l2) ((l1 ++ f :: l2).headD c)) :
    Linked next (f :: (l2 ++ l1)) f := by
  obtain ⟨h1, h2⟩ := linked_append.1 h
  change Linked next ((f :: l2) ++ l1) f
  refine linked_append.2 ⟨?_, h1⟩
  cases l1 with
  | nil => exact h2
  | cons a l1 => exact h2

end Xv6.Lib
