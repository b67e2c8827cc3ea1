/-
# Doubly linked lists around a sentinel

The nodes are the elements of a type and the sentinel `none`; `next` and `prev` are the
memory of the links.  `Cycle k l` says that the sentinel and the elements `l` are linked
into one cycle, in this order, and that `prev` undoes `next` on it.  `unlink` and
`pushFront` are the usual assignments, one after the other, and keep a cycle
(`Cycle.unlink`, `Cycle.pushFront`).  `search` follows links up to the sentinel;
with fuel for the length of the list it is `List.find?` (`Cycle.search_next`,
`Cycle.search_prev`).
-/

import Xv6.Lib.Linked

namespace Xv6.Lib

open Function List

variable {α : Type*} {p : α → Bool} {fuel : ℕ}

/-- The links of the nodes; `none` is the sentinel. -/
structure Links (α : Type*) where
  next : Option α → Option α
  prev : Option α → Option α

/-- The sentinel and the elements `l` form one cycle, in this order. -/
structure Cycle (k : Links α) (l : List α) : Prop where
  linked : Linked k.next (none :: l.map some) none
  nodup : l.Nodup
  prev_next : ∀ x ∈ none :: l.map some, k.prev (k.next x) = x

/-- Follow the links from a node to the first element with `p`, or to the sentinel;
`none` if the fuel does not suffice. -/
def search (link : Option α → Option α) (p : α → Bool) : ℕ → Option α → Option (Option α)
  | 0, _ => none
  | _ + 1, none => some none
  | fuel + 1, some a => if p a then some (some a) else search link p fuel (link (some a))

/-- A search along linked elements is a search in their list. -/
theorem search_eq {link : Option α → Option α} {l : List α}
    (h : Linked link (l.map some) none) (hfuel : l.length < fuel) :
    search link p fuel ((l.map some).headD none) = some (l.find? p) := by
  induction l generalizing fuel with
  | nil =>
    obtain ⟨fuel, rfl⟩ := Nat.exists_eq_succ_of_ne_zero (Nat.ne_zero_of_lt hfuel)
    rfl
  | cons a l ih =>
    obtain ⟨fuel, rfl⟩ := Nat.exists_eq_succ_of_ne_zero (Nat.ne_zero_of_lt hfuel)
    obtain ⟨hnext, hrest⟩ := linked_cons.1 h
    rw [map_cons, headD_cons, search, find?_cons]
    cases hp : p a with
    | true => rfl
    | false =>
      rw [hnext, if_neg Bool.false_ne_true]
      exact ih hrest (Nat.lt_of_succ_lt_succ hfuel)

/-- Links that undo those of a list link it in the other direction. -/
theorem Linked.reverse {next prev : α → α} {a c : α} {l : List α} (h : Linked next (a :: l) c)
    (hinv : ∀ x ∈ a :: l, prev (next x) = x) : Linked prev l.reverse a := by
  induction l generalizing a with
  | nil => exact trivial
  | cons b l ih =>
    rw [reverse_cons]
    refine linked_append.2 ⟨ih h.2 fun x hx => hinv x (mem_cons_of_mem a hx), ?_, trivial⟩
    rw [← show next a = b from h.1]
    exact hinv a mem_cons_self

namespace Cycle

variable {k : Links α} {l : List α}

variable (h : Cycle k l)

include h

theorem nodup_nodes : (none :: l.map some).Nodup := by
  refine nodup_cons.2 ⟨by simp, ?_⟩
  exact h.nodup.map fun a b => Option.some.inj

theorem next_mem {x : Option α} (hx : x ∈ none :: l.map some) : k.next x ∈ none :: l.map some := by
  have hmem := mem_map_of_mem (f := k.next) hx
  rw [h.linked.map_next] at hmem
  exact (perm_append_singleton none (l.map some)).mem_iff.1 hmem

/-- Every node is the successor of its predecessor. -/
theorem prev_mem {x : Option α} (hx : x ∈ none :: l.map some) :
    k.prev x ∈ none :: l.map some ∧ k.next (k.prev x) = x := by
  rw [← (perm_append_singleton none (l.map some)).mem_iff, ← h.linked.map_next] at hx
  obtain ⟨y, hy, rfl⟩ := mem_map.1 hx
  rw [h.prev_next y hy]
  exact ⟨hy, rfl⟩

/-- The search from the front. -/
theorem search_next (hfuel : l.length < fuel) :
    search k.next p fuel (k.next none) = some (l.find? p) := by
  obtain ⟨hfirst, hrest⟩ := linked_cons.1 h.linked
  rw [hfirst]
  exact search_eq hrest hfuel

/-- The search from the back. -/
theorem search_prev (hfuel : l.length < fuel) :
    search k.prev p fuel (k.prev none) = some (l.reverse.find? p) := by
  have hback : Linked k.prev (l.reverse.map some) none := by
    rw [map_reverse]
    exact h.linked.reverse h.prev_next
  have hlast : k.prev none = (l.reverse.map some).headD none := by
    obtain ⟨hmem, hnone⟩ := h.linked.last
    have hprev := h.prev_next _ hmem
    rw [hnone] at hprev
    rw [hprev, map_reverse, headD_eq_head?_getD, head?_reverse, getLastD_eq_getLast?]
  rw [hlast]
  exact search_eq hback (by rwa [length_reverse])

end Cycle

namespace Links

variable [DecidableEq α]

/-- A sentinel on its own. -/
def reset (k : Links α) : Links α :=
  ⟨update k.next none none, update k.prev none none⟩

/-- Take a node out: `b->next->prev = b->prev; b->prev->next = b->next;`. -/
def unlink (k : Links α) (b : Option α) : Links α :=
  let k := { k with prev := update k.prev (k.next b) (k.prev b) }
  { k with next := update k.next (k.prev b) (k.next b) }

/-- Put a node behind the sentinel: `b->next = head.next; b->prev = &head;
head.next->prev = b; head.next = b;`. -/
def pushFront (k : Links α) (b : Option α) : Links α :=
  let k := { k with next := update k.next b (k.next none) }
  let k := { k with prev := update k.prev b none }
  let k := { k with prev := update k.prev (k.next none) b }
  { k with next := update k.next none b }

end Links

variable [DecidableEq α] {k : Links α} {l : List α}

theorem cycle_reset : Cycle k.reset [] := by
  have hnext : k.reset.next none = none := by simp [Links.reset]
  have hprev : k.reset.prev none = none := by simp [Links.reset]
  refine ⟨⟨hnext, trivial⟩, nodup_nil, fun x hx => ?_⟩
  obtain rfl := mem_singleton.1 hx
  rw [hnext, hprev]

/-- An element outside the cycle is put at the front. -/
theorem Cycle.pushFront (h : Cycle k l) {b : α} (hb : b ∉ l) :
    Cycle (k.pushFront (some b)) (b :: l) := by
  have hb' : some b ∉ none :: l.map some := by simpa using hb
  have hfirst := h.next_mem mem_cons_self
  have hnext : ∀ x, (k.pushFront (some b)).next x =
      if x = none then some b else if x = some b then k.next none else k.next x := by
    intro x
    simp only [Links.pushFront, update_apply]
  have hprev : ∀ x, (k.pushFront (some b)).prev x =
      if x = k.next none then some b else if x = some b then none else k.prev x := by
    intro x
    simp [Links.pushFront, update_apply]
  have hmember : ∀ x ∈ l.map some, x ≠ none ∧ x ≠ some b := by
    intro x hx
    refine ⟨fun hc => ?_, fun hc => hb' (hc ▸ mem_cons_of_mem _ hx)⟩
    rw [hc] at hx
    simp at hx
  refine ⟨⟨?_, ?_, ?_⟩, nodup_cons.2 ⟨hb, h.nodup⟩, ?_⟩
  · exact (hnext none).trans (if_pos rfl)
  · rw [hnext, if_neg (Option.some_ne_none b), if_pos rfl]
    exact (linked_cons.1 h.linked).1
  · refine (linked_cons.1 h.linked).2.congr fun x hx => ?_
    rw [hnext, if_neg (hmember x hx).1, if_neg (hmember x hx).2]
  · intro x hx
    rw [map_cons, mem_cons, mem_cons] at hx
    rcases hx with rfl | rfl | hx
    · have hne : some b ≠ k.next none := fun hc => hb' (hc ▸ hfirst)
      rw [hnext, if_pos rfl, hprev, if_neg hne, if_pos rfl]
    · rw [hnext, if_neg (Option.some_ne_none b), if_pos rfl, hprev, if_pos rfl]
    · have hx' := mem_cons_of_mem none hx
      have hne : k.next x ≠ k.next none := fun hc =>
        (hmember x hx).1 (h.linked.next_inj h.nodup_nodes hx' mem_cons_self hc)
      have hne' : k.next x ≠ some b := fun hc => hb' (hc ▸ h.next_mem hx')
      rw [hnext, if_neg (hmember x hx).1, if_neg (hmember x hx).2, hprev, if_neg hne, if_neg hne']
      exact h.prev_next x hx'

/-- An element of the cycle is taken out. -/
theorem Cycle.unlink (h : Cycle k l) {b : α} (hb : b ∈ l) :
    Cycle (k.unlink (some b)) (l.erase b) := by
  obtain ⟨l1, l2, rfl⟩ := append_of_mem hb
  have hnodup := h.nodup_nodes
  have hsplit : none :: (l1 ++ b :: l2).map some =
      (none :: l1.map some) ++ some b :: l2.map some := by
    simp
  obtain ⟨hlinked, hl, hprev_next⟩ := h
  rw [hsplit] at hlinked hnodup hprev_next
  obtain ⟨hbefore, hafter⟩ := linked_append.1 hlinked
  obtain ⟨hnb, hrest⟩ := linked_cons.1 hafter
  obtain ⟨hd1, hd2, hdisj⟩ := nodup_append.1 hnodup
  -- the predecessor of `b` is the last node before it
  set a := (l1.map some).getLastD none with hadef
  obtain ⟨hamem, hab⟩ := hbefore.last
  have hpb : k.prev (some b) = a := by
    have hinv := hprev_next a (mem_append_left _ hamem)
    rwa [show k.next a = some b from hab] at hinv
  have hnext : ∀ x, (k.unlink (some b)).next x = if x = a then k.next (some b) else k.next x := by
    intro x
    have hself : update k.prev (k.next (some b)) (k.prev (some b)) (some b) = a := by
      rw [update_apply, hpb, ite_self]
    simp only [Links.unlink, hself, update_apply]
  have hprev : ∀ x, (k.unlink (some b)).prev x = if x = k.next (some b) then a else k.prev x := by
    intro x
    simp only [Links.unlink, hpb, update_apply]
  have hb1 : b ∉ l1 := fun hc =>
    hdisj (some b) (by simp [hc]) (some b) mem_cons_self rfl
  have herase : (l1 ++ b :: l2).erase b = l1 ++ l2 := by
    rw [erase_append_right _ hb1, erase_cons_head]
  have hnodes : none :: (l1 ++ l2).map some = (none :: l1.map some) ++ l2.map some := by simp
  rw [herase]
  refine ⟨?_, ?_, ?_⟩
  · rw [hnodes]
    refine linked_append.2 ⟨hbefore.retarget hd1 ?_ fun x _ hx => ?_, hrest.congr fun x hx => ?_⟩
    · rw [← hadef, hnext, if_pos rfl, hnb]
    · rw [hnext, if_neg hx]
    · rw [hnext, if_neg]
      rintro rfl
      exact hdisj _ hamem _ (mem_cons_of_mem _ hx) rfl
  · rw [← herase]
    exact hl.erase b
  · rw [hnodes]
    intro x hx
    by_cases hxa : x = a
    · rw [hnext, if_pos hxa, hprev, if_pos rfl, hxa]
    · have hx' : x ∈ (none :: l1.map some) ++ some b :: l2.map some :=
        mem_append.2 ((mem_append.1 hx).imp_right (mem_cons_of_mem _))
      have hxb : x ≠ some b := by
        rintro rfl
        rcases mem_append.1 hx with hx | hx
        · exact hdisj _ hx _ mem_cons_self rfl
        · exact (nodup_cons.1 hd2).1 hx
      have hbmem : some b ∈ (none :: l1.map some) ++ some b :: l2.map some :=
        mem_append_right _ mem_cons_self
      have hne : k.next x ≠ k.next (some b) := fun hc =>
        hxb (hlinked.next_inj hnodup hx' hbmem hc)
      rw [hnext, if_neg hxa, hprev, if_neg hne]
      exact hprev_next x hx'

end Xv6.Lib
