/-
# Sequences of atomic writes

A store is a map from addresses to values; a program's effect on it is a list
of writes, each atomic, made in order.  A crash leaves a prefix of the list
(`List.take`), so the states a crash can leave are `applyWrites d (ws.take k)`.

The two facts a recovery argument needs are that writes to other addresses do
not matter (`applyWrites_of_notMem`) and that a list of writes over distinct
addresses leaves each address its own value, whatever was there before
(`applyWrites_of_mem`).
-/

import Mathlib.Data.List.Nodup
import Mathlib.Logic.Function.Basic

namespace Xv6.Lib

open Function List

variable {α β : Type*} [DecidableEq α] {x : α}

/-- The store after the writes `ws`, in order. -/
def applyWrites (d : α → β) (ws : List (α × β)) : α → β :=
  ws.foldl (fun d w => update d w.1 w.2) d

@[simp] theorem applyWrites_nil (d : α → β) : applyWrites d [] = d := rfl

@[simp] theorem applyWrites_cons (d : α → β) (w : α × β) (ws : List (α × β)) :
    applyWrites d (w :: ws) = applyWrites (update d w.1 w.2) ws := rfl

theorem applyWrites_append (d : α → β) (ws vs : List (α × β)) :
    applyWrites d (ws ++ vs) = applyWrites (applyWrites d ws) vs := by
  simp [applyWrites]

/-- An address no write names keeps its value. -/
theorem applyWrites_of_notMem :
    ∀ {ws : List (α × β)} {d : α → β}, (∀ w ∈ ws, w.1 ≠ x) → applyWrites d ws x = d x
  | [], _, _ => rfl
  | w :: ws, d, h => by
    rw [applyWrites_cons, applyWrites_of_notMem fun v hv => h v (mem_cons_of_mem _ hv),
      update_of_ne (h w mem_cons_self).symm]

/-- **A write over distinct addresses is the value left there**, whatever the
store held before. -/
theorem applyWrites_of_mem {v : β} :
    ∀ {ws : List (α × β)} {d : α → β}, (ws.map Prod.fst).Nodup → (x, v) ∈ ws →
      applyWrites d ws x = v
  | w :: ws, d, hnd, hm => by
    rw [map_cons, nodup_cons] at hnd
    rcases mem_cons.1 hm with rfl | hm
    · rw [applyWrites_cons, applyWrites_of_notMem, update_self]
      rintro u hu rfl
      exact hnd.1 (mem_map.2 ⟨u, hu, rfl⟩)
    · rw [applyWrites_cons]
      exact applyWrites_of_mem hnd.2 hm

/-- Writes of the values of `D` keep an agreement with `D`. -/
theorem applyWrites_agree {D : α → β} :
    ∀ {ws : List (α × β)} {d : α → β}, (∀ w ∈ ws, w.2 = D w.1) → d x = D x →
      applyWrites d ws x = D x
  | [], _, _, hx => hx
  | w :: ws, d, h, hx => by
    rw [applyWrites_cons]
    refine applyWrites_agree (fun v hv => h v (mem_cons_of_mem _ hv)) ?_
    by_cases hwx : x = w.1
    · rw [hwx, update_self, h w mem_cons_self]
    · rw [update_of_ne hwx, hx]

/-- Writes of the values of `D` bring about an agreement where they write. -/
theorem applyWrites_agree_of_mem {D : α → β} :
    ∀ {ws : List (α × β)} {d : α → β}, (∀ w ∈ ws, w.2 = D w.1) → (∃ w ∈ ws, w.1 = x) →
      applyWrites d ws x = D x
  | w :: ws, d, h, ⟨v, hv, hx⟩ => by
    have hws : ∀ u ∈ ws, u.2 = D u.1 := fun u hu => h u (mem_cons_of_mem _ hu)
    rw [applyWrites_cons]
    rcases mem_cons.1 hv with rfl | hv
    · exact applyWrites_agree hws (by rw [← hx, update_self, h v mem_cons_self])
    · exact applyWrites_agree_of_mem hws ⟨v, hv, hx⟩

/-- `P` holds of the store after every prefix of the writes `ws`. -/
def Along (P : (α → β) → Prop) (d : α → β) (ws : List (α × β)) : Prop :=
  ∀ k, P (applyWrites d (ws.take k))

variable {P : (α → β) → Prop} {d : α → β} {ws : List (α × β)}

theorem along_nil : Along P d [] ↔ P d := by simp [Along]

theorem along_singleton {w : α × β} : Along P d [w] ↔ P d ∧ P (applyWrites d [w]) := by
  refine ⟨fun h => ⟨h 0, h 1⟩, fun h k => ?_⟩
  cases k with
  | zero => exact h.1
  | succ k => simpa using h.2

/-- **The prefixes of two runs of writes**: those of the first, then those of
the second from where the first ends. -/
theorem along_append {vs : List (α × β)} :
    Along P d (ws ++ vs) ↔ Along P d ws ∧ Along P (applyWrites d ws) vs := by
  refine ⟨fun h => ⟨fun k => ?_, fun k => ?_⟩, fun h k => ?_⟩
  · have := h (min k ws.length)
    rwa [take_append_of_le_length (by omega), take_eq_take_min.symm] at this
  · have := h (ws.length + k)
    rwa [take_length_add_append, applyWrites_append] at this
  · rcases Nat.le_total k ws.length with hk | hk
    · rw [take_append_of_le_length hk]
      exact h.1 k
    · obtain ⟨j, rfl⟩ := Nat.exists_eq_add_of_le hk
      rw [take_length_add_append, applyWrites_append]
      exact h.2 j

theorem Along.last (h : Along P d ws) : P (applyWrites d ws) := by
  simpa using h ws.length

theorem Along.mono {Q : (α → β) → Prop} (h : Along P d ws)
    (hPQ : ∀ d, P d → Q d) : Along Q d ws := fun k => hPQ _ (h k)

end Xv6.Lib
