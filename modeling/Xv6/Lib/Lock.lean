/-
# Locks and the threads that hold them

Each thread is at a point of its code, and the point says whether it holds a lock.  `Held`
is that the lock's record of its holder agrees; a step of one thread keeps it if the thread
acquires the lock when it is free, releases it when it holds it, or does neither.

`HeldEach` is the same for a family of locks of which a thread holds one at a time.
-/

import Mathlib.Logic.Function.Basic

namespace Xv6.Lib

open Function Option

variable {P T : Type*} {holds : T → Bool} {thread : P → T} {lock : Option P} {p : P} {t : T}

/-- The threads that hold the lock are those the lock names. -/
def Held (holds : T → Bool) (thread : P → T) (lock : Option P) : Prop :=
  ∀ p, holds (thread p) = true ↔ lock = some p

theorem Held.lock_eq (h : Held holds thread lock) (hp : holds (thread p) = true) :
    lock = some p := (h p).1 hp

theorem Held.eq_false (h : Held holds thread lock) (hl : lock = some p) {q : P} (hq : q ≠ p) :
    holds (thread q) = false := by
  by_contra hc
  have hlq := h.lock_eq (eq_true_of_ne_false hc)
  exact hq (some.inj (hlq.symm.trans hl))

/-- No thread holds a lock that is free. -/
theorem Held.eq_false_of_none (h : Held holds thread none) (q : P) : holds (thread q) = false := by
  by_contra hc
  cases h.lock_eq (eq_true_of_ne_false hc)

variable [DecidableEq P]

theorem Held.keep (h : Held holds thread lock) (ht : holds t = holds (thread p)) :
    Held holds (update thread p t) lock := fun q => by
  by_cases hq : q = p
  · rw [hq, update_self, ht]
    exact h p
  · rw [update_of_ne hq]
    exact h q

theorem Held.acquire (h : Held holds thread lock) (hl : lock = none) (ht : holds t = true) :
    Held holds (update thread p t) (some p) := fun q => by
  subst hl
  by_cases hq : q = p
  · rw [hq, update_self, ht]
    exact ⟨fun _ => rfl, fun _ => rfl⟩
  · rw [update_of_ne hq, h.eq_false_of_none q]
    exact ⟨fun hc => (by cases hc), fun hc => absurd (some.inj hc).symm hq⟩

theorem Held.release (h : Held holds thread lock) (hp : holds (thread p) = true)
    (ht : holds t = false) : Held holds (update thread p t) none := fun q => by
  by_cases hq : q = p
  · rw [hq, update_self, ht]
    exact ⟨fun hc => (by cases hc), nofun⟩
  · rw [update_of_ne hq, h.eq_false (h.lock_eq hp) hq]
    exact ⟨fun hc => (by cases hc), nofun⟩

/-! ### A family of locks -/

section Family

variable {K : Type*} {which : T → Option K} {locks : K → Option P} {k : K}

omit [DecidableEq P] in
/-- The point says which of the locks the thread holds, and the locks agree. -/
def HeldEach (which : T → Option K) (thread : P → T) (locks : K → Option P) : Prop :=
  ∀ p k, which (thread p) = some k ↔ locks k = some p

variable (h : HeldEach which thread locks)

include h

omit [DecidableEq P] in
theorem HeldEach.lock_eq (hp : which (thread p) = some k) : locks k = some p := (h p k).1 hp

omit [DecidableEq P] in
theorem HeldEach.ne (hl : locks k = some p) {q : P}
    (hq : q ≠ p) : which (thread q) ≠ some k := fun hc =>
  hq (some.inj ((h.lock_eq hc).symm.trans hl))

theorem HeldEach.keep (ht : which t = which (thread p)) :
    HeldEach which (update thread p t) locks := fun q k => by
  by_cases hq : q = p
  · rw [hq, update_self, ht]
    exact h p k
  · rw [update_of_ne hq]
    exact h q k

omit h

variable [DecidableEq K]

theorem HeldEach.acquire (h : HeldEach which thread locks) (hl : locks k = none)
    (hp : which (thread p) = none) (ht : which t = some k) :
    HeldEach which (update thread p t) (update locks k (some p)) := fun q k' => by
  by_cases hq : q = p
  · rw [hq, update_self, ht]
    by_cases hk : k' = k
    · rw [hk, update_self]
      exact ⟨fun _ => rfl, fun _ => rfl⟩
    · rw [update_of_ne hk, ← h p k', hp]
      exact ⟨fun hc => absurd (some.inj hc).symm hk, nofun⟩
  · rw [update_of_ne hq]
    by_cases hk : k' = k
    · rw [hk, update_self, h q k, hl]
      exact ⟨fun hc => (by cases hc), fun hc => absurd (some.inj hc).symm hq⟩
    · rw [update_of_ne hk]
      exact h q k'

theorem HeldEach.release (h : HeldEach which thread locks) (hp : which (thread p) = some k)
    (ht : which t = none) :
    HeldEach which (update thread p t) (update locks k none) := fun q k' => by
  by_cases hq : q = p
  · rw [hq, update_self, ht]
    by_cases hk : k' = k
    · rw [hk, update_self]
      exact ⟨fun hc => (by cases hc), nofun⟩
    · rw [update_of_ne hk, ← h p k', hp]
      exact ⟨fun hc => (by cases hc), fun hc => absurd (some.inj hc).symm hk⟩
  · rw [update_of_ne hq]
    by_cases hk : k' = k
    · rw [hk, update_self]
      exact ⟨fun hc => absurd hc (h.ne (h.lock_eq hp) hq), nofun⟩
    · rw [update_of_ne hk]
      exact h q k'

end Family

end Xv6.Lib
