/-
# Runs of a system of steps

A system is given by its steps: `step s a` is `none` where `a` cannot be made in
`s`, an error where it stops the system, and the next state otherwise.  `Reaches`
is the relation of any number of steps, `Reaches.inv` the rule by which what
every step keeps holds after a run, and `runSteps` makes a list of steps, so that
a state can be shown to be reached by computing it.  `only` leaves out the steps that
do not meet a condition.
-/

import Mathlib.Logic.Relation

namespace Xv6.Lib

variable {σ α ε : Type*} (step : σ → α → Option (Except ε σ))

/-- `s'` comes from `s` by a number of steps. -/
def Reaches : σ → σ → Prop :=
  Relation.ReflTransGen fun s s' => ∃ a, step s a = some (.ok s')

variable {step}

/-- What every step keeps holds after a run. -/
theorem Reaches.inv {I : σ → Prop} (hI : ∀ s a s', I s → step s a = some (.ok s') → I s')
    {s s' : σ} (h : Reaches step s s') (hs : I s) : I s' := by
  induction h with
  | refl => exact hs
  | tail _ h ih =>
    obtain ⟨a, ha⟩ := h
    exact hI _ a _ ih ha

variable (step) in
/-- The state after the steps `as`. -/
def runSteps (s : σ) : List α → Option σ
  | [] => some s
  | a :: as =>
      match step s a with
      | some (.ok s') => runSteps s' as
      | _ => none

/-- A computed run is a run. -/
theorem reaches_of_runSteps : ∀ {as : List α} {s s' : σ}, runSteps step s as = some s' →
    Reaches step s s'
  | [], s, s', h => by
    cases h
    exact .refl
  | a :: as, s, s', h => by
    simp only [runSteps] at h
    split at h
    · rename_i s1 ha
      exact .head ⟨a, ha⟩ (reaches_of_runSteps h)
    · cases h

variable (step) in
/-- The steps `as` lead to a state with `p`. -/
abbrev Leads (s : σ) (as : List α) (p : σ → Prop) : Prop := ∃ s' ∈ runSteps step s as, p s'

theorem Leads.reaches {s : σ} {as : List α} {p : σ → Prop} (h : Leads step s as p) :
    ∃ s', Reaches step s s' ∧ p s' := by
  obtain ⟨s', hs, hp⟩ := h
  exact ⟨s', reaches_of_runSteps hs, hp⟩

variable (step) in
/-- The steps that meet a condition. -/
def only (P : σ → α → Bool) (s : σ) (a : α) : Option (Except ε σ) :=
  if P s a then step s a else none

theorem only_eq_some {P : σ → α → Bool} {s : σ} {a : α} {r : Except ε σ} :
    only step P s a = some r ↔ P s a = true ∧ step s a = some r := by
  rw [only, Option.ite_none_right_eq_some]

end Xv6.Lib
