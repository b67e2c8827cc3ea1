/-
# Programs with state and failure

A program is a state transformer that returns or fails (`Prog`): it fails by a
`panic`, which names its message, or by waiting for an event that will never
come (`Fail.sleep`).  `wp m E Q s` is its weakest precondition: started in `s`,
`m` either returns with `Q` or fails with `E`.  With `E := fun _ => True` it
speaks of the runs that return, with `E := fun _ => False` it says that the run
does return.

`Prog.zoom` runs a program on a part of the state.

The rules below are one for each way of building a program, the consequence
rule `wp_mono`, the conjunction rule `wp_and`, and the invariant rules of the
two loops used: a loop over a list (`wp_forM`) and a search through a list that
stops at the first hit (`wp_findSomeM?`).

`Refines m m'` compares two programs: wherever `m` returns, `m'` does the same.
-/

import Mathlib.Tactic.SplitIfs

namespace Xv6.Lib

/-- How a program can fail. -/
inductive Fail where
  | panic (msg : String)
  | sleep
deriving DecidableEq

/-- A program over the state `σ`. -/
abbrev Prog (σ : Type) := StateT σ (Except Fail)

variable {σ α β : Type} {R : PUnit → σ → Prop} {m' : Prog σ α}

namespace Prog

/-- Stop the kernel with a message. -/
def panic (msg : String) : Prog σ α := fun _ => .error (.panic msg)

/-- Wait for ever. -/
def sleep : Prog σ α := fun _ => .error .sleep

/-- Run a program on a part of the state. -/
def zoom {τ : Type} (part : σ → τ) (put : σ → τ → σ) (m : Prog τ α) : Prog σ α := fun s =>
  match m (part s) with
  | .ok (a, t) => .ok (a, put s t)
  | .error e => .error e

end Prog

/-- `m` from `s` returns with `Q` or fails with `E`. -/
def wp (m : Prog σ α) (E : Fail → Prop) (Q : α → σ → Prop) (s : σ) : Prop :=
  match m s with
  | .ok (a, s') => Q a s'
  | .error e => E e

variable {m : Prog σ α} {f : α → Prog σ β} {E E' : Fail → Prop} {Q Q' : α → σ → Prop} {s : σ}
  {a : α} {s' : σ}

theorem post_of_wp (hwp : wp m E Q s) (h : m s = .ok (a, s')) : Q a s' := by
  rwa [wp, h] at hwp

/-- A program whose first part returns goes on from there. -/
theorem bind_of_ok (h : m s = .ok (a, s')) : (m >>= f) s = f a s' := by
  simp only [bind, StateT.bind, Except.bind, h]

/-- A program whose first part fails fails. -/
theorem bind_of_error {e : Fail} (h : m s = .error e) : (m >>= f) s = .error e := by
  simp only [bind, StateT.bind, Except.bind, h]

/-- A program that cannot fail returns. -/
theorem exists_ok_of_wp (hwp : wp m (fun _ => False) Q s) : ∃ a s', m s = .ok (a, s') ∧ Q a s' := by
  unfold wp at hwp
  split at hwp
  · exact ⟨_, _, ‹_›, hwp⟩
  · exact hwp.elim

@[simp] theorem wp_pure : wp (pure a : Prog σ α) E Q s ↔ Q a s := Iff.rfl

@[simp] theorem wp_bind {R : β → σ → Prop} :
    wp (m >>= f) E R s ↔ wp m E (fun a s' => wp (f a) E R s') s := by
  simp only [wp, bind, StateT.bind, Except.bind]
  cases m s <;> rfl

@[simp] theorem wp_get {R : σ → σ → Prop} : wp (get : Prog σ σ) E R s ↔ R s s := Iff.rfl

@[simp] theorem wp_set : wp (set s' : Prog σ PUnit) E R s ↔ R ⟨⟩ s' := Iff.rfl

@[simp] theorem wp_modify {g : σ → σ} : wp (modify g : Prog σ PUnit) E R s ↔ R ⟨⟩ (g s) := Iff.rfl

@[simp] theorem wp_panic {msg : String} : wp (Prog.panic msg) E Q s ↔ E (.panic msg) := Iff.rfl

@[simp] theorem wp_sleep : wp Prog.sleep E Q s ↔ E .sleep := Iff.rfl

theorem wp_zoom {τ : Type} {part : σ → τ} {put : σ → τ → σ} {m : Prog τ α} :
    wp (m.zoom part put) E Q s ↔ wp m E (fun a t => Q a (put s t)) (part s) := by
  simp only [wp, Prog.zoom]
  cases m (part s) <;> rfl

theorem wp_ite {c : Prop} [Decidable c] :
    wp (if c then m else m') E Q s ↔ (c → wp m E Q s) ∧ (¬ c → wp m' E Q s) := by
  split_ifs with h <;> simp [h]

/-- The consequence rule. -/
theorem wp_mono (h : wp m E Q s) (hQ : ∀ a s', Q a s' → Q' a s') : wp m E Q' s := by
  unfold wp at *
  cases hm : m s with
  | ok r => rw [hm] at h; exact hQ _ _ h
  | error e => rw [hm] at h; exact h

/-- A program that may fail anyhow. -/
theorem wp_of_forall (hQ : ∀ a s', Q a s') : wp m (fun _ => True) Q s := by
  unfold wp
  split
  · exact hQ _ _
  · trivial

theorem wp_mono_fail (h : wp m E Q s) (hE : ∀ e, E e → E' e) : wp m E' Q s := by
  unfold wp at *
  cases hm : m s with
  | ok r => rw [hm] at h; exact h
  | error e => rw [hm] at h; exact hE _ h

/-- The conjunction rule: a program has one outcome. -/
theorem wp_and (h : wp m E Q s) (h' : wp m E' Q' s) :
    wp m (fun e => E e ∧ E' e) (fun a s' => Q a s' ∧ Q' a s') s := by
  unfold wp at *
  cases hm : m s with
  | ok r => rw [hm] at h h'; exact ⟨h, h'⟩
  | error e => rw [hm] at h h'; exact ⟨h, h'⟩

/-- **A loop over a list.**  `I l` holds with `l` still to do. -/
theorem wp_forM {g : α → Prog σ PUnit} (I : List α → σ → Prop)
    (hstep : ∀ a l s, I (a :: l) s → wp (g a) E (fun _ s' => I l s') s)
    (hend : ∀ s, I [] s → R ⟨⟩ s) : ∀ {l : List α} {s : σ}, I l s → wp (forM l g) E R s
  | [], s, h => hend s h
  | a :: l, s, h => by
    rw [List.forM_cons, wp_bind]
    exact wp_mono (hstep a l s h) fun _ _ h' => wp_forM I hstep hend h'

/-- **A search through a list.**  `I l` holds with `l` still to look at; a hit
ends the search with `R (some b)`, the end of the list with `R none`. -/
theorem wp_findSomeM? {g : α → Prog σ (Option β)} {R : Option β → σ → Prop}
    (I : List α → σ → Prop)
    (hstep : ∀ a l s, I (a :: l) s →
      wp (g a) E (fun r s' => match r with | some b => R (some b) s' | none => I l s') s)
    (hend : ∀ s, I [] s → R none s) :
    ∀ {l : List α} {s : σ}, I l s → wp (l.findSomeM? g) E R s
  | [], s, h => hend s h
  | a :: l, s, h => by
    rw [List.findSomeM?, wp_bind]
    refine wp_mono (hstep a l s h) fun r s' h' => ?_
    cases r with
    | none => exact wp_findSomeM? I hstep hend h'
    | some b => exact h'

/-! ## Programs that return more often -/

/-- Wherever `m` returns, so does `m'`, with the same result. -/
def Refines (m m' : Prog σ α) : Prop := ∀ s x, m s = .ok x → m' s = .ok x

theorem Refines.refl (m : Prog σ α) : Refines m m := fun _ _ h => h

theorem Refines.bind {m : Prog σ α} {f f' : α → Prog σ β} (h : Refines m m')
    (hf : ∀ a, Refines (f a) (f' a)) : Refines (m >>= f) (m' >>= f') := by
  intro s x hx
  cases hm : m s with
  | error e =>
    rw [bind_of_error hm] at hx
    cases hx
  | ok y =>
    rw [bind_of_ok hm] at hx
    rw [bind_of_ok (h s y hm)]
    exact hf _ _ _ hx

/-- A program that returns, wherever another one is known to. -/
theorem wp_of_refines {m : Prog σ α} (h : Refines m m') (hwp : wp m (fun _ => False) Q s) :
    wp m' E Q s := by
  obtain ⟨a, s', hm, hQ⟩ := exists_ok_of_wp hwp
  rw [wp, h s (a, s') hm]
  exact hQ

theorem wp_congr (h : m s = m' s) : wp m E Q s ↔ wp m' E Q s := by
  rw [wp, wp, h]

/-- Programs with the same outcomes are the same. -/
theorem eq_of_wp (h : ∀ E Q, wp m E Q s → wp m' E Q s) : m s = m' s := by
  have hwp := h (fun e => m s = .error e) (fun a s' => m s = .ok (a, s')) (by
    unfold wp
    cases m s <;> rfl)
  unfold wp at hwp
  split at hwp
  · rename_i hm'
    rw [hm', hwp]
  · rename_i hm'
    rw [hm', hwp]

attribute [irreducible] wp

end Xv6.Lib
