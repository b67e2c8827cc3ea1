/-
# Operations on the log

`log.c`: `begin_op`, `log_write` and `end_op` on `struct log`, and the system of
any number of processes that call them.  `log_write` has two parts, the check
of the limits, made without `log.lock`, and the absorption or append under the
lock; in `Step` they are separate steps, so that other processes come between
them, and in `AtomicStep` they are one.

A process calls `log_write` only between its own `begin_op` and `end_op`, and
passes at most `MAXOPBLOCKS` distinct block numbers to it in one operation; the
numbers passed so far are part of its state.
-/

import Xv6.Mkfs.Geometry
import Mathlib.Data.Finset.Card
import Mathlib.Logic.Relation

namespace Xv6.Log

/-- `struct log`: `lh` is the list of the first `lh.n` entries of `lh.block`. -/
structure State where
  start : ℕ
  size : ℕ
  outstanding : ℤ
  committing : Bool
  lh : List UInt32

namespace State

/-- `initlog`, after the recovery: the region of the superblock, nothing logged. -/
def init (sb : Fs.Superblock) : State := ⟨sb.logstart.toNat, sb.nlog.toNat, 0, false, []⟩

variable (l : State)

/-- One round of the loop of `begin_op`: `none` where it sleeps. -/
def beginOp : Option State :=
  if l.committing then none
  else if LOGSIZE < (l.lh.length : ℤ) + (l.outstanding + 1) * MAXOPBLOCKS then none
  else some { l with outstanding := l.outstanding + 1 }

/-- The first part of `log_write`: the checks before `log.lock` is taken. -/
def checkLimits : Except String Unit :=
  if LOGSIZE ≤ l.lh.length ∨ (l.size : ℤ) - 1 ≤ l.lh.length then
    .error "too big a transaction"
  else if l.outstanding < 1 then .error "log_write outside of trans"
  else .ok ()

/-- The second part of `log_write`, under `log.lock`: absorb or append. -/
def record (b : UInt32) : State := { l with lh := if b ∈ l.lh then l.lh else l.lh ++ [b] }

/-- `log_write` run in one piece. -/
def logWrite (b : UInt32) : Except String State := l.checkLimits.map fun _ => l.record b

/-- `end_op` up to its `release`: the new state, and whether this call commits. -/
def endOp : Except String (State × Bool) :=
  if l.committing then .error "log.committing"
  else if l.outstanding - 1 = 0 then
    .ok ({ l with outstanding := l.outstanding - 1, committing := true }, true)
  else .ok ({ l with outstanding := l.outstanding - 1 }, false)

/-- The end of `commit`: `log.lh.n = 0`. -/
def committed : State := { l with lh := [] }

/-- The end of `end_op` after a commit: `log.committing = 0`. -/
def finish : State := { l with committing := false }

end State

/-- Where a process is; `passed` are the block numbers it has passed to
`log_write` in its operation. -/
inductive Pc where
  /-- Outside any operation. -/
  | out
  /-- Between `begin_op` and `end_op`, outside `log_write`. -/
  | inOp (passed : Finset UInt32)
  /-- In `log_write b`, past the check, not yet holding `log.lock`. -/
  | checked (passed : Finset UInt32) (b : UInt32)
  /-- In `commit`. -/
  | committing
  /-- Past `commit`, before `log.committing = 0`. -/
  | committed

/-- The processes and the log. -/
structure Sys (P : Type*) where
  log : State
  pc : P → Pc

variable {P : Type*} [DecidableEq P] {l : State} {s s' : Sys P}

/-- Process `p` moves to `c` and leaves the log as `l`. -/
def Sys.move (s : Sys P) (p : P) (c : Pc) (l : State) : Sys P :=
  ⟨l, Function.update s.pc p c⟩

/-- The start: every process outside, the log as `initlog` leaves it. -/
def Sys.init (sb : Fs.Superblock) : Sys P := ⟨State.init sb, fun _ => .out⟩

/-- A step of a process. -/
inductive Act (P : Type*) where
  | beginOp (p : P)
  | check (p : P) (b : UInt32)
  | record (p : P)
  | endOp (p : P)
  | commit (p : P)
  | finish (p : P)

/-- The effect of a step: `none` where it cannot be made (the process is not
there, it sleeps, or the call would pass too many blocks), an error where the
kernel panics. -/
def step (s : Sys P) : Act P → Option (Except String (Sys P))
  | .beginOp p =>
      match s.pc p with
      | .out => s.log.beginOp.map fun l => .ok (s.move p (.inOp ∅) l)
      | _ => none
  | .check p b =>
      match s.pc p with
      | .inOp passed =>
          if (insert b passed).card ≤ MAXOPBLOCKS then
            some (s.log.checkLimits.map fun _ => s.move p (.checked passed b) s.log)
          else none
      | _ => none
  | .record p =>
      match s.pc p with
      | .checked passed b => some (.ok (s.move p (.inOp (insert b passed)) (s.log.record b)))
      | _ => none
  | .endOp p =>
      match s.pc p with
      | .inOp _ =>
          some (s.log.endOp.map fun r => s.move p (if r.2 then .committing else .out) r.1)
      | _ => none
  | .commit p =>
      match s.pc p with
      | .committing => some (.ok (s.move p .committed s.log.committed))
      | _ => none
  | .finish p =>
      match s.pc p with
      | .committed => some (.ok (s.move p .out s.log.finish))
      | _ => none

/-- One step of any process, the two parts of `log_write` apart, made where
`G` allows it. -/
def StepIn (G : Sys P → Act P → Prop) (s s' : Sys P) : Prop :=
  ∃ a, G s a ∧ step s a = some (.ok s')

/-- One step of any process, `log_write` in one piece, made where `G` allows it. -/
def AtomicStepIn (G : Sys P → Act P → Prop) (s s' : Sys P) : Prop :=
  (∃ a, G s a ∧ (∀ p b, a ≠ .check p b) ∧ step s a = some (.ok s')) ∨
    ∃ p b s₁, G s (.check p b) ∧ step s (.check p b) = some (.ok s₁) ∧
      step s₁ (.record p) = some (.ok s')

/-- Every step is allowed. -/
def anywhere : Sys P → Act P → Prop := fun _ _ => True

instance (s : Sys P) (a : Act P) : Decidable (anywhere s a) := inferInstanceAs (Decidable True)

/-- The states reached by the steps `R` from the start. -/
def Reachable (R : Sys P → Sys P → Prop) (sb : Fs.Superblock) (s : Sys P) : Prop :=
  Relation.ReflTransGen R (Sys.init sb) s

/-! ### What a step can do -/

theorem State.beginOp_eq_some {l' : State} (h : l.beginOp = some l') :
    l.committing = false ∧ (l.lh.length : ℤ) + (l.outstanding + 1) * MAXOPBLOCKS ≤ LOGSIZE ∧
      l' = { l with outstanding := l.outstanding + 1 } := by
  unfold State.beginOp at h
  split_ifs at h with h1 h2
  exact ⟨by simpa using h1, not_lt.1 h2, (Option.some.inj h).symm⟩

theorem State.checkLimits_eq_ok {u : Unit} (h : l.checkLimits = .ok u) :
    l.lh.length < LOGSIZE ∧ l.lh.length + 1 < l.size ∧ 1 ≤ l.outstanding := by
  unfold State.checkLimits at h
  split_ifs at h with h1 h2
  rw [not_or] at h1
  exact ⟨not_le.1 h1.1, by omega, by omega⟩

theorem length_record (l : State) (b : UInt32) : (l.record b).lh.length ≤ l.lh.length + 1 := by
  unfold State.record
  dsimp only
  split_ifs
  · omega
  · simp

theorem mem_record {b c : UInt32} : c ∈ (l.record b).lh ↔ c ∈ l.lh ∨ c = b := by
  unfold State.record
  dsimp only
  split_ifs with h
  · exact ⟨Or.inl, fun hc => hc.elim id fun he => he ▸ h⟩
  · simp

/-- **What each step does**, with the conditions under which it is made: process `p` goes
from one place to another and leaves another log. -/
inductive Move (l : State) (p : P) : Act P → Pc → Pc → State → Prop
  | beginOp (hc : l.committing = false)
      (hroom : (l.lh.length : ℤ) + (l.outstanding + 1) * MAXOPBLOCKS ≤ LOGSIZE) :
      Move l p (.beginOp p) .out (.inOp ∅) { l with outstanding := l.outstanding + 1 }
  | check (S : Finset UInt32) (b : UInt32) (hcard : (insert b S).card ≤ MAXOPBLOCKS)
      (hlen : l.lh.length < LOGSIZE) (hsize : l.lh.length + 1 < l.size) :
      Move l p (.check p b) (.inOp S) (.checked S b) l
  | record (S : Finset UInt32) (b : UInt32) :
      Move l p (.record p) (.checked S b) (.inOp (insert b S)) (l.record b)
  | endLast (S : Finset UInt32) (hc : l.committing = false) (hone : l.outstanding = 1) :
      Move l p (.endOp p) (.inOp S) .committing
        { l with outstanding := l.outstanding - 1, committing := true }
  | endOp (S : Finset UInt32) (hc : l.committing = false) (hne : l.outstanding ≠ 1) :
      Move l p (.endOp p) (.inOp S) .out { l with outstanding := l.outstanding - 1 }
  | commit : Move l p (.commit p) .committing .committed l.committed
  | finish : Move l p (.finish p) .committed .out l.finish

theorem step_eq_ok {a : Act P} (h : step s a = some (.ok s')) :
    ∃ p c c' l, s.pc p = c ∧ Move s.log p a c c' l ∧ s' = s.move p c' l := by
  cases a with
  | beginOp p =>
    simp only [step] at h
    split at h
    · rename_i hp
      obtain ⟨l, hl, he⟩ := Option.map_eq_some_iff.1 h
      obtain ⟨h1, h2, rfl⟩ := State.beginOp_eq_some hl
      exact ⟨p, _, _, _, hp, .beginOp h1 h2, (Except.ok.inj he).symm⟩
    · cases h
  | check p b =>
    simp only [step] at h
    split at h
    · rename_i S hp
      split_ifs at h with hc
      rcases hl : s.log.checkLimits with m | u
      · rw [hl] at h; cases h
      · rw [hl] at h
        obtain ⟨h1, h2, -⟩ := State.checkLimits_eq_ok hl
        exact ⟨p, _, _, _, hp, .check S b hc h1 h2, by cases h; rfl⟩
    · cases h
  | record p =>
    simp only [step] at h
    split at h
    · rename_i S b hp
      exact ⟨p, _, _, _, hp, .record S b, by cases h; rfl⟩
    · cases h
  | endOp p =>
    simp only [step] at h
    split at h
    · rename_i S hp
      unfold State.endOp at h
      split_ifs at h with hc ho
      · cases h
      · exact ⟨p, _, _, _, hp, .endLast S (by simpa using hc) (by omega), by cases h; rfl⟩
      · exact ⟨p, _, _, _, hp, .endOp S (by simpa using hc) (by omega), by cases h; rfl⟩
    · cases h
  | commit p =>
    simp only [step] at h
    split at h
    · rename_i hp
      exact ⟨p, _, _, _, hp, .commit, by cases h; rfl⟩
    · cases h
  | finish p =>
    simp only [step] at h
    split at h
    · rename_i hp
      exact ⟨p, _, _, _, hp, .finish, by cases h; rfl⟩
    · cases h

/-- No step moves the log. -/
theorem step_region {a : Act P} (h : step s a = some (.ok s')) :
    s'.log.start = s.log.start ∧ s'.log.size = s.log.size := by
  obtain ⟨p, c, c', l, -, hm, rfl⟩ := step_eq_ok h
  cases hm <;> exact ⟨rfl, rfl⟩

omit [DecidableEq P] in
/-- The log stays where `initlog` put it. -/
theorem region_of_reachable {sb : Fs.Superblock} {R : Sys P → Sys P → Prop}
    (hR : ∀ s s', R s s' → s'.log.start = s.log.start ∧ s'.log.size = s.log.size)
    (h : Reachable R sb s) :
    s.log.start = sb.logstart.toNat ∧ s.log.size = sb.nlog.toNat := by
  induction h with
  | refl => exact ⟨rfl, rfl⟩
  | tail _ hs ih =>
    obtain ⟨h1, h2⟩ := hR _ _ hs
    exact ⟨h1.trans ih.1, h2.trans ih.2⟩

/-! ### Running a list of steps -/

/-- The state after the steps `as`, each where `G` allows it. -/
def run (G : Sys P → Act P → Prop) [∀ s a, Decidable (G s a)] (s : Sys P) :
    List (Act P) → Option (Sys P)
  | [] => some s
  | a :: as =>
      if G s a then
        match step s a with
        | some (.ok s') => run G s' as
        | _ => none
      else none

theorem run_reaches {G : Sys P → Act P → Prop} [∀ s a, Decidable (G s a)] :
    ∀ {as : List (Act P)} {s s' : Sys P}, run G s as = some s' →
      Relation.ReflTransGen (StepIn G) s s'
  | [], s, s', h => by
    cases h
    exact .refl
  | a :: as, s, s', h => by
    simp only [run] at h
    split_ifs at h with hg
    split at h
    · rename_i s1 hs
      exact .head ⟨a, hg, hs⟩ (run_reaches h)
    · cases h

/-- The state after the steps `as`, each where `G` allows it, with the append of
`log_write` right after its check. -/
def runAtomic (G : Sys P → Act P → Prop) [∀ s a, Decidable (G s a)] (s : Sys P) :
    List (Act P) → Option (Sys P)
  | [] => some s
  | .check p b :: as =>
      if G s (.check p b) then
        match step s (.check p b) with
        | some (.ok s₁) =>
            match step s₁ (.record p) with
            | some (.ok s') => runAtomic G s' as
            | _ => none
        | _ => none
      else none
  | a :: as =>
      if G s a then
        match step s a with
        | some (.ok s') => runAtomic G s' as
        | _ => none
      else none

theorem runAtomic_reaches {G : Sys P → Act P → Prop} [∀ s a, Decidable (G s a)] {as : List (Act P)}
    (h : runAtomic G s as = some s') : Relation.ReflTransGen (AtomicStepIn G) s s' := by
  fun_induction runAtomic G s as with
  | case1 s =>
    cases h
    exact .refl
  | case2 s p b as hg s1 hs1 s2 hs2 ih => exact .head (.inr ⟨p, b, s1, hg, hs1, hs2⟩) (ih h)
  | case6 s a as ha hg s1 hs1 ih => exact .head (.inl ⟨a, hg, ha, hs1⟩) (ih h)
  | _ => cases h

end Xv6.Log
