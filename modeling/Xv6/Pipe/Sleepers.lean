/-
# Sleepers

Code that waits with `sleep` for something, under a lock, and calls `wakeup` after it has made it
so.  A channel has its lock, and what its sleepers wait for is there or not (`Sleepers`).  No
sleeper is forgotten if a process that is about to sleep or sleeps waits for something that is not
there, or else the process with the lock owes it a `wakeup` that it makes before it releases the
lock (`Sleeping.Awake`).  The steps that keep this: those that do not touch what is waited for
(`Awake.quiet`), those after which a `wakeup` is owed (`Awake.changed`), and the scan of `wakeup`
itself (`Awake.scan`).

`Xv6.Pipe.Sleep` and `Xv6.Proc.Sleeplock` are two such pieces of code.
-/

import Xv6.Pipe.Calls

namespace Xv6.Pipes

open Function Option
open Ptable (ProcState)

/-- In `sleep` at `z`, a process in state `st` is about to sleep or sleeps. -/
def SleepAt.dozes (z : SleepAt) (st : ProcState) : Prop :=
  z = .acquire ∨ z = .release ∨ z = .set ∨ z = .sched ∨ z = .asleep ∧ st = .SLEEPING

theorem SleepAt.dozes.mono {z : SleepAt} {st st' : ProcState} (h : z.dozes st)
    (hst : st = .SLEEPING → st' = .SLEEPING) : z.dozes st' :=
  h.imp_right (.imp_right (.imp_right (.imp_right (.imp_right hst))))

theorem SleepAt.dozes.of_sleeping {z : SleepAt} {st : ProcState} (hz : z = .sched ∨ z = .asleep)
    (hst : st = .SLEEPING) : z.dozes st := by
  rcases hz with rfl | rfl
  · exact .inr (.inr (.inr (.inl rfl)))
  · exact .inr (.inr (.inr (.inr ⟨rfl, hst⟩)))

/-- Whom `kill` leaves asleep. -/
theorem sleeping_of_kill {P : Type} [DecidableEq P] {st : P → ProcState} {q q' : P}
    (h : update st q (if st q = .SLEEPING then .RUNNABLE else st q) q' = .SLEEPING) :
    st q' = .SLEEPING := by
  by_cases hq : q' = q
  · rw [hq, update_self] at h
    split_ifs at h with hc
    exact absurd h hc
  · rwa [update_of_ne hq] at h

/-- How a thread uses `sleep` and `wakeup`: on which channel and where in `sleep` it is, and the
channels it will wake before it releases their lock. -/
structure Sleeping (C T : Type) where
  sleep : T → Option (C × SleepAt)
  owes : C → T → Prop

/-- What the processes do, their `state` and `chan`, and of every channel the process with its
lock, and whether what its sleepers wait for is not there. -/
structure Sleepers (P C T : Type) where
  thread : P → T
  state : P → ProcState
  chan : P → Option C
  lock : C → Option P
  waits : C → Prop

namespace Sleeping

variable {P C T : Type} (A : Sleeping C T) (S S' : Sleepers P C T)

/-- Process `q` sleeps on `c` or is about to. -/
def Dozes (q : P) (c : C) : Prop :=
  ∃ z, A.sleep (S.thread q) = some (c, z) ∧ z.dozes (S.state q)

/-- The process with the lock will call `wakeup(c)` before it releases it. -/
def Owed (c : C) : Prop := ∃ q, S.lock c = some q ∧ A.owes c (S.thread q)

/-- **The invariant of the sleepers.** -/
structure Awake : Prop where
  sleeping : ∀ q, S.state q = .SLEEPING → ∃ c z, A.sleep (S.thread q) = some (c, z) ∧
    (z = .sched ∨ z = .asleep) ∧ S.chan q = some c
  owed : ∀ q c, A.Dozes S q c → S.waits c ∨ A.Owed S c

namespace Awake

variable {A S S'} {p q : P} {t t' : T} {c : C}

/-- **No sleeper is forgotten** while the lock is free. -/
theorem waits (h : A.Awake S) (hq : S.state q = .SLEEPING) (hch : S.chan q = some c)
    (hfree : S.lock c = none) : S.waits c := by
  obtain ⟨c', z, hz, hzz, hch'⟩ := h.sleeping q hq
  obtain rfl := some.inj (hch'.symm.trans hch)
  refine (h.owed q c' ⟨z, hz, .of_sleeping hzz hq⟩).resolve_right ?_
  rintro ⟨p, hp, -⟩
  cases hfree.symm.trans hp

variable [DecidableEq P]

variable (h : A.Awake S)

include h

/-- **A step of process `p`.**  The other threads stay, and a process that the step does not put
to sleep was asleep before. -/
theorem moved (hth : S'.thread = update S.thread p t')
    (hstate : ∀ q ≠ p, S'.state q = .SLEEPING → S.state q = .SLEEPING ∧ S'.chan q = S.chan q)
    (hself : S'.state p = .SLEEPING → ∃ c z, A.sleep t' = some (c, z) ∧
      (z = .sched ∨ z = .asleep) ∧ S'.chan p = some c)
    (hdoze : ∀ c z, A.sleep t' = some (c, z) → z.dozes (S'.state p) →
      S'.waits c ∨ A.Owed S' c)
    (howed : ∀ q ≠ p, ∀ c, A.Dozes S q c → A.Dozes S' q c → S.waits c ∨ A.Owed S c →
      S'.waits c ∨ A.Owed S' c) : A.Awake S' := by
  have hsame : ∀ q ≠ p, S'.thread q = S.thread q := fun q hq => by
    rw [hth, update_of_ne hq]
  have hp : S'.thread p = t' := by rw [hth, update_self]
  refine ⟨fun q hq => ?_, fun q c hq => ?_⟩
  · by_cases hqp : q = p
    · subst hqp
      rw [hp]
      exact hself hq
    · obtain ⟨hs, hc⟩ := hstate q hqp hq
      rw [hsame q hqp, hc]
      exact h.sleeping q hs
  · obtain ⟨z, hz, hdz⟩ := id hq
    by_cases hqp : q = p
    · subst hqp
      rw [hp] at hz
      exact hdoze c z hz hdz
    · rw [hsame q hqp] at hz
      have hd : A.Dozes S q c := ⟨z, hz, hdz.mono fun hs => (hstate q hqp hs).1⟩
      exact howed q hqp c hd hq (h.owed q c hd)

/-- A step that keeps what is waited for, and after which the process still owes what it owed. -/
theorem quiet (hp : S.thread p = t) (hth : S'.thread = update S.thread p t')
    (hstate : ∀ q ≠ p, S'.state q = .SLEEPING → S.state q = .SLEEPING ∧ S'.chan q = S.chan q)
    (hself : S'.state p = .SLEEPING → ∃ c z, A.sleep t' = some (c, z) ∧
      (z = .sched ∨ z = .asleep) ∧ S'.chan p = some c)
    (hdoze : ∀ c z, A.sleep t' = some (c, z) → z.dozes (S'.state p) →
      S.waits c ∨ ∃ z, A.sleep t = some (c, z) ∧ z.dozes (S.state p) := by exact nofun)
    (howes : ∀ c, A.owes c t → S'.lock c = S.lock c ∧ A.owes c t' := by exact nofun)
    (hwaits : ∀ c, S.waits c → S'.waits c := by exact fun _ => id)
    (hlock : ∀ c, S'.lock c = S.lock c ∨ S.lock c = none ∨ S.lock c = some p := by
      exact fun _ => .inl rfl) : A.Awake S' := by
  have howed : ∀ c, S.waits c ∨ A.Owed S c → S'.waits c ∨ A.Owed S' c := by
    rintro c (hw | ⟨q, hq, ho⟩)
    · exact .inl (hwaits c hw)
    · by_cases hqp : q = p
      · subst hqp
        rw [hp] at ho
        obtain ⟨hl, ht⟩ := howes c ho
        exact .inr ⟨q, hl.trans hq, by rw [hth, update_self]; exact ht⟩
      · refine .inr ⟨q, ?_, by rw [hth, update_of_ne hqp]; exact ho⟩
        rcases hlock c with hl | hl | hl
        · exact hl.trans hq
        · cases hl.symm.trans hq
        · exact absurd (some.inj (hq.symm.trans hl)) hqp
  refine h.moved hth hstate hself (fun c z ht hz => ?_) fun q _ c _ _ hq => howed c hq
  rcases hdoze c z ht hz with hw | hd
  · exact .inl (hwaits c hw)
  · rw [← hp] at hd
    exact howed c (h.owed p c hd)

variable (hr : S.state p = .RUNNING) (hp : S.thread p = t) (hth : S'.thread = update S.thread p t')

include hr hp hth

/-- A quiet step of a process that runs. -/
theorem runs (hdoze : ∀ c z, A.sleep t' = some (c, z) →
      S.waits c ∨ ∃ z, A.sleep t = some (c, z) ∧ z.dozes (S.state p) := by exact nofun)
    (howes : ∀ c, A.owes c t → S'.lock c = S.lock c ∧ A.owes c t' := by exact nofun)
    (hlock : ∀ c, S'.lock c = S.lock c ∨ S.lock c = none ∨ S.lock c = some p := by
      exact fun _ => .inl rfl)
    (hwaits : ∀ c, S.waits c → S'.waits c := by exact fun _ => id)
    (hst : S'.state = S.state := by rfl) (hch : S'.chan = S.chan := by rfl) : A.Awake S' := by
  refine h.quiet hp hth (fun q _ hq => ?_) (fun hc => ?_) (fun c z ht _ => hdoze c z ht) howes
    hwaits hlock
  · rw [hst] at hq
    exact ⟨hq, by rw [hch]⟩
  · rw [hst, hr] at hc
    cases hc

/-- A step of the process with the lock of `c`, after which it owes a `wakeup(c)`. -/
theorem changed (hl : S.lock c = some p) (hto : A.owes c t')
    (hother : ∀ c' ≠ c, S.waits c' ∨ A.owes c' t → S'.waits c')
    (hsleep : A.sleep t' = none := by rfl) (hst : S'.state = S.state := by rfl)
    (hch : S'.chan = S.chan := by rfl) (hlock : S'.lock = S.lock := by rfl) : A.Awake S' := by
  refine h.moved hth (fun q _ hq => ?_) (fun hc => ?_) (fun c z hz => ?_)
    fun q _ c' _ _ hq => ?_
  · rw [hst] at hq
    exact ⟨hq, by rw [hch]⟩
  · rw [hst, hr] at hc
    cases hc
  · cases hsleep.symm.trans hz
  · by_cases he : c' = c
    · subst he
      exact .inr ⟨p, hlock ▸ hl, by rw [hth, update_self]; exact hto⟩
    rcases hq with hw | ⟨q', hq', ho⟩
    · exact .inl (hother c' he (.inl hw))
    · by_cases hqp : q' = p
      · subst hqp
        rw [hp] at ho
        exact .inl (hother c' he (.inr ho))
      · exact .inr ⟨q', hlock ▸ hq', by rw [hth, update_of_ne hqp]; exact ho⟩

/-- **`wakeup(c)` scans the table**: nobody sleeps on `c` any more.  The processes on their way
to sleep on it hold its lock or `ptable.lock`, and are not there now. -/
theorem scan [DecidableEq C]
    (hst : ∀ q, S'.state q = if S.state q = .SLEEPING ∧ S.chan q = some c then .RUNNABLE
      else S.state q) (hch : S'.chan = S.chan) (hlock : S'.lock = S.lock)
    (hwaits : S'.waits = S.waits) (howes : ∀ c', A.owes c' t → c' = c)
    (hsleep : A.sleep t' = none)
    (hheld : ∀ q ≠ p, ∀ z st, A.sleep (S.thread q) = some (c, z) → z.dozes st → z = .asleep) :
    A.Awake S' := by
  have hstate : ∀ q, S'.state q = .SLEEPING → S.state q = .SLEEPING ∧ S.chan q ≠ some c := by
    intro q hq
    rw [hst] at hq
    split_ifs at hq with hc
    exact ⟨hq, fun he => hc ⟨hq, he⟩⟩
  refine h.moved hth (fun q _ hq => ⟨(hstate q hq).1, by rw [hch]⟩) (fun hc => ?_)
    (fun c z hz => ?_) fun q hqp c' hd hd' hq => ?_
  · rw [(hstate p hc).1] at hr
    cases hr
  · cases hsleep.symm.trans hz
  by_cases he : c' = c
  · subst he
    obtain ⟨z, hz, hdz⟩ := hd'
    rw [hth, update_of_ne hqp] at hz
    obtain rfl := hheld q hqp z _ hz hdz
    have hs : S'.state q = .SLEEPING := by
      rcases hdz with h | h | h | h | ⟨-, h⟩
      all_goals first | exact h | cases h
    obtain ⟨hs, hne⟩ := hstate q hs
    obtain ⟨c'', z, hz', -, hchan⟩ := h.sleeping q hs
    rw [hz] at hz'
    cases hz'
    exact absurd hchan hne
  · rw [hwaits]
    refine hq.imp_right ?_
    rintro ⟨q', hq', ho⟩
    have hq'p : q' ≠ p := fun hc => by
      rw [hc, hp] at ho
      exact he (howes c' ho)
    exact ⟨q', hlock ▸ hq', by rw [hth, update_of_ne hq'p]; exact ho⟩

end Awake
end Sleeping

end Xv6.Pipes
