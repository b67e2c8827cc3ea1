/-
# Sleep-locks

`acquiresleep`, `releasesleep` and `holdingsleep` of `sleeplock.c` on any number of locks, with
`sleep`, `wakeup` and `kill` of `proc.c`, as they run in any number of processes at once. A step is
one access to shared data or one change of a lock: the inner spinlock of a sleep-lock, or
`ptable.lock`. The points of `sleep`, `wakeup` and `kill` are those of `Xv6.Pipe.Calls`.

`held` is history: a process holds a sleep-lock from the store of 1 to `locked` in `acquiresleep` to
the store of 0 in `releasesleep`, which only the process that holds the lock calls.

`sleeplock_safe` is the result. At most one process holds a lock: `lk->pid` names it (`Owner`). And
a process that sleeps on a lock, or is about to, finds it locked, or the process with the inner
spinlock owes it a `wakeup` (`Awake`). `holdingsleep_eq` says what `holdingsleep` returns.
-/
import Xv6.Pipe.Sleepers

namespace Xv6.Sleeplock

open Function Lib Option
open Ptable (ProcState)
open Pipes (SleepAt WakeAt KillAt Sleeping Sleepers sleeping_of_kill)

/-! ## The calls -/

/-- Where `acquiresleep` is. -/
inductive AcquireAt where
  /-- Before `acquire(&lk->lk)`. -/
  | start
  /-- At the test of `while`. -/
  | test
  | sleep (z : SleepAt)
  /-- Before `lk->locked = 1`. -/
  | take
  /-- Before `release(&lk->lk)`. -/
  | rel
deriving DecidableEq

/-- Where `releasesleep` is. -/
inductive ReleaseAt where
  /-- Before `acquire(&lk->lk)`. -/
  | start
  /-- Before `lk->locked = 0`. -/
  | clear
  | wake (w : WakeAt)
  /-- Before `release(&lk->lk)`. -/
  | rel
deriving DecidableEq

/-- Where `holdingsleep` is. -/
inductive HoldingAt where
  /-- Before `acquire(&lk->lk)`. -/
  | start
  /-- Before `lk->locked` and `lk->pid` are read. -/
  | read
  /-- Before `release(&lk->lk)` and the return of `r`. -/
  | rel (r : Bool)
deriving DecidableEq

/-- What a process does. -/
inductive Thread (P K : Type) where
  | out
  | acquire (k : K) (a : AcquireAt)
  | release (k : K) (r : ReleaseAt)
  | holding (k : K) (h : HoldingAt)
  | kill (q : P) (j : KillAt)

/-- The sleep-locks, each with its inner spinlock, `ptable.lock`, the state and `chan` of every
process and what it does. `held` is history: the locks that each process holds. -/
structure State (P K : Type) where
  /-- The process with `lk->lk`. -/
  spin : K → Option P
  locked : K → Bool
  /-- `lk->pid`, by its process; none for 0. -/
  pid : K → Option P
  ptable : Option P
  state : P → ProcState
  chan : P → Option K
  thread : P → Thread P K
  held : P → K → Bool

/-- A step: a call, a step of the thread of a process, or a step of the scheduler. -/
inductive Act (P K : Type) where
  | acquiresleep (p : P) (k : K)
  | releasesleep (p : P) (k : K)
  | holdingsleep (p : P) (k : K)
  | kill (p q : P)
  | go (p : P)
  | sched (p : P)
  | schedule (p : P)
  | yield (p : P)

variable {P K : Type}

/-- The inner spinlock that the process holds. -/
def Thread.spin : Thread P K → Option K
  | acquire k .test | acquire k .take | acquire k .rel | acquire k (.sleep .acquire)
  | acquire k (.sleep .release) => some k
  | release k .clear | release k (.wake _) | release k .rel => some k
  | holding k .read | holding k (.rel _) => some k
  | _ => none

/-- The process, or the scheduler it has switched to, holds `ptable.lock`. -/
def Thread.holdsTable : Thread P K → Bool
  | acquire _ (.sleep .release) | acquire _ (.sleep .set) | acquire _ (.sleep .sched)
  | acquire _ (.sleep .back) => true
  | release _ (.wake .scan) | release _ (.wake .release) => true
  | kill _ j => j ≠ .acquire
  | _ => false

namespace State

/-- The locks as `initsleeplock` leaves them; no process is in a call. -/
def init : State P K where
  spin _ := none
  locked _ := false
  pid _ := none
  ptable := none
  state _ := .RUNNABLE
  chan _ := none
  thread _ := .out
  held _ _ := false

variable [DecidableEq P] [DecidableEq K] (s : State P K)

/-- Process `p` goes on as `t`. -/
def goto (p : P) (t : Thread P K) : State P K := { s with thread := update s.thread p t }

/-- Process `p` goes on as `t`, with the inner spinlock of `k`. -/
def acquireSpin (p : P) (k : K) (t : Thread P K) : Option (State P K) :=
  if s.spin k = none then
    some { s.goto p t with spin := update s.spin k (some p) }
  else none

/-- Process `p` goes on as `t`, without the inner spinlock of `k`. -/
def releaseSpin (p : P) (k : K) (t : Thread P K) : State P K :=
  { s.goto p t with spin := update s.spin k none }

/-- Process `p` goes on as `t`, with `ptable.lock`. -/
def acquireTable (p : P) (t : Thread P K) : Option (State P K) :=
  if s.ptable = none then some { s.goto p t with ptable := some p } else none

/-- The scan of `wakeup1(chan)`. -/
def wakeup1 (k : K) : P → ProcState := fun q =>
  if s.state q = .SLEEPING ∧ s.chan q = some k then .RUNNABLE else s.state q

/-- A step of `sleep(lk, &lk->lk)`, before `sched` and after it. -/
def sleep (p : P) (k : K) : SleepAt → Option (State P K)
  | .acquire => s.acquireTable p (.acquire k (.sleep .release))
  | .release => some (s.releaseSpin p k (.acquire k (.sleep .set)))
  | .set =>
      some { s.goto p (.acquire k (.sleep .sched)) with
        chan := update s.chan p (some k)
        state := update s.state p .SLEEPING }
  | .sched | .asleep => none
  | .back =>
      some { s.goto p (.acquire k (.sleep .relock)) with
        chan := update s.chan p none
        ptable := none }
  | .relock => s.acquireSpin p k (.acquire k .test)

/-- A step of `acquiresleep`. -/
def goAcquire (p : P) (k : K) : AcquireAt → Option (State P K)
  | .start => s.acquireSpin p k (.acquire k .test)
  | .test => some (s.goto p (.acquire k (if s.locked k then .sleep .acquire else .take)))
  | .sleep z => s.sleep p k z
  | .take =>
      some { s.goto p (.acquire k .rel) with
        locked := update s.locked k true
        pid := update s.pid k (some p)
        held := update s.held p (update (s.held p) k true) }
  | .rel => some (s.releaseSpin p k .out)

/-- A step of `releasesleep`. -/
def goRelease (p : P) (k : K) : ReleaseAt → Option (State P K)
  | .start => s.acquireSpin p k (.release k .clear)
  | .clear =>
      some { s.goto p (.release k (.wake .acquire)) with
        locked := update s.locked k false
        pid := update s.pid k none
        held := update s.held p (update (s.held p) k false) }
  | .wake .acquire => s.acquireTable p (.release k (.wake .scan))
  | .wake .scan => some { s.goto p (.release k (.wake .release)) with state := s.wakeup1 k }
  | .wake .release => some { s.goto p (.release k .rel) with ptable := none }
  | .rel => some (s.releaseSpin p k .out)

/-- A step of `holdingsleep`. -/
def goHolding (p : P) (k : K) : HoldingAt → Option (State P K)
  | .start => s.acquireSpin p k (.holding k .read)
  | .read => some (s.goto p (.holding k (.rel (s.locked k && s.pid k = some p))))
  | .rel _ => some (s.releaseSpin p k .out)

/-- A step of `kill`. -/
def goKill (p q : P) : KillAt → Option (State P K)
  | .acquire => s.acquireTable p (.kill q .mark)
  | .mark => some (s.goto p (.kill q .wake))
  | .wake =>
      some { s.goto p (.kill q .release) with
        state := update s.state q
          (if s.state q = .SLEEPING then .RUNNABLE else s.state q) }
  | .release => some { s.goto p .out with ptable := none }

/-- A process that is running and not in a call begins one. -/
def enter (p : P) (t : Thread P K) : Option (State P K) :=
  match s.thread p with
  | .out => if s.state p = .RUNNING then some (s.goto p t) else none
  | _ => none

/-- A step of the call that a process is in. -/
def go (p : P) : Option (State P K) :=
  match s.thread p with
  | .out => none
  | .acquire k a => s.goAcquire p k a
  | .release k r => s.goRelease p k r
  | .holding k h => s.goHolding p k h
  | .kill q j => s.goKill p q j

/-- The effect of a step: `none` where it cannot be made. -/
def step : Act P K → Option (Except Empty (State P K))
  | .acquiresleep p k => (s.enter p (.acquire k .start)).map .ok
  | .releasesleep p k =>
      if s.held p k then (s.enter p (.release k .start)).map .ok else none
  | .holdingsleep p k => (s.enter p (.holding k .start)).map .ok
  | .kill p q => (s.enter p (.kill q .acquire)).map .ok
  | .go p => if s.state p = .RUNNING then (s.go p).map .ok else none
  | .sched p =>
      match s.thread p with
      | .acquire k (.sleep .sched) =>
          some (.ok { s.goto p (.acquire k (.sleep .asleep)) with ptable := none })
      | _ => none
  | .schedule p =>
      if s.state p = .RUNNABLE ∧ s.ptable = none then
        match s.thread p with
        | .acquire k (.sleep .asleep) =>
            some (.ok { s.goto p (.acquire k (.sleep .back)) with
              state := update s.state p .RUNNING
              ptable := some p })
        | _ => some (.ok { s with state := update s.state p .RUNNING })
      else none
  | .yield p =>
      if s.state p = .RUNNING ∧ s.ptable = none ∧ (s.thread p).spin = none then
        some (.ok { s with state := update s.state p .RUNNABLE })
      else none

end State

/-! ## What a step does -/

set_option linter.unusedSectionVars false

variable [DecidableEq P] [DecidableEq K] {s s' : State P K} {p : P} {k : K} {t : Thread P K}

/-- What a process may begin. -/
inductive Begins (s : State P K) (p : P) : Thread P K → Prop where
  | acquiresleep {k : K} : Begins s p (.acquire k .start)
  | releasesleep {k : K} (h : s.held p k = true) : Begins s p (.release k .start)
  | holdingsleep {k : K} : Begins s p (.holding k .start)
  | kill {q : P} : Begins s p (.kill q .acquire)

/-- A step that only moves process `p` on. -/
inductive Quiet (s : State P K) (p : P) : Thread P K → Prop where
  | enter {t : Thread P K} (hp : s.thread p = .out) (ht : Begins s p t) : Quiet s p t
  | wait {k : K} (hp : s.thread p = .acquire k .test) (h : s.locked k = true) :
      Quiet s p (.acquire k (.sleep .acquire))
  | found {k : K} (hp : s.thread p = .acquire k .test) (h : s.locked k = false) :
      Quiet s p (.acquire k .take)
  | holds {k : K} (hp : s.thread p = .holding k .read) :
      Quiet s p (.holding k (.rel (s.locked k && s.pid k = some p)))
  | mark {q : P} (hp : s.thread p = .kill q .mark) : Quiet s p (.kill q .wake)

/-- A step that takes the inner spinlock of `k`. -/
inductive Spins (s : State P K) (p : P) (k : K) : Thread P K → Prop where
  | acquire (hp : s.thread p = .acquire k .start ∨ s.thread p = .acquire k (.sleep .relock)) :
      Spins s p k (.acquire k .test)
  | release (hp : s.thread p = .release k .start) : Spins s p k (.release k .clear)
  | holding (hp : s.thread p = .holding k .start) : Spins s p k (.holding k .read)

/-- A step that gives the inner spinlock of `k` back. -/
inductive Unspins (s : State P K) (p : P) (k : K) : Thread P K → Prop where
  | sleep (hp : s.thread p = .acquire k (.sleep .release)) :
      Unspins s p k (.acquire k (.sleep .set))
  | acquire (hp : s.thread p = .acquire k .rel) : Unspins s p k .out
  | release (hp : s.thread p = .release k .rel) : Unspins s p k .out
  | holding {r : Bool} (hp : s.thread p = .holding k (.rel r)) : Unspins s p k .out

/-- A step that takes `ptable.lock`. -/
inductive Enters (s : State P K) (p : P) : Thread P K → Prop where
  | sleep {k : K} (hp : s.thread p = .acquire k (.sleep .acquire)) :
      Enters s p (.acquire k (.sleep .release))
  | wake {k : K} (hp : s.thread p = .release k (.wake .acquire)) :
      Enters s p (.release k (.wake .scan))
  | kill {q : P} (hp : s.thread p = .kill q .acquire) : Enters s p (.kill q .mark)

/-- A step that gives `ptable.lock` back. -/
inductive Leaves (s : State P K) (p : P) : Thread P K → Prop where
  | sched {k : K} (hp : s.thread p = .acquire k (.sleep .sched)) :
      Leaves s p (.acquire k (.sleep .asleep))
  | wake {k : K} (hp : s.thread p = .release k (.wake .release)) : Leaves s p (.release k .rel)
  | kill {q : P} (hp : s.thread p = .kill q .release) : Leaves s p .out

/-- **The steps of process `p`**, with the tests that lead to each. -/
inductive Moves (s : State P K) (p : P) : State P K → Prop where
  | quiet {t : Thread P K} (hr : s.state p = .RUNNING) (ht : Quiet s p t) : Moves s p (s.goto p t)
  | spin {k : K} {t : Thread P K} (hr : s.state p = .RUNNING) (hl : s.spin k = none)
      (ht : Spins s p k t) :
      Moves s p { s.goto p t with spin := update s.spin k (some p) }
  | unspin {k : K} {t : Thread P K} (hr : s.state p = .RUNNING) (ht : Unspins s p k t) :
      Moves s p (s.releaseSpin p k t)
  | enter {t : Thread P K} (hr : s.state p = .RUNNING) (hl : s.ptable = none)
      (ht : Enters s p t) : Moves s p { s.goto p t with ptable := some p }
  | leave {t : Thread P K} (ht : Leaves s p t) : Moves s p { s.goto p t with ptable := none }
  | take {k : K} (hr : s.state p = .RUNNING) (hp : s.thread p = .acquire k .take) :
      Moves s p { s.goto p (.acquire k .rel) with
        locked := update s.locked k true
        pid := update s.pid k (some p)
        held := update s.held p (update (s.held p) k true) }
  | clear {k : K} (hr : s.state p = .RUNNING) (hp : s.thread p = .release k .clear) :
      Moves s p { s.goto p (.release k (.wake .acquire)) with
        locked := update s.locked k false
        pid := update s.pid k none
        held := update s.held p (update (s.held p) k false) }
  | scan {k : K} (hr : s.state p = .RUNNING) (hp : s.thread p = .release k (.wake .scan)) :
      Moves s p { s.goto p (.release k (.wake .release)) with state := s.wakeup1 k }
  | set {k : K} (hr : s.state p = .RUNNING) (hp : s.thread p = .acquire k (.sleep .set)) :
      Moves s p { s.goto p (.acquire k (.sleep .sched)) with
        chan := update s.chan p (some k)
        state := update s.state p .SLEEPING }
  | back {k : K} (hr : s.state p = .RUNNING) (hp : s.thread p = .acquire k (.sleep .back)) :
      Moves s p { s.goto p (.acquire k (.sleep .relock)) with
        chan := update s.chan p none
        ptable := none }
  | resume {k : K} (hr : s.state p = .RUNNABLE) (hl : s.ptable = none)
      (hp : s.thread p = .acquire k (.sleep .asleep)) :
      Moves s p { s.goto p (.acquire k (.sleep .back)) with
        state := update s.state p .RUNNING
        ptable := some p }
  | kill {q : P} (hr : s.state p = .RUNNING) (hp : s.thread p = .kill q .wake) :
      Moves s p { s.goto p (.kill q .release) with
        state := update s.state q
          (if s.state q = .SLEEPING then .RUNNABLE else s.state q) }
  | run (hr : s.state p = .RUNNABLE) :
      Moves s p { s with state := update s.state p .RUNNING }
  | yield (hr : s.state p = .RUNNING) :
      Moves s p { s with state := update s.state p .RUNNABLE }

theorem moves_enter (ht : Begins s p t)
    (h : (s.enter p t).map Except.ok = some (.ok s' : Except Empty (State P K))) :
    Moves s p s' := by
  obtain ⟨s1, hs, he⟩ := map_eq_some_iff.1 h
  cases he
  unfold State.enter at hs
  split at hs
  · rename_i hp
    split_ifs at hs with hr
    cases hs
    exact .quiet hr (.enter hp ht)
  · cases hs

variable (hr : s.state p = .RUNNING)

include hr

theorem moves_acquireSpin (ht : Spins s p k t)
    (h : s.acquireSpin p k t = some s') : Moves s p s' := by
  unfold State.acquireSpin at h
  split_ifs at h with hl
  cases h
  exact .spin hr hl ht

theorem moves_acquireTable (ht : Enters s p t)
    (h : s.acquireTable p t = some s') : Moves s p s' := by
  unfold State.acquireTable at h
  split_ifs at h with hl
  cases h
  exact .enter hr hl ht

theorem moves_sleep {z : SleepAt}
    (hp : s.thread p = .acquire k (.sleep z)) (h : s.sleep p k z = some s') : Moves s p s' := by
  cases z with
  | acquire => exact moves_acquireTable hr (.sleep hp) h
  | release =>
    cases h
    exact .unspin hr (.sleep hp)
  | set =>
    cases h
    exact .set hr hp
  | sched => cases h
  | asleep => cases h
  | back =>
    cases h
    exact .back hr hp
  | relock => exact moves_acquireSpin hr (.acquire (.inr hp)) h

theorem moves_goAcquire {a : AcquireAt}
    (hp : s.thread p = .acquire k a) (h : s.goAcquire p k a = some s') : Moves s p s' := by
  cases a with
  | start => exact moves_acquireSpin hr (.acquire (.inl hp)) h
  | test =>
    cases h
    cases hl : s.locked k with
    | true => exact .quiet hr (.wait hp hl)
    | false => exact .quiet hr (.found hp hl)
  | sleep z => exact moves_sleep hr hp h
  | take =>
    cases h
    exact .take hr hp
  | rel =>
    cases h
    exact .unspin hr (.acquire hp)

theorem moves_goRelease {r : ReleaseAt}
    (hp : s.thread p = .release k r) (h : s.goRelease p k r = some s') : Moves s p s' := by
  cases r with
  | start => exact moves_acquireSpin hr (.release hp) h
  | clear =>
    cases h
    exact .clear hr hp
  | wake w =>
    cases w with
    | acquire => exact moves_acquireTable hr (.wake hp) h
    | scan =>
      cases h
      exact .scan hr hp
    | release =>
      cases h
      exact .leave (.wake hp)
  | rel =>
    cases h
    exact .unspin hr (.release hp)

theorem moves_goHolding {a : HoldingAt}
    (hp : s.thread p = .holding k a) (h : s.goHolding p k a = some s') : Moves s p s' := by
  cases a with
  | start => exact moves_acquireSpin hr (.holding hp) h
  | read =>
    cases h
    exact .quiet hr (.holds hp)
  | rel r =>
    cases h
    exact .unspin hr (.holding hp)

theorem moves_goKill {q : P} {j : KillAt}
    (hp : s.thread p = .kill q j) (h : s.goKill p q j = some s') : Moves s p s' := by
  cases j with
  | acquire => exact moves_acquireTable hr (.kill hp) h
  | mark =>
    cases h
    exact .quiet hr (.mark hp)
  | wake =>
    cases h
    exact .kill hr hp
  | release =>
    cases h
    exact .leave (.kill hp)

theorem moves_go (h : s.go p = some s') : Moves s p s' := by
  unfold State.go at h
  cases hp : s.thread p with
  | out =>
    rw [hp] at h
    cases h
  | acquire k a =>
    rw [hp] at h
    exact moves_goAcquire hr hp h
  | release k r =>
    rw [hp] at h
    exact moves_goRelease hr hp h
  | holding k a =>
    rw [hp] at h
    exact moves_goHolding hr hp h
  | kill q j =>
    rw [hp] at h
    exact moves_goKill hr hp h

omit hr

/-- **Every step is one of `Moves`.** -/
theorem moves_step {a : Act P K} (h : s.step a = some (.ok s')) : ∃ p, Moves s p s' := by
  cases a with
  | acquiresleep p k => exact ⟨p, moves_enter .acquiresleep h⟩
  | releasesleep p k =>
    simp only [State.step] at h
    rw [ite_none_right_eq_some] at h
    exact ⟨p, moves_enter (.releasesleep h.1) h.2⟩
  | holdingsleep p k => exact ⟨p, moves_enter .holdingsleep h⟩
  | kill p q => exact ⟨p, moves_enter .kill h⟩
  | go p =>
    simp only [State.step] at h
    rw [ite_none_right_eq_some] at h
    obtain ⟨hr, h⟩ := h
    obtain ⟨s1, hs, he⟩ := map_eq_some_iff.1 h
    cases he
    exact ⟨p, moves_go hr hs⟩
  | sched p =>
    simp only [State.step] at h
    split at h
    · rename_i k hp
      cases h
      exact ⟨p, .leave (.sched hp)⟩
    · cases h
  | schedule p =>
    simp only [State.step] at h
    split_ifs at h with hr
    split at h
    · rename_i k hp
      cases h
      exact ⟨p, .resume hr.1 hr.2 hp⟩
    · cases h
      exact ⟨p, .run hr.1⟩
  | yield p =>
    simp only [State.step] at h
    split_ifs at h with hr
    cases h
    exact ⟨p, .yield hr.1⟩

/-! ## Who holds the spinlocks -/

/-- **The spinlocks are held where the code says.** -/
structure Locks (s : State P K) : Prop where
  spin : HeldEach Thread.spin s.thread s.spin
  table : Held Thread.holdsTable s.thread s.ptable

theorem locks_init : Locks (State.init : State P K) where
  spin p k := ⟨fun h => (by cases h), nofun⟩
  table p := ⟨fun h => (by cases h), nofun⟩

theorem Locks.step (h : Locks s) (hm : Moves s p s') : Locks s' := by
  cases hm with
  | quiet hr ht =>
    rename_i t
    have hsame : t.spin = (s.thread p).spin ∧ t.holdsTable = (s.thread p).holdsTable := by
      cases ht with
      | enter hp ht => rw [hp]; cases ht <;> exact ⟨rfl, rfl⟩
      | wait hp | found hp | holds hp | mark hp => rw [hp]; exact ⟨rfl, rfl⟩
    exact ⟨h.spin.keep hsame.1, h.table.keep hsame.2⟩
  | spin hr hl ht =>
    cases ht with
    | acquire hp =>
      refine ⟨h.spin.acquire hl ?_ rfl, h.table.keep ?_⟩ <;>
        rcases hp with hp | hp <;> rw [hp] <;> rfl
    | release hp | holding hp =>
      exact ⟨h.spin.acquire hl (by rw [hp]; rfl) rfl, h.table.keep (by rw [hp]; rfl)⟩
  | unspin hr ht =>
    cases ht with
    | sleep hp | acquire hp | release hp | holding hp =>
      exact ⟨h.spin.release (by rw [hp]; rfl) rfl, h.table.keep (by rw [hp]; rfl)⟩
  | enter hr hl ht =>
    cases ht with
    | sleep hp | wake hp | kill hp =>
      exact ⟨h.spin.keep (by rw [hp]; rfl), h.table.acquire hl rfl⟩
  | leave ht =>
    cases ht with
    | sched hp | wake hp | kill hp =>
      exact ⟨h.spin.keep (by rw [hp]; rfl), h.table.release (by rw [hp]; rfl) rfl⟩
  | back hr hp => exact ⟨h.spin.keep (by rw [hp]; rfl), h.table.release (by rw [hp]; rfl) rfl⟩
  | resume hr hl hp => exact ⟨h.spin.keep (by rw [hp]; rfl), h.table.acquire hl rfl⟩
  | run | yield => exact ⟨h.spin, h.table⟩
  | _ hr hp => exact ⟨h.spin.keep (by rw [hp]; rfl), h.table.keep (by rw [hp]; rfl)⟩

/-! ## Who holds the sleep-locks -/

/-- What the process at `t` is about to do to a lock, it may: to take it, it has found it free, and
to clear it, it holds it. -/
def May (s : State P K) (p : P) : Thread P K → Prop
  | .acquire k .take => s.locked k = false
  | .release k .start => s.held p k = true
  | .release k .clear => s.held p k = true
  | .holding k (.rel r) => r = s.held p k
  | _ => True

/-- **A lock that is held is locked, and names its holder.** -/
structure Owner (s : State P K) : Prop where
  held : ∀ p k, s.held p k = true ↔ s.locked k = true ∧ s.pid k = some p
  may : ∀ p, May s p (s.thread p)

theorem owner_init : Owner (State.init : State P K) where
  held p k := ⟨fun h => (by cases h), fun h => by cases h.1⟩
  may p := trivial

theorem Owner.unique (h : Owner s) {q : P} (hp : s.held p k = true) (hq : s.held q k = true) :
    p = q :=
  some.inj (((h.held p k).1 hp).2.symm.trans ((h.held q k).1 hq).2)

/-- A step that does not store to a lock. -/
theorem Owner.keep (h : Owner s) (hth : s'.thread = update s.thread p t)
    (hlocked : s'.locked = s.locked) (hpid : s'.pid = s.pid) (hheld : s'.held = s.held)
    (ht : May s p t) : Owner s' := by
  have hmay : ∀ q t, May s q t → May s' q t := fun q t => by
    unfold May
    rw [hlocked, hheld]
    exact id
  refine ⟨fun q k => ?_, fun q => hmay q _ ?_⟩
  · rw [hheld, hlocked, hpid]
    exact h.held q k
  · rw [hth]
    by_cases hq : q = p
    · rw [hq, update_self]
      exact ht
    · rw [update_of_ne hq]
      exact h.may q

/-- **A store to a lock by the process with its spinlock**, after which the process holds the lock
or not. Nobody else may have been about to store to it. -/
theorem Owner.store (hl : Locks s) (h : Owner s) (hspin : (s.thread p).spin = some k) (b : Bool)
    (hnone : ∀ q ≠ p, s.held q k = false) (ht : ∀ s : State P K, May s p t)
    (hth : s'.thread = update s.thread p t) (hlocked : s'.locked = update s.locked k b)
    (hpid : s'.pid = update s.pid k (if b then some p else none))
    (hheld : s'.held = update s.held p (update (s.held p) k b)) : Owner s' := by
  have hother : ∀ q ≠ p, s'.held q = s.held q := fun q hq => by
    rw [hheld, update_of_ne hq]
  refine ⟨fun q k' => ?_, fun q => ?_⟩
  · by_cases hk : k' = k
    · subst hk
      rw [hlocked, hpid, update_self, update_self]
      by_cases hq : q = p
      · subst hq
        rw [hheld, update_self, update_self]
        cases b <;> simp
      · rw [hother q hq, hnone q hq]
        cases b
        · simp
        · simp [Ne.symm hq]
    · rw [hlocked, hpid, update_of_ne hk, update_of_ne hk, ← h.held q k']
      by_cases hq : q = p
      · rw [hq, hheld, update_self, update_of_ne hk]
      · rw [hother q hq]
  · rw [hth]
    by_cases hq : q = p
    · rw [hq, update_self]
      exact ht s'
    · rw [update_of_ne hq]
      have hmay := h.may q
      have hne := hl.spin.ne (hl.spin.lock_eq hspin) hq
      cases ht' : s.thread q with
      | out => trivial
      | kill q j => trivial
      | acquire k' a =>
        rw [ht'] at hmay hne
        cases a with
        | take =>
          have hk : k' ≠ k := fun hk => hne (by rw [hk]; rfl)
          show s'.locked k' = false
          rw [hlocked, update_of_ne hk]
          exact hmay
        | _ => trivial
      | release k' r =>
        rw [ht'] at hmay
        cases r with
        | start => exact (congrFun (hother q hq) k').trans hmay
        | clear => exact (congrFun (hother q hq) k').trans hmay
        | _ => trivial
      | holding k' a =>
        rw [ht'] at hmay
        cases a with
        | rel r => exact (show r = _ from hmay).trans (congrFun (hother q hq) k').symm
        | _ => trivial

theorem Owner.step (hl : Locks s) (h : Owner s) (hm : Moves s p s') : Owner s' := by
  have hmay := h.may p
  cases hm with
  | quiet hr ht =>
    refine h.keep rfl rfl rfl rfl ?_
    cases ht with
    | enter hp ht =>
      cases ht with
      | releasesleep hheld => exact hheld
      | _ => trivial
    | wait hp _ => trivial
    | found hp hfree => exact hfree
    | holds hp =>
      rename_i k
      show (s.locked k && decide (s.pid k = some p)) = s.held p k
      rw [Bool.eq_iff_iff, h.held p k]
      simp
    | mark hp => trivial
  | spin hr hfree ht =>
    refine h.keep rfl rfl rfl rfl ?_
    cases ht with
    | release hp =>
      rw [hp] at hmay
      exact hmay
    | _ => trivial
  | unspin hr ht | enter hr hfree ht | leave ht =>
    exact h.keep rfl rfl rfl rfl (by cases ht <;> trivial)
  | take hr hp =>
    rename_i k
    rw [hp] at hmay
    refine h.store (t := .acquire k .rel) hl (by rw [hp]; rfl) true (fun q _ => ?_)
      (fun _ => trivial) rfl rfl rfl rfl
    cases hq : s.held q k with
    | false => rfl
    | true => exact absurd (((h.held q k).1 hq).1.symm.trans hmay) (by decide)
  | clear hr hp =>
    rename_i k
    rw [hp] at hmay
    refine h.store (t := .release k (.wake .acquire)) hl (by rw [hp]; rfl) false (fun q hq => ?_)
      (fun _ => trivial) rfl rfl rfl rfl
    cases hheld : s.held q k with
    | false => rfl
    | true => exact absurd (h.unique hheld hmay) hq
  | run | yield => exact ⟨h.held, h.may⟩
  | _ => exact h.keep rfl rfl rfl rfl trivial

/-! ## Who sleeps -/

/-- The process will call `wakeup(lk)` before it releases the spinlock. -/
def Thread.owes (k : K) : Thread P K → Prop
  | release k' (.wake .acquire) => k' = k
  | release k' (.wake .scan) => k' = k
  | _ => False

/-- How the calls use `sleep` and `wakeup`. -/
def sleeping : Sleeping K (Thread P K) where
  sleep
    | .acquire k (.sleep z) => some (k, z)
    | _ => none
  owes := Thread.owes

/-- The lock of a channel is the inner spinlock, and its sleepers wait while `locked` is 1. -/
def State.sleepers (s : State P K) : Sleepers P K (Thread P K) :=
  ⟨s.thread, s.state, s.chan, s.spin, fun k => s.locked k = true⟩

/-- **The invariant of the sleepers.** -/
abbrev Awake (s : State P K) : Prop := sleeping.Awake s.sleepers

theorem awake_init : Awake (State.init : State P K) :=
  ⟨fun q h => (by cases h), fun q k ⟨z, hz, _⟩ => by cases hz⟩

theorem sleep_eq {z : SleepAt} (h : sleeping.sleep t = some (k, z)) :
    t = .acquire k (.sleep z) := by
  unfold sleeping at h
  dsimp only at h
  split at h
  · cases h
    rfl
  · cases h

/-- The spinlocks after one of them was taken or given back. -/
theorem spin_cases {v : Option P} (h : s.spin k = none ∨ s.spin k = some p) (k' : K) :
    update s.spin k v k' = s.spin k' ∨ s.spin k' = none ∨ s.spin k' = some p := by
  by_cases hk : k' = k
  · rw [hk]
    exact .inr h
  · exact .inl (update_of_ne hk ..)

/-- `wakeup` scans the table: nobody sleeps on the lock any more. -/
theorem Awake.wakeScan (hl : Locks s) (h : Awake s) (hr : s.state p = .RUNNING)
    (hp : s.thread p = .release k (.wake .scan)) :
    Awake { s.goto p (.release k (.wake .release)) with state := s.wakeup1 k } := by
  have hspin : s.spin k = some p := hl.spin.lock_eq (by rw [hp]; rfl)
  have htable : s.ptable = some p := hl.table.lock_eq (by rw [hp]; rfl)
  refine h.scan (c := k) hr hp rfl (fun _ => rfl) rfl rfl rfl (fun _ ho => ho.symm) rfl
    fun q hq z st hz hdz => ?_
  have h1 := hl.spin.ne hspin hq
  have h2 := hl.table.eq_false htable hq
  rw [show s.thread q = _ from sleep_eq hz] at h1 h2
  rcases hdz with rfl | rfl | rfl | rfl | ⟨rfl, -⟩
  · exact absurd rfl h1
  · exact absurd rfl h1
  · cases h2
  · cases h2
  · rfl

theorem Awake.step (hl : Locks s) (h : Awake s) (hm : Moves s p s') : Awake s' := by
  cases hm with
  | quiet hr ht =>
    cases ht with
    | enter hp ht =>
      refine h.runs hr hp rfl fun k z hz => ?_
      cases ht <;> cases hz
    | wait hp hlk =>
      refine h.runs hr hp rfl fun k z hz => ?_
      cases hz
      exact .inl hlk
    | found hp | holds hp | mark hp =>
      exact h.runs hr hp rfl
  | spin hr hfree ht =>
    cases ht with
    | acquire hp =>
      rcases hp with hp | hp <;>
        exact h.runs hr hp rfl nofun nofun (spin_cases (.inl hfree))
    | release hp | holding hp =>
      exact h.runs hr hp rfl nofun nofun (spin_cases (.inl hfree))
  | unspin hr ht =>
    cases ht with
    | sleep hp =>
      refine h.runs hr hp rfl (fun k z hz => ?_) nofun
        (spin_cases (.inr (hl.spin.lock_eq (by rw [hp]; rfl))))
      cases hz
      exact .inr ⟨_, rfl, .inr (.inl rfl)⟩
    | acquire hp | release hp | holding hp =>
      exact h.runs hr hp rfl nofun nofun (spin_cases (.inr (hl.spin.lock_eq (by rw [hp]; rfl))))
  | enter hr hfree ht =>
    cases ht with
    | sleep hp =>
      refine h.runs hr hp rfl fun k z hz => ?_
      cases hz
      exact .inr ⟨_, rfl, .inl rfl⟩
    | wake hp =>
      exact h.runs hr hp rfl nofun fun k ho => ⟨rfl, ho⟩
    | kill hp => exact h.runs hr hp rfl
  | leave ht =>
    cases ht with
    | sched hp =>
      refine h.quiet hp rfl (fun q hq hs => ⟨hs, rfl⟩) (fun hs => ?_) fun k z hz _ => ?_
      · obtain ⟨k, z, hz, -, hchan⟩ := h.sleeping p hs
        rw [show s.sleepers.thread p = _ from hp] at hz
        cases hz
        exact ⟨_, _, rfl, .inr rfl, hchan⟩
      · cases hz
        exact .inr ⟨_, rfl, .inr (.inr (.inr (.inl rfl)))⟩
    | wake hp | kill hp =>
      refine h.quiet hp rfl (fun q hq hs => ⟨hs, rfl⟩) fun hs => ?_
      obtain ⟨k, z, hz, -⟩ := h.sleeping p hs
      rw [show s.sleepers.thread p = _ from hp] at hz
      cases hz
  | take hr hp =>
    refine h.runs hr hp rfl nofun nofun (fun _ => .inl rfl) fun k' hk => ?_
    change update s.locked _ true k' = true
    rw [update_apply]
    split_ifs
    · rfl
    · exact hk
  | clear hr hp =>
    refine h.changed hr hp rfl (hl.spin.lock_eq (by rw [hp]; rfl)) rfl fun k' hk hw => ?_
    exact (update_of_ne hk ..).trans (hw.resolve_right nofun)
  | scan hr hp => exact h.wakeScan hl hr hp
  | set hr hp =>
    refine h.quiet hp rfl (fun q hq hs => ?_) (fun _ => ⟨_, _, rfl, .inl rfl, update_self ..⟩)
      fun k z hz _ => ?_
    · exact ⟨(update_of_ne hq ..).symm.trans hs, update_of_ne hq ..⟩
    · cases hz
      exact .inr ⟨_, rfl, .inr (.inr (.inl rfl))⟩
  | back hr hp =>
    refine h.quiet hp rfl (fun q hq hs => ⟨hs, update_of_ne hq ..⟩) (fun hs => ?_)
      fun k z hz hdz => ?_
    · cases hr.symm.trans hs
    · cases hz
      rcases hdz with h | h | h | h | ⟨h, -⟩ <;> cases h
  | resume hr hfree hp =>
    refine h.quiet hp rfl (fun q hq hs => ⟨?_, rfl⟩) (fun hs => ?_) fun k z hz hdz => ?_
    · exact (update_of_ne hq ..).symm.trans hs
    · cases (update_self ..).symm.trans hs
    · cases hz
      rcases hdz with h | h | h | h | ⟨h, -⟩ <;> cases h
  | kill hr hp =>
    refine h.quiet hp rfl (fun _ _ hs => ⟨sleeping_of_kill hs, rfl⟩) fun hs => ?_
    cases hr.symm.trans (sleeping_of_kill hs)
  | run | yield =>
    refine h.quiet rfl (update_eq_self ..).symm
      (fun q hq hs => ⟨(update_of_ne hq ..).symm.trans hs, rfl⟩) (fun hs => ?_)
      (fun k z hz hdz => .inr ⟨z, hz, hdz.mono fun hs => ?_⟩) fun k ho => ⟨rfl, ho⟩
    · cases (update_self ..).symm.trans hs
    · cases (update_self ..).symm.trans hs

/-! ## The result -/

/-- **The invariant of the sleep-locks.** -/
structure Inv (s : State P K) : Prop where
  locks : Locks s
  owner : Owner s
  awake : Awake s

theorem Inv.step (h : Inv s) {a : Act P K} (hs : s.step a = some (.ok s')) : Inv s' := by
  obtain ⟨p, hm⟩ := moves_step hs
  exact ⟨h.locks.step hm, h.owner.step h.locks hm, h.awake.step h.locks hm⟩

theorem inv_of_reaches (h : Reaches State.step State.init s) : Inv s :=
  h.inv (fun _ _ _ hi hs => hi.step hs) ⟨locks_init, owner_init, awake_init⟩

/-- **Sleep-locks exclude and strand no waiter.** In every state that any interleaving reaches, at
most one process holds a lock, and while its inner spinlock is free and `locked` is 0 no process
sleeps on it. -/
theorem sleeplock_safe (s : State P K) (h : Reaches State.step State.init s) (k : K) :
    (∀ p q, s.held p k = true → s.held q k = true → p = q) ∧
    (s.spin k = none → s.locked k = false →
      ∀ q, ¬(s.state q = .SLEEPING ∧ s.chan q = some k)) := by
  have hi := inv_of_reaches h
  refine ⟨fun p q hp hq => hi.owner.unique hp hq, fun hspin hlocked q hq => ?_⟩
  cases hlocked.symm.trans (hi.awake.waits hq.1 hq.2 hspin)

/-- The hypothesis of `sleeplock_safe` is satisfiable: process 0 takes the lock, process 1 sleeps on
it, and process 0 gives it back. Then process 1 is awake. -/
theorem sleeplock_safe_two :
    ∃ s : State (Fin 2) Unit, Reaches State.step State.init s ∧ s.thread 1 =
    .acquire () (.sleep .asleep) ∧
      s.locked () = false ∧ s.state 1 ≠ .SLEEPING := by
  have hrun : Leads State.step (State.init : State (Fin 2) Unit)
      ([.schedule 0, .schedule 1, .acquiresleep 0 ()] ++ List.replicate 4 (.go 0) ++
        [.acquiresleep 1 ()] ++ List.replicate 5 (.go 1) ++ [.sched 1, .releasesleep 0 ()] ++
        List.replicate 6 (.go 0)) fun s => s.thread 1 = .acquire () (.sleep .asleep) ∧
      s.spin () = none ∧ s.locked () = false ∧ s.chan 1 = some () :=
    ⟨_, rfl, rfl, rfl, rfl, rfl⟩
  obtain ⟨s, h, hth, hspin, hlk, hch⟩ := hrun.reaches
  exact ⟨s, h, hth, hlk, fun hst => (sleeplock_safe s h ()).2 hspin hlk 1 ⟨hst, hch⟩⟩

/-- **`holdingsleep` tells whether the process holds the lock.** -/
theorem holdingsleep_eq (h : Reaches State.step State.init s) {r : Bool}
    (hp : s.thread p = .holding k (.rel r)) : r = s.held p k := by
  have hmay := (inv_of_reaches h).owner.may p
  rwa [hp] at hmay

/-- The hypotheses of `holdingsleep_eq` are satisfiable: after `acquiresleep`. -/
theorem holdingsleep_eq_held : ∃ s : State Unit Unit, Reaches State.step State.init s ∧
    s.thread () = .holding () (.rel true) ∧ true = s.held () () := by
  have hrun : Leads State.step (State.init : State Unit Unit)
      ([.schedule (), .acquiresleep () ()] ++ List.replicate 4 (.go ()) ++
        [.holdingsleep () (), .go (), .go ()]) fun s => s.thread () = .holding () (.rel true) :=
    ⟨_, rfl, rfl⟩
  obtain ⟨s, h, hp⟩ := hrun.reaches
  exact ⟨s, h, hp, holdingsleep_eq h hp⟩

end Xv6.Sleeplock
