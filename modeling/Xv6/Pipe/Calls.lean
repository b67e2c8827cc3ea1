/-
# Pipe calls

`pipewrite`, `piperead` and `pipeclose` of `pipe.c` on one pipe, with `sleep`, `wakeup` and
`kill` of `proc.c`, as they run in any number of processes at once.  A step is one access
to shared data or one change of a lock: a byte stored or taken under `p->lock`, a test of
`killed`, the scan of the process table in `wakeup` under `ptable.lock`.  `sleep` takes
`ptable.lock` before it gives up `p->lock`, and the scheduler that the process switches to
releases it.

The bytes stored by `pipewrite` and those returned by `piperead` are kept as history.

`Locks` says who holds which lock at each point; every step keeps it (`Locks.step`).
-/

import Xv6.Lib.Lock
import Xv6.Lib.Ring
import Xv6.Proc.Table

namespace Xv6.Pipes

open Function Lib
open Ptable (ProcState)

abbrev PIPESIZE : ℕ := 512

/-- `struct pipe`, without its lock. -/
structure Pipe extends Ring UInt8 PIPESIZE where
  readopen : Bool
  writeopen : Bool

/-- The channels `&p->nread` and `&p->nwrite`. -/
inductive Chan where
  | nread
  | nwrite
deriving DecidableEq

/-- A call on the pipe.  In `pipewrite`, `rest` are the bytes not yet stored, and `fresh` says
that a byte has been stored since the last `wakeup`; in `piperead`, `got` are the bytes in
`addr`. -/
inductive Call where
  | write (n : ℤ) (rest : List UInt8) (fresh : Bool)
  | read (n : ℤ) (got : List UInt8)
  | close (writable : Bool)

/-- Where `wakeup` is. -/
inductive WakeAt where
  | acquire
  | scan
  | release
deriving DecidableEq

/-- Where `sleep` is. -/
inductive SleepAt where
  /-- Before `acquire(&ptable.lock)`. -/
  | acquire
  /-- Before `release(lk)`. -/
  | release
  /-- Before `p->chan` and `p->state` are set. -/
  | set
  /-- In `sched`; the scheduler has not released `ptable.lock`. -/
  | sched
  /-- In `sched`; `ptable.lock` is released. -/
  | asleep
  /-- Back from `sched`, with `ptable.lock`. -/
  | back
  /-- Before `acquire(lk)`. -/
  | relock
deriving DecidableEq

/-- Where a call is. -/
inductive Point where
  /-- Before `acquire(&p->lock)`. -/
  | start
  /-- At the test of the loop: of `for` and `while` in `pipewrite`, of `while` in `piperead`. -/
  | body
  /-- At the test of the second loop of `piperead`. -/
  | copy
  /-- In `wakeup`; `last` says that it is the one before the end of the call. -/
  | wake (last : Bool) (w : WakeAt)
  | sleep (z : SleepAt)
  /-- Before `release(&p->lock)` and the return of `r`. -/
  | rel (r : ℤ)
  /-- Before `kfree`, in `pipeclose`. -/
  | free
deriving DecidableEq

/-- Where `kill` is. -/
inductive KillAt where
  | acquire
  | mark
  | wake
  | release
deriving DecidableEq

/-- What a process does. -/
inductive Thread (P : Type) where
  | out
  | call (c : Call) (a : Point)
  | kill (q : P) (k : KillAt)

/-- The channel that a call sleeps on. -/
def Call.sleepsOn : Call → Chan
  | write _ _ _ => .nwrite
  | read _ _ => .nread
  | close _ => .nread

/-- The channel that a call wakes. -/
def Call.wakes : Call → Chan
  | write _ _ _ => .nread
  | read _ _ => .nwrite
  | close true => .nread
  | close false => .nwrite

/-- The bytes that `piperead` has copied. -/
def Call.got : Call → List UInt8
  | read _ got => got
  | _ => []

/-- The value at the end of the call. -/
def Call.result : Call → ℤ
  | write n _ _ => n
  | read _ got => got.length
  | close _ => 0

/-- The call after a `wakeup`. -/
def Call.woke : Call → Call
  | write n rest _ => write n rest false
  | c => c

/-- The pipe, the two locks, the state, `chan` and `killed` of every process and what it
does.  `stored` and `returned` are history: the bytes stored by `pipewrite` and the bytes
returned by `piperead`. -/
structure State (P : Type) where
  pipe : Pipe
  freed : Bool
  lock : Option P
  ptable : Option P
  state : P → ProcState
  chan : P → Option Chan
  killed : P → Bool
  thread : P → Thread P
  stored : List UInt8
  returned : List UInt8

/-- A step: a call, a step of the thread of a process, or a step of the scheduler. -/
inductive Act (P : Type) where
  | pipewrite (p : P) (n : ℤ) (addr : List UInt8)
  | piperead (p : P) (n : ℤ)
  | pipeclose (p : P) (writable : Bool)
  | kill (p q : P)
  | go (p : P)
  | sched (p : P)
  | schedule (p : P)
  | yield (p : P)

variable {P : Type} [DecidableEq P]

/-- The thread holds `p->lock`. -/
def Point.holds : Point → Bool
  | body | copy | wake _ _ | rel _ | sleep .acquire | sleep .release => true
  | _ => false

/-- The thread, or the scheduler it has switched to, holds `ptable.lock`. -/
def Point.holdsTable : Point → Bool
  | wake _ .scan | wake _ .release | sleep .release | sleep .set | sleep .sched
  | sleep .back => true
  | _ => false

/-- The process holds `p->lock`. -/
def Thread.holds : Thread P → Bool
  | call _ a => a.holds
  | _ => false

/-- The process holds `ptable.lock`. -/
def Thread.holdsTable : Thread P → Bool
  | out => false
  | call _ a => a.holdsTable
  | kill _ k => k ≠ .acquire

namespace State

/-- The pipe as `pipealloc` leaves it, in a page with any contents; no process is in a call. -/
def init (data : Fin PIPESIZE → UInt8) : State P where
  pipe := ⟨⟨data, 0, 0⟩, true, true⟩
  freed := false
  lock := none
  ptable := none
  state _ := .RUNNABLE
  chan _ := none
  killed _ := false
  thread _ := .out
  stored := []
  returned := []

variable (s : State P)

/-- Process `p` goes on as `t`. -/
def goto (p : P) (t : Thread P) : State P := { s with thread := update s.thread p t }

/-- The call `c` in process `p` goes on at `a`. -/
def at_ (p : P) (c : Call) (a : Point) : State P := s.goto p (.call c a)

/-- The scan of `wakeup1(chan)`. -/
def wakeup1 (ch : Chan) : P → ProcState := fun q =>
  if s.state q = .SLEEPING ∧ s.chan q = some ch then .RUNNABLE else s.state q

/-- A step of the loops of `pipewrite` and `piperead` under the lock, or the first part of
`pipeclose`. -/
def body (p : P) : Call → State P
  | .write n [] fresh => s.at_ p (.write n [] fresh) (.wake true .acquire)
  | .write n (b :: rest) fresh =>
      if s.pipe.nwrite = s.pipe.nread + UInt32.ofNat PIPESIZE then
        if s.pipe.readopen = false ∨ s.killed p then
          s.at_ p (.write n (b :: rest) fresh) (.rel (-1))
        else s.at_ p (.write n (b :: rest) fresh) (.wake false .acquire)
      else
        { s.at_ p (.write n rest true) .body with
          pipe := { s.pipe with toRing := s.pipe.toRing.push b }
          stored := s.stored ++ [b] }
  | .read n got =>
      if s.pipe.nread = s.pipe.nwrite ∧ s.pipe.writeopen then
        if s.killed p then s.at_ p (.read n got) (.rel (-1))
        else s.at_ p (.read n got) (.sleep .acquire)
      else s.at_ p (.read n got) .copy
  | .close writable =>
      { s.at_ p (.close writable) (.wake true .acquire) with
        pipe :=
          if writable then { s.pipe with writeopen := false }
          else { s.pipe with readopen := false } }

/-- A step of the second loop of `piperead`. -/
def copy (p : P) (n : ℤ) (got : List UInt8) : State P :=
  if (got.length : ℤ) < n then
    if s.pipe.nread = s.pipe.nwrite then s.at_ p (.read n got) (.wake true .acquire)
    else
      { s.at_ p (.read n (got ++ [s.pipe.front])) .copy with
        pipe := { s.pipe with toRing := s.pipe.toRing.pop } }
  else s.at_ p (.read n got) (.wake true .acquire)

/-- A step of `wakeup`. -/
def wake (p : P) (c : Call) (last : Bool) : WakeAt → Option (State P)
  | .acquire =>
      if s.ptable = none then
        some { s.at_ p c (.wake last .scan) with ptable := some p }
      else none
  | .scan => some { s.at_ p c.woke (.wake last .release) with state := s.wakeup1 c.wakes }
  | .release =>
      some { s.at_ p c (if last then .rel c.result else .sleep .acquire) with ptable := none }

/-- A step of `sleep`, before `sched` and after it. -/
def sleep (p : P) (c : Call) : SleepAt → Option (State P)
  | .acquire =>
      if s.ptable = none then
        some { s.at_ p c (.sleep .release) with ptable := some p }
      else none
  | .release => some { s.at_ p c (.sleep .set) with lock := none }
  | .set =>
      some { s.at_ p c (.sleep .sched) with
        chan := update s.chan p (some c.sleepsOn)
        state := update s.state p .SLEEPING }
  | .sched | .asleep => none
  | .back =>
      some { s.at_ p c (.sleep .relock) with
        chan := update s.chan p none
        ptable := none }
  | .relock => if s.lock = none then some { s.at_ p c .body with lock := some p } else none

/-- The end of a call: `pipeclose` goes on to free the pipe if both ends are closed. -/
def rel (p : P) (c : Call) : State P :=
  { s with
    thread := update s.thread p
      (match c with
      | .close _ =>
          if s.pipe.readopen = false ∧ s.pipe.writeopen = false then .call c .free else .out
      | _ => .out)
    lock := none
    returned := s.returned ++ c.got }

/-- A step of a call. -/
def goCall (p : P) (c : Call) : Point → Option (State P)
  | .start => if s.lock = none then some { s.at_ p c .body with lock := some p } else none
  | .body => some (s.body p c)
  | .copy =>
      match c with
      | .read n got => some (s.copy p n got)
      | _ => none
  | .wake last w => s.wake p c last w
  | .sleep z => s.sleep p c z
  | .rel _ => some (s.rel p c)
  | .free => some { s.goto p .out with freed := true }

/-- A step of `kill`. -/
def goKill (p q : P) : KillAt → Option (State P)
  | .acquire =>
      if s.ptable = none then some { s.goto p (.kill q .mark) with ptable := some p } else none
  | .mark =>
      some { s.goto p (.kill q .wake) with killed := update s.killed q true }
  | .wake =>
      some { s.goto p (.kill q .release) with
        state := update s.state q
          (if s.state q = .SLEEPING then .RUNNABLE else s.state q) }
  | .release => some { s.goto p .out with ptable := none }

/-- A process that is running and not in a call begins one. -/
def enter (p : P) (t : Thread P) : Option (State P) :=
  match s.thread p with
  | .out => if s.state p = .RUNNING then some (s.goto p t) else none
  | _ => none

/-- The effect of a step: `none` where it cannot be made, an error where it uses the pipe after
`kfree`. -/
def step : Act P → Option (Except String (State P))
  | .pipewrite p n addr =>
      if addr.length = n.toNat then (s.enter p (.call (.write n addr false) .start)).map .ok
      else none
  | .piperead p n => (s.enter p (.call (.read n []) .start)).map .ok
  | .pipeclose p writable => (s.enter p (.call (.close writable) .start)).map .ok
  | .kill p q => (s.enter p (.kill q .acquire)).map .ok
  | .go p =>
      if s.state p = .RUNNING then
        match s.thread p with
        | .out => none
        | .call c a => if s.freed then some (.error "pipe freed") else (s.goCall p c a).map .ok
        | .kill q k => (s.goKill p q k).map .ok
      else none
  | .sched p =>
      match s.thread p with
      | .call c (.sleep .sched) => some (.ok { s.at_ p c (.sleep .asleep) with ptable := none })
      | _ => none
  | .schedule p =>
      if s.state p = .RUNNABLE ∧ s.ptable = none then
        match s.thread p with
        | .call c (.sleep .asleep) =>
            some (.ok { s.at_ p c (.sleep .back) with
              state := update s.state p .RUNNING
              ptable := some p })
        | _ => some (.ok { s with state := update s.state p .RUNNING })
      else none
  | .yield p =>
      if s.state p = .RUNNING ∧ s.ptable = none ∧ (s.thread p).holds = false then
        some (.ok { s with state := update s.state p .RUNNABLE })
      else none

end State

/-! ### What a step does -/

/-- What a process may begin. -/
inductive Begins : Thread P → Prop where
  | pipewrite {n : ℤ} {addr : List UInt8} (h : addr.length = n.toNat) :
      Begins (.call (.write n addr false) .start)
  | piperead {n : ℤ} : Begins (.call (.read n []) .start)
  | pipeclose {writable : Bool} : Begins (.call (.close writable) .start)
  | kill {q : P} : Begins (.kill q .acquire)

/-- **The steps of process `p`**, with the tests that lead to each. -/
inductive Moves (s : State P) (p : P) : State P → Prop where
  | enter {t : Thread P} (hp : s.thread p = .out) (hr : s.state p = .RUNNING) (ht : Begins t) :
      Moves s p (s.goto p t)
  | lock {c : Call} {a : Point} (hp : s.thread p = .call c a)
      (ha : a = .start ∨ a = .sleep .relock) (hl : s.lock = none) (hr : s.state p = .RUNNING) :
      Moves s p { s.at_ p c .body with lock := some p }
  | writeEnd {n : ℤ} {fresh : Bool} (hp : s.thread p = .call (.write n [] fresh) .body)
      (hr : s.state p = .RUNNING) : Moves s p (s.at_ p (.write n [] fresh) (.wake true .acquire))
  | writeFail {n : ℤ} {b : UInt8} {rest : List UInt8} {fresh : Bool}
      (hp : s.thread p = .call (.write n (b :: rest) fresh) .body)
      (hfull : s.pipe.count = PIPESIZE) (hk : s.pipe.readopen = false ∨ s.killed p = true)
      (hr : s.state p = .RUNNING) : Moves s p (s.at_ p (.write n (b :: rest) fresh) (.rel (-1)))
  | writeFull {n : ℤ} {b : UInt8} {rest : List UInt8} {fresh : Bool}
      (hp : s.thread p = .call (.write n (b :: rest) fresh) .body)
      (hfull : s.pipe.count = PIPESIZE) (ho : s.pipe.readopen = true) (hr : s.state p = .RUNNING) :
      Moves s p (s.at_ p (.write n (b :: rest) fresh) (.wake false .acquire))
  | store {n : ℤ} {b : UInt8} {rest : List UInt8} {fresh : Bool}
      (hp : s.thread p = .call (.write n (b :: rest) fresh) .body)
      (hfull : s.pipe.count ≠ PIPESIZE) (hr : s.state p = .RUNNING) :
      Moves s p { s.at_ p (.write n rest true) .body with
        pipe := { s.pipe with toRing := s.pipe.toRing.push b }
        stored := s.stored ++ [b] }
  | readFail {n : ℤ} {got : List UInt8} (hp : s.thread p = .call (.read n got) .body)
      (hr : s.state p = .RUNNING) : Moves s p (s.at_ p (.read n got) (.rel (-1)))
  | readWait {n : ℤ} {got : List UInt8} (hp : s.thread p = .call (.read n got) .body)
      (he : s.pipe.count = 0) (ho : s.pipe.writeopen = true) (hr : s.state p = .RUNNING) :
      Moves s p (s.at_ p (.read n got) (.sleep .acquire))
  | readCopy {n : ℤ} {got : List UInt8} (hp : s.thread p = .call (.read n got) .body)
      (he : s.pipe.count ≠ 0 ∨ s.pipe.writeopen = false) (hr : s.state p = .RUNNING) :
      Moves s p (s.at_ p (.read n got) .copy)
  | take {n : ℤ} {got : List UInt8} (hp : s.thread p = .call (.read n got) .copy)
      (he : s.pipe.count ≠ 0) (hr : s.state p = .RUNNING) :
      Moves s p { s.at_ p (.read n (got ++ [s.pipe.front])) .copy with
        pipe := { s.pipe with toRing := s.pipe.toRing.pop } }
  | readEnd {n : ℤ} {got : List UInt8} (hp : s.thread p = .call (.read n got) .copy)
      (he : (got.length : ℤ) < n → s.pipe.count = 0) (hr : s.state p = .RUNNING) :
      Moves s p (s.at_ p (.read n got) (.wake true .acquire))
  | close {writable : Bool} (hp : s.thread p = .call (.close writable) .body)
      (hr : s.state p = .RUNNING) :
      Moves s p { s.at_ p (.close writable) (.wake true .acquire) with
        pipe :=
          if writable then { s.pipe with writeopen := false }
          else { s.pipe with readopen := false } }
  | wakeLock {c : Call} {last : Bool} (hp : s.thread p = .call c (.wake last .acquire))
      (hl : s.ptable = none) (hr : s.state p = .RUNNING) :
      Moves s p { s.at_ p c (.wake last .scan) with ptable := some p }
  | wakeScan {c : Call} {last : Bool} (hp : s.thread p = .call c (.wake last .scan))
      (hr : s.state p = .RUNNING) :
      Moves s p { s.at_ p c.woke (.wake last .release) with state := s.wakeup1 c.wakes }
  | wakeEnd {c : Call} {last : Bool} (hp : s.thread p = .call c (.wake last .release))
      (hr : s.state p = .RUNNING) :
      Moves s p { s.at_ p c (if last then .rel c.result else .sleep .acquire) with ptable := none }
  | sleepLock {c : Call} (hp : s.thread p = .call c (.sleep .acquire)) (hl : s.ptable = none)
      (hr : s.state p = .RUNNING) :
      Moves s p { s.at_ p c (.sleep .release) with ptable := some p }
  | sleepRelease {c : Call} (hp : s.thread p = .call c (.sleep .release))
      (hr : s.state p = .RUNNING) : Moves s p { s.at_ p c (.sleep .set) with lock := none }
  | sleepSet {c : Call} (hp : s.thread p = .call c (.sleep .set)) (hr : s.state p = .RUNNING) :
      Moves s p { s.at_ p c (.sleep .sched) with
        chan := update s.chan p (some c.sleepsOn)
        state := update s.state p .SLEEPING }
  | sched {c : Call} (hp : s.thread p = .call c (.sleep .sched)) :
      Moves s p { s.at_ p c (.sleep .asleep) with ptable := none }
  | resume {c : Call} (hp : s.thread p = .call c (.sleep .asleep)) (hl : s.ptable = none)
      (hr : s.state p = .RUNNABLE) :
      Moves s p { s.at_ p c (.sleep .back) with
        state := update s.state p .RUNNING
        ptable := some p }
  | sleepBack {c : Call} (hp : s.thread p = .call c (.sleep .back)) (hr : s.state p = .RUNNING) :
      Moves s p { s.at_ p c (.sleep .relock) with
        chan := update s.chan p none
        ptable := none }
  | rel {c : Call} {r : ℤ} (hp : s.thread p = .call c (.rel r)) (hr : s.state p = .RUNNING) :
      Moves s p (s.rel p c)
  | free {c : Call} (hp : s.thread p = .call c .free) (hr : s.state p = .RUNNING) :
      Moves s p { s.goto p .out with freed := true }
  | killLock {q : P} (hp : s.thread p = .kill q .acquire) (hl : s.ptable = none)
      (hr : s.state p = .RUNNING) :
      Moves s p { s.goto p (.kill q .mark) with ptable := some p }
  | killMark {q : P} (hp : s.thread p = .kill q .mark) (hr : s.state p = .RUNNING) :
      Moves s p { s.goto p (.kill q .wake) with killed := update s.killed q true }
  | killWake {q : P} (hp : s.thread p = .kill q .wake) (hr : s.state p = .RUNNING) :
      Moves s p { s.goto p (.kill q .release) with
        state := update s.state q
          (if s.state q = .SLEEPING then .RUNNABLE else s.state q) }
  | killEnd {q : P} (hp : s.thread p = .kill q .release) (hr : s.state p = .RUNNING) :
      Moves s p { s.goto p .out with ptable := none }
  | run (hr : s.state p = .RUNNABLE) (hl : s.ptable = none)
      (hp : ∀ c, s.thread p ≠ .call c (.sleep .asleep)) :
      Moves s p { s with state := update s.state p .RUNNING }
  | yield (hr : s.state p = .RUNNING) :
      Moves s p { s with state := update s.state p .RUNNABLE }

variable {s s' : State P} {p : P} {c : Call}

theorem moves_enter {t : Thread P} (ht : Begins t)
    (h : (s.enter p t).map Except.ok = some (.ok s' : Except String (State P))) : Moves s p s' := by
  obtain ⟨s1, hs, he⟩ := Option.map_eq_some_iff.1 h
  cases he
  unfold State.enter at hs
  split at hs
  · rename_i hp
    split_ifs at hs with hr
    cases hs
    exact .enter hp hr ht
  · cases hs

theorem full_iff (r : Pipe) : r.nwrite = r.nread + UInt32.ofNat PIPESIZE ↔ r.count = PIPESIZE :=
  (r.toRing.count_eq (by decide)).symm

theorem moves_body (hp : s.thread p = .call c .body) (hr : s.state p = .RUNNING) :
    Moves s p (s.body p c) := by
  unfold State.body
  split
  · exact .writeEnd hp hr
  · split_ifs with hf hk
    · exact .writeFail hp ((full_iff _).1 hf) hk hr
    · exact .writeFull hp ((full_iff _).1 hf) (by simpa using fun h => hk (.inl h)) hr
    · exact .store hp (fun hc => hf ((full_iff _).2 hc)) hr
  · split_ifs with he hk
    · exact .readFail hp hr
    · exact .readWait hp (s.pipe.toRing.count_eq_zero.2 he.1) he.2 hr
    · refine .readCopy hp ?_ hr
      rw [Ne, s.pipe.toRing.count_eq_zero]
      by_contra hc
      simp only [not_or, not_not, Bool.not_eq_false] at hc
      exact he hc
  · exact .close hp hr

theorem moves_copy {n : ℤ} {got : List UInt8} (hp : s.thread p = .call (.read n got) .copy)
    (hr : s.state p = .RUNNING) : Moves s p (s.copy p n got) := by
  unfold State.copy
  split_ifs with hn he
  · exact .readEnd hp (fun _ => s.pipe.toRing.count_eq_zero.2 he) hr
  · exact .take hp (fun hc => he (s.pipe.toRing.count_eq_zero.1 hc)) hr
  · exact .readEnd hp (fun hc => absurd hc hn) hr

theorem moves_goCall {a : Point} (hp : s.thread p = .call c a) (hr : s.state p = .RUNNING)
    (h : s.goCall p c a = some s') : Moves s p s' := by
  unfold State.goCall at h
  split at h
  · split_ifs at h with hl
    cases h
    exact .lock hp (.inl rfl) hl hr
  · cases h
    exact moves_body hp hr
  · split at h
    · cases h
      exact moves_copy hp hr
    · cases h
  · rename_i last w
    cases w with
    | acquire =>
      simp only [State.wake] at h
      split_ifs at h with hl
      cases h
      exact .wakeLock hp hl hr
    | scan =>
      cases h
      exact .wakeScan hp hr
    | release =>
      cases h
      exact .wakeEnd hp hr
  · rename_i z
    cases z with
    | acquire =>
      simp only [State.sleep] at h
      split_ifs at h with hl
      cases h
      exact .sleepLock hp hl hr
    | release =>
      cases h
      exact .sleepRelease hp hr
    | set =>
      cases h
      exact .sleepSet hp hr
    | sched => cases h
    | asleep => cases h
    | back =>
      cases h
      exact .sleepBack hp hr
    | relock =>
      simp only [State.sleep] at h
      split_ifs at h with hl
      cases h
      exact .lock hp (.inr rfl) hl hr
  · cases h
    exact .rel hp hr
  · cases h
    exact .free hp hr

theorem moves_goKill {q : P} {k : KillAt} (hp : s.thread p = .kill q k)
    (hr : s.state p = .RUNNING) (h : s.goKill p q k = some s') : Moves s p s' := by
  cases k with
  | acquire =>
    simp only [State.goKill] at h
    split_ifs at h with hl
    cases h
    exact .killLock hp hl hr
  | mark =>
    cases h
    exact .killMark hp hr
  | wake =>
    cases h
    exact .killWake hp hr
  | release =>
    cases h
    exact .killEnd hp hr

/-- The process that makes a step. -/
def Act.proc : Act P → P
  | pipewrite p _ _ | piperead p _ | pipeclose p _ | kill p _ | go p | sched p | schedule p
  | yield p => p

/-- **Every step is one of `Moves`.** -/
theorem moves_step {a : Act P} (h : s.step a = some (.ok s')) : Moves s a.proc s' := by
  cases a with
  | pipewrite p n addr =>
    simp only [State.step] at h
    split_ifs at h with hn
    exact moves_enter (.pipewrite hn) h
  | piperead p n => exact moves_enter .piperead h
  | pipeclose p w => exact moves_enter .pipeclose h
  | kill p q => exact moves_enter .kill h
  | go p =>
    simp only [State.step] at h
    rw [Option.ite_none_right_eq_some] at h
    obtain ⟨hr, h⟩ := h
    split at h
    · cases h
    · rename_i c a hp
      split at h
      · cases h
      · obtain ⟨s1, hs, he⟩ := Option.map_eq_some_iff.1 h
        cases he
        exact moves_goCall hp hr hs
    · rename_i q k hp
      obtain ⟨s1, hs, he⟩ := Option.map_eq_some_iff.1 h
      cases he
      exact moves_goKill hp hr hs
  | sched p =>
    simp only [State.step] at h
    split at h
    · rename_i c hp
      cases h
      exact .sched hp
    · cases h
  | schedule p =>
    simp only [State.step] at h
    split_ifs at h with hr
    split at h
    · rename_i c hp
      cases h
      exact .resume hp hr.2 hr.1
    · rename_i hp
      cases h
      exact .run hr.1 hr.2 hp
  | yield p =>
    simp only [State.step] at h
    split_ifs at h with hr
    cases h
    exact .yield hr.1

/-! ### Who holds the locks -/

/-- **The locks are held where the code says.** -/
structure Locks (s : State P) : Prop where
  pipe : Held Thread.holds s.thread s.lock
  table : Held Thread.holdsTable s.thread s.ptable

omit [DecidableEq P] in
theorem locks_init (data : Fin PIPESIZE → UInt8) : Locks (State.init data : State P) where
  pipe p := ⟨fun h => (by cases h), nofun⟩
  table p := ⟨fun h => (by cases h), nofun⟩

theorem Locks.step (h : Locks s) (hm : Moves s p s') : Locks s' := by
  cases hm with
  | enter hp hr ht =>
    exact ⟨h.pipe.keep (by rw [hp]; cases ht <;> rfl), h.table.keep (by rw [hp]; cases ht <;> rfl)⟩
  | lock hp ha hl hr =>
    exact ⟨h.pipe.acquire hl rfl, h.table.keep (by rw [hp]; rcases ha with rfl | rfl <;> rfl)⟩
  | wakeLock hp hl hr | sleepLock hp hl hr | resume hp hl hr | killLock hp hl hr =>
    exact ⟨h.pipe.keep (by rw [hp]; rfl), h.table.acquire hl rfl⟩
  | wakeEnd hp hr =>
    rename_i last
    cases last <;>
      exact ⟨h.pipe.keep (by rw [hp]; rfl), h.table.release (by rw [hp]; rfl) rfl⟩
  | sleepRelease hp hr =>
    exact ⟨h.pipe.release (by rw [hp]; rfl) rfl, h.table.keep (by rw [hp]; rfl)⟩
  | sched hp | sleepBack hp hr | killEnd hp hr =>
    exact ⟨h.pipe.keep (by rw [hp]; rfl), h.table.release (by rw [hp]; rfl) rfl⟩
  | rel hp hr =>
    rename_i c r
    refine ⟨h.pipe.release (by rw [hp]; rfl) ?_, h.table.keep ?_⟩
    · cases c <;> dsimp only <;> first | rfl | (split_ifs <;> rfl)
    · rw [hp]
      cases c <;> dsimp only <;> first | rfl | (split_ifs <;> rfl)
  | run hr hl hp => exact ⟨h.pipe, h.table⟩
  | yield hr => exact ⟨h.pipe, h.table⟩
  | _ hp => exact ⟨h.pipe.keep (by rw [hp]; rfl), h.table.keep (by rw [hp]; rfl)⟩

end Xv6.Pipes
