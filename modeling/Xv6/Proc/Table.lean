/-
# The process table

`proc.c`: `allocproc`, `userinit`, `fork`, `exit`, `wait`, `scheduler`, `yield`,
`sleep`, `wakeup`, `kill` and `nice` on `ptable`, with the tests of `killed` that
`trap` makes around a system call.

A step is one section under `ptable.lock`, or one write made without it: the
failures of `kalloc` and `copyuvm`, each field `fork` copies to the child, each
file `exit` closes.  Any process that is `RUNNING` and not inside `sleep` may make
its next step, so the steps of different processes come in any order.

Left out are the fields that no decision here reads: `pgdir`, `kstack`, `tf`,
`context` and `cwd`.
-/

import Xv6.Param
import Xv6.Lib.Run
import Mathlib.Logic.Function.Basic
import Mathlib.Data.List.FinRange

namespace Xv6.Ptable

open Function

/-- An entry of `ptable.proc`. -/
abbrev Slot := Fin NPROC

/-- `enum procstate`. -/
inductive ProcState where
  | UNUSED
  | EMBRYO
  | SLEEPING
  | RUNNABLE
  | RUNNING
  | ZOMBIE
deriving DecidableEq

/-- A channel to sleep on: a process entry, as `wait` uses it, or another address. -/
inductive Chan where
  | proc (i : Slot)
  | other (addr : ℕ)
deriving DecidableEq

/-- `struct proc`. -/
structure Proc where
  sz : UInt32
  state : ProcState
  pid : ℤ
  parent : Option Slot
  chan : Option Chan
  killed : Bool
  cputicks : UInt32
  ofile : Fin NOFILE → Option (Fin NFILE)
  name : List UInt8
  nice : ℤ
  isPrivileged : Bool

/-- `int` arithmetic: the value modulo `2^32` as a signed number. -/
def int32 (n : ℤ) : ℤ := n.bmod (2 ^ 32)

/-- `safestrcpy(s, t, n)`: the string at `s` afterwards. -/
def safestrcpy (t : List UInt8) (n : ℕ) : List UInt8 := (t.takeWhile (· ≠ 0)).take (n - 1)

/-- Where `fork` is, past the first section of `allocproc`. -/
inductive ForkAt where
  | kalloc
  | copyuvm
  | sz
  | parent
  | nice
  | priv
  | files (fd : ℕ)
  | name
  | run
deriving DecidableEq

/-- Where a process is. -/
inductive Pc where
  /-- In user space. -/
  | user
  /-- In a system call, past the test of `killed`. -/
  | entered
  /-- In `fork`, with the new entry `np`. -/
  | fork (np : Slot) (k : ForkAt)
  /-- In the loop of `wait`. -/
  | waiting
  /-- In `exit`, closing files. -/
  | exitFiles (fd : ℕ)
  /-- In `exit`, before its section under the lock. -/
  | exitLock
  /-- At the end of a system call that returns `r`. -/
  | done (r : ℤ)
deriving DecidableEq

/-- Where a process may sleep on a channel other than its own entry. -/
def Pc.maySleep : Pc → Bool
  | entered | exitFiles _ | exitLock => true
  | _ => false

/-- Where `userinit` is. -/
inductive Boot where
  | start
  | kalloc (p : Slot)
  | setup (p : Slot)
  | run (p : Slot)
  | done
deriving DecidableEq

/-- A `wait` that has returned a child: the child's `pid`, the `pid` of the caller, and
the `pid` of the process that forked the child. -/
structure Reap where
  pid : ℤ
  waiter : ℤ
  forker : ℤ

/-- The process table and where every process is.  The last fields are history: the
number of allocations, the `pid` of the forker of the process in each entry, the
`pid`s of the processes that have exited and of those that were killed, and what `wait`
has returned. -/
structure State where
  proc : Slot → Proc
  nextpid : ℤ
  initproc : Option Slot
  boot : Boot
  pc : Slot → Pc
  allocs : ℕ
  origin : Slot → ℤ
  exited : List ℤ
  kills : List ℤ
  reaped : List Reap

/-- A step. -/
inductive Act where
  | userinit (ok : Bool)
  | schedule
  | yield (i : Slot)
  | sleep (i : Slot) (addr : ℕ)
  | resume (i : Slot)
  | wakeup (addr : ℕ)
  | tick (i : Slot)
  | fault (i : Slot)
  | enter (i : Slot)
  | leave (i : Slot)
  | die (i : Slot)
  | other (i : Slot) (r : ℤ)
  | sbrk (i : Slot) (sz : UInt32)
  | exec (i : Slot) (sz : UInt32) (name : List UInt8)
  | file (i : Slot) (fd : Fin NOFILE) (f : Option (Fin NFILE))
  | allocproc (i : Slot)
  | fork (i : Slot) (ok : Bool)
  | exit (i : Slot)
  | exitStep (i : Slot)
  | wait (i : Slot)
  | kill (i : Slot) (pid : ℤ)
  | nice (i : Slot) (pid priority : ℤ)

namespace State

/-- Every entry zero, as the kernel's data is at boot. -/
def init : State where
  proc _ := ⟨0, .UNUSED, 0, none, none, false, 0, fun _ => none, [], 0, false⟩
  nextpid := 1
  initproc := none
  boot := .start
  pc _ := .user
  allocs := 0
  origin _ := 0
  exited := []
  kills := []
  reaped := []

variable (s : State)

/-- Entry `i` becomes `p`. -/
def set (i : Slot) (p : Proc) : State := { s with proc := update s.proc i p }

/-- Process `i` goes on at `c`. -/
def goto (i : Slot) (c : Pc) : State := { s with pc := update s.pc i c }

/-- The first entry that satisfies `f`. -/
def find (f : Proc → Bool) : Option Slot := (List.finRange NPROC).find? fun i => f (s.proc i)

/-- Process `i` is on a CPU, and not on its way out of `sleep`. -/
def runs (i : Slot) : Prop := (s.proc i).state = .RUNNING ∧ (s.proc i).chan = none

instance (i : Slot) : Decidable (s.runs i) := inferInstanceAs (Decidable (_ ∧ _))

/-- The section of `allocproc` under the lock, with the entry it finds. -/
def allocproc : Option (Slot × State) :=
  (s.find fun p => p.state = .UNUSED).map fun i =>
    (i, { s.set i { s.proc i with
            state := .EMBRYO, pid := s.nextpid, cputicks := 0, nice := 0,
            isPrivileged := false } with
          nextpid := int32 (s.nextpid + 1)
          allocs := s.allocs + 1 })

/-- The next step of `userinit`; `ok` says whether memory is found. -/
def userinit (ok : Bool) : Option (Except String State) :=
  match s.boot with
  | .start => s.allocproc.map fun (p, s) => .ok { s with boot := .kalloc p }
  | .kalloc p => if ok then some (.ok { s with boot := .setup p }) else some (.error "trap")
  | .setup p =>
      if ok then
        some (.ok { s.set p { s.proc p with
            sz := 4096, isPrivileged := false, name := "initcode".toUTF8.toList } with
          initproc := some p, boot := .run p })
      else some (.error "userinit: out of memory?")
  | .run p => some (.ok { s.set p { s.proc p with state := .RUNNABLE } with boot := .done })
  | .done => none

/-- One round of the loop of `scheduler`. -/
def better (b : Option Slot) (p : Slot) : Option Slot :=
  if (s.proc p).state = .RUNNABLE then
    match b with
    | none => some p
    | some q => if (s.proc p).nice < (s.proc q).nice then some p else some q
  else b

/-- The loop of `scheduler`: the entry it switches to. -/
def best : Option Slot := (List.finRange NPROC).foldl s.better none

end State

/-- `wakeup1(chan)`. -/
def wakeup1 (chan : Option Chan) (t : Slot → Proc) : Slot → Proc := fun i =>
  if (t i).state = .SLEEPING ∧ (t i).chan = chan then { t i with state := .RUNNABLE } else t i

/-- One round of the loop of `exit` that passes the children of `cur` to init. -/
def reparent1 (cur : Slot) (initproc : Option Slot) (t : Slot → Proc) (p : Slot) : Slot → Proc :=
  if (t p).parent = some cur then
    let t' := update t p { t p with parent := initproc }
    if (t' p).state = .ZOMBIE then wakeup1 (initproc.map .proc) t' else t'
  else t

/-- The loop of `exit` that passes the children of `cur` to init. -/
def reparent (cur : Slot) (initproc : Option Slot) (t : Slot → Proc) : Slot → Proc :=
  (List.finRange NPROC).foldl (reparent1 cur initproc) t

namespace State

variable (s : State)

/-- The next step of `fork` in process `i` with the new entry `np`; `ok` says whether
memory is found. -/
def forkStep (i np : Slot) (ok : Bool) : ForkAt → State
  | .kalloc =>
      if ok then s.goto i (.fork np .copyuvm)
      else (s.set np { s.proc np with state := .UNUSED }).goto i (.done (-1))
  | .copyuvm =>
      if ok then s.goto i (.fork np .sz)
      else (s.set np { s.proc np with state := .UNUSED }).goto i (.done (-1))
  | .sz => (s.set np { s.proc np with sz := (s.proc i).sz }).goto i (.fork np .parent)
  | .parent => (s.set np { s.proc np with parent := some i }).goto i (.fork np .nice)
  | .nice => (s.set np { s.proc np with nice := (s.proc i).nice }).goto i (.fork np .priv)
  | .priv =>
      (s.set np { s.proc np with isPrivileged := (s.proc i).isPrivileged }).goto i
        (.fork np (.files 0))
  | .files fd =>
      if h : fd < NOFILE then
        (s.set np { s.proc np with
          ofile := match (s.proc i).ofile ⟨fd, h⟩ with
            | some f => update (s.proc np).ofile ⟨fd, h⟩ (some f)
            | none => (s.proc np).ofile }).goto i (.fork np (.files (fd + 1)))
      else s.goto i (.fork np .name)
  | .name => (s.set np { s.proc np with name := safestrcpy (s.proc i).name 16 }).goto i
    (.fork np .run)
  | .run =>
      ((s.set np { s.proc np with state := .RUNNABLE }).goto np .user).goto i
        (.done (s.proc np).pid)

/-- The start of `exit` in process `i`. -/
def exit (i : Slot) : Except String State :=
  if s.initproc = some i then .error "init exiting" else .ok (s.goto i (.exitFiles 0))

/-- `exit` closes the file at `fd`, or has closed them all. -/
def closeFile (i : Slot) (fd : ℕ) : State :=
  if h : fd < NOFILE then
    (s.set i { s.proc i with ofile := update (s.proc i).ofile ⟨fd, h⟩ none }).goto i
      (.exitFiles (fd + 1))
  else s.goto i .exitLock

/-- The section of `exit` under the lock. -/
def exitLocked (i : Slot) : State :=
  let t := reparent i s.initproc (wakeup1 ((s.proc i).parent.map .proc) s.proc)
  { s with
    proc := update t i { t i with state := .ZOMBIE }
    pc := update s.pc i .user
    exited := s.exited ++ [(s.proc i).pid] }

/-- The first exited child of process `i`. -/
def zombieChild (i : Slot) : Option Slot := s.find fun p => p.parent = some i ∧ p.state = .ZOMBIE

/-- Process `i` has a child. -/
def havekids (i : Slot) : Bool := (List.finRange NPROC).any fun j => (s.proc j).parent = some i

/-- One round of the loop of `wait`, to its `release` or its `sleep`. -/
def wait (i : Slot) : State :=
  match s.zombieChild i with
  | some z =>
      { (s.set z { s.proc z with
          pid := 0, parent := none, name := [], killed := false, state := .UNUSED }).goto i
            (.done (s.proc z).pid) with
        reaped := s.reaped ++ [⟨(s.proc z).pid, (s.proc i).pid, s.origin z⟩] }
  | none =>
      if !s.havekids i || (s.proc i).killed then s.goto i (.done (-1))
      else (s.set i { s.proc i with chan := some (.proc i), state := .SLEEPING }).goto i .waiting

/-- `kill`, called by process `i`. -/
def kill (i : Slot) (pid : ℤ) : State :=
  match s.find fun p => p.pid = pid with
  | some j =>
      { (s.set j { s.proc j with
          killed := true
          state := if (s.proc j).state = .SLEEPING then .RUNNABLE else (s.proc j).state }).goto i
            (.done 0) with
        kills := s.kills ++ [pid] }
  | none => s.goto i (.done (-1))

/-- `nice`, called by process `i`. -/
def nice (i : Slot) (pid priority : ℤ) : State :=
  if priority < -20 ∨ 19 < priority then s.goto i (.done (-1))
  else
    match s.find fun p => p.pid = pid with
    | some j =>
        (s.set j { s.proc j with
          nice := if priority < 0 then -priority else priority
          isPrivileged := priority < 0 }).goto i (.done 0)
    | none => s.goto i (.done (-1))

/-- The effect of a step: `none` where it cannot be made, an error where the kernel
panics. -/
def step : Act → Option (Except String State)
  | .userinit ok => s.userinit ok
  | .schedule => s.best.map fun i => .ok (s.set i { s.proc i with state := .RUNNING })
  | .yield i =>
      if s.runs i then some (.ok (s.set i { s.proc i with state := .RUNNABLE })) else none
  | .sleep i addr =>
      if s.runs i ∧ (s.pc i).maySleep then
        some (.ok (s.set i { s.proc i with chan := some (.other addr), state := .SLEEPING }))
      else none
  | .resume i =>
      if (s.proc i).state = .RUNNING then some (.ok (s.set i { s.proc i with chan := none }))
      else none
  | .wakeup addr => some (.ok { s with proc := wakeup1 (some (.other addr)) s.proc })
  | .tick i =>
      if (s.proc i).state = .RUNNING then
        some (.ok (s.set i { s.proc i with cputicks := (s.proc i).cputicks + 1 }))
      else none
  | .fault i =>
      if s.runs i ∧ s.pc i = .user then
        some (.ok { s.set i { s.proc i with killed := true } with
          kills := s.kills ++ [(s.proc i).pid] })
      else none
  | .enter i =>
      if s.runs i ∧ s.pc i = .user ∧ (s.proc i).killed = false then
        some (.ok (s.goto i .entered))
      else none
  | .leave i =>
      match s.pc i with
      | .done _ =>
          if s.runs i ∧ (s.proc i).killed = false then some (.ok (s.goto i .user)) else none
      | _ => none
  | .die i =>
      match s.pc i with
      | .user | .done _ =>
          if s.runs i ∧ (s.proc i).killed = true then some (s.exit i) else none
      | _ => none
  | .other i r => if s.runs i ∧ s.pc i = .entered then some (.ok (s.goto i (.done r))) else none
  | .sbrk i sz =>
      if s.runs i ∧ s.pc i = .entered then some (.ok (s.set i { s.proc i with sz := sz })) else none
  | .exec i sz name =>
      if s.runs i ∧ s.pc i = .entered then
        some (.ok (s.set i { s.proc i with sz := sz, name := safestrcpy name 16 }))
      else none
  | .file i fd f =>
      if s.runs i ∧ s.pc i = .entered then
        some (.ok (s.set i { s.proc i with ofile := update (s.proc i).ofile fd f }))
      else none
  | .allocproc i =>
      if s.runs i ∧ s.pc i = .entered then
        match s.allocproc with
        | some (np, s') =>
            some (.ok { s'.goto i (.fork np .kalloc) with
              origin := update s.origin np (s.proc i).pid })
        | none => some (.ok (s.goto i (.done (-1))))
      else none
  | .fork i ok =>
      match s.pc i with
      | .fork np k => if s.runs i then some (.ok (s.forkStep i np ok k)) else none
      | _ => none
  | .exit i => if s.runs i ∧ s.pc i = .entered then some (s.exit i) else none
  | .exitStep i =>
      match s.pc i with
      | .exitFiles fd => if s.runs i then some (.ok (s.closeFile i fd)) else none
      | .exitLock => if s.runs i then some (.ok (s.exitLocked i)) else none
      | _ => none
  | .wait i =>
      if s.runs i ∧ (s.pc i = .entered ∨ s.pc i = .waiting) then some (.ok (s.wait i)) else none
  | .kill i pid => if s.runs i ∧ s.pc i = .entered then some (.ok (s.kill i pid)) else none
  | .nice i pid priority =>
      if s.runs i ∧ s.pc i = .entered then some (.ok (s.nice i pid priority)) else none

end State

end Xv6.Ptable
