/-
# Processes and CPUs

`proc.c`: `scheduler`, `sched`, `yield`, `sleep`, `exit`, `forkret`, `wakeup` and `kill`,
with `fork` and `wait`, on any number of CPUs.  `Xv6.Proc.Table` takes a section under
`ptable.lock` as one step; here the sections are taken apart, for the lock is not released
by the thread that acquired it: it goes along with `swtch` from the scheduler to a process
and back.

A CPU runs its scheduler thread or the thread of a process, and is at a point of the code
(`At`).  `swtch` saves the point in a context and takes another one up.  A step is one
assignment to shared data, or one change of a lock or context; outside the lock a thread
does what it likes.

`Cpus` says for each CPU and each process what holds at each point, and `Cpus.step` that
every step keeps it.  `one_cpu` reads off what holds while the lock is free.
-/

import Xv6.Proc.Kill

namespace Xv6.Ptable

open Function Lib Option

/-- Where the thread of a process goes on after `swtch`: in `forkret`, or after the call
of `sched` in `yield`, `sleep` or `exit`.  `held` says that `sleep` was called with
`ptable.lock`, as `wait` does, so that it keeps the lock. -/
inductive Kont where
  | forkret
  | yield
  | sleep (held : Bool)
  | exit
deriving DecidableEq

/-- Where the thread on a CPU is. -/
inductive At where
  /-- Anywhere outside `ptable.lock`. -/
  | out
  /-- Past `acquire(&ptable.lock)`. -/
  | locked
  /-- `scheduler` has chosen `p`. -/
  | setProc (p : Slot)
  /-- `scheduler` has set `c->proc`. -/
  | setRunning (p : Slot)
  /-- `scheduler` has set the state of `p`. -/
  | toProc (p : Slot)
  /-- `scheduler` is back from `swtch`. -/
  | back
  /-- Before `release(&ptable.lock)`. -/
  | rel
  /-- In `sched`, called from where `k` says. -/
  | sched (k : Kont)
  /-- Back from `swtch` in the thread of a process. -/
  | resume (k : Kont)
deriving DecidableEq

/-- The thread holds `ptable.lock`. -/
def At.holds : At → Bool
  | out => false
  | _ => true

/-- `struct cpu`, with the thread that runs on it (`none` for the scheduler's) and where it
is. -/
structure Cpu where
  proc : Option Slot
  scheduler : Option At
  running : Option Slot
  pc : At

/-- The process table, the contexts of the processes, the CPUs and `ptable.lock`.  `making p`
is the entry that process `p` is making in `fork`, and whether its context is set up. -/
structure Machine (C : Type) where
  proc : Slot → Proc
  nextpid : ℤ
  initproc : Slot
  context : Slot → Option Kont
  making : Slot → Option (Slot × Bool)
  cpu : C → Cpu
  lock : Option C

/-- A step of the thread on CPU `c`. -/
inductive Move (C : Type) where
  | acquire (c : C)
  | release (c : C)
  | pick (c : C)
  | setProc (c : C)
  | setRunning (c : C)
  | toProc (c : C)
  | clear (c : C)
  | yield (c : C)
  | sleep (c : C) (chan : Chan) (held : Bool)
  | exit (c : C)
  | swtch (c : C)
  | resume (c : C)
  | wakeup (c : C) (chan : Chan)
  | kill (c : C) (pid : ℤ)
  | reap (c : C)
  | allocproc (c : C)
  | prepare (c : C)
  | fail (c : C)
  | start (c : C)
  | nice (c : C) (pid priority : ℤ)
  | leave (c : C)

variable {C : Type} [DecidableEq C] {np : Slot} {e : Proc}

namespace Machine

/-- After `userinit`, with every CPU at the start of `scheduler`. -/
def init : Machine C where
  proc := update State.init.proc 0
    { State.init.proc 0 with
      sz := 4096, state := .RUNNABLE, pid := 1, name := "initcode".toUTF8.toList }
  nextpid := 2
  initproc := 0
  context := update (fun _ => none) 0 (some .forkret)
  making _ := none
  cpu _ := ⟨none, none, none, .out⟩
  lock := none

variable (m : Machine C)

/-- Entry `i` becomes `p`. -/
def set (i : Slot) (p : Proc) : Machine C := { m with proc := update m.proc i p }

/-- CPU `c` becomes `k`. -/
def setCpu (c : C) (k : Cpu) : Machine C := { m with cpu := update m.cpu c k }

/-- The thread on CPU `c` goes on at `a`. -/
def goto (c : C) (a : At) : Machine C := m.setCpu c { m.cpu c with pc := a }

/-- The first entry that satisfies `f`. -/
def find (f : Proc → Bool) : Option Slot := (List.finRange NPROC).find? fun i => f (m.proc i)

/-- The loop of `scheduler`: the entry it switches to. -/
def best : Option Slot := { State.init with proc := m.proc }.best

/-- A section of process `myproc()` under the lock. -/
def asProc (c : C) (f : Slot → Option (Except String (Machine C))) :
    Option (Except String (Machine C)) :=
  if (m.cpu c).running ≠ none ∧ (m.cpu c).pc = .locked then
    match (m.cpu c).proc with
    | some p => f p
    | none => some (.error "trap")
  else none

/-- The locked section of `exit` in process `p`. -/
def exited (p : Slot) : Slot → Proc :=
  let t := reparent p (some m.initproc) (wakeup1 ((m.proc p).parent.map .proc) m.proc)
  update t p { t p with state := .ZOMBIE }

/-- `kill(pid)`. -/
def killed (pid : ℤ) : Slot → Proc :=
  match m.find fun p => p.pid = pid with
  | some j =>
      update m.proc j { m.proc j with
        killed := true
        state := if (m.proc j).state = .SLEEPING then .RUNNABLE else (m.proc j).state }
  | none => m.proc

/-- `nice(pid, priority)`, past the test of `priority`. -/
def niced (pid priority : ℤ) : Slot → Proc :=
  match m.find fun p => p.pid = pid with
  | some j =>
      update m.proc j { m.proc j with
        nice := if priority < 0 then -priority else priority
        isPrivileged := decide (priority < 0) }
  | none => m.proc

/-- The effect of a step: `none` where it cannot be made, an error where the kernel panics
or takes up a context that is not saved. -/
def step : Move C → Option (Except String (Machine C))
  | .acquire c =>
      if (m.cpu c).pc = .out ∧ m.lock = none then
        some (.ok { m.goto c .locked with lock := some c })
      else none
  | .release c =>
      if (m.cpu c).pc = .rel then some (.ok { m.goto c .out with lock := none }) else none
  | .pick c =>
      if (m.cpu c).running = none ∧ (m.cpu c).pc = .locked then
        match m.best with
        | some p => some (.ok (m.goto c (.setProc p)))
        | none => some (.ok (m.goto c .rel))
      else none
  | .setProc c =>
      match (m.cpu c).pc with
      | .setProc p => some (.ok (m.setCpu c { m.cpu c with proc := some p, pc := .setRunning p }))
      | _ => none
  | .setRunning c =>
      match (m.cpu c).pc with
      | .setRunning p =>
          some (.ok ((m.set p { m.proc p with state := .RUNNING }).goto c (.toProc p)))
      | _ => none
  | .toProc c =>
      match (m.cpu c).pc with
      | .toProc p =>
          match m.context p with
          | some k =>
              some (.ok { m.setCpu c { m.cpu c with
                  scheduler := some .back, running := some p, pc := .resume k } with
                context := update m.context p none })
          | none => some (.error "context in use")
      | _ => none
  | .clear c =>
      if (m.cpu c).pc = .back then
        some (.ok (m.setCpu c { m.cpu c with proc := none, pc := .rel }))
      else none
  | .yield c => m.asProc c fun p =>
      some (.ok ((m.set p { m.proc p with state := .RUNNABLE }).goto c (.sched .yield)))
  | .sleep c chan held => m.asProc c fun p =>
      some (.ok ((m.set p { m.proc p with chan := some chan, state := .SLEEPING }).goto c
        (.sched (.sleep held))))
  | .exit c => m.asProc c fun p =>
      if m.making p ≠ none then none
      else if p = m.initproc then some (.error "init exiting")
      else some (.ok { m.goto c (.sched .exit) with proc := m.exited p })
  | .swtch c =>
      match (m.cpu c).pc, (m.cpu c).proc with
      | .sched k, some p =>
          if (m.proc p).state = .RUNNING then some (.error "sched running")
          else
            match (m.cpu c).scheduler with
            | some a =>
                some (.ok { m.setCpu c
                    { m.cpu c with scheduler := none, running := none, pc := a } with
                  context := update m.context p (some k) })
            | none => some (.error "context in use")
      | _, _ => none
  | .resume c =>
      match (m.cpu c).pc, (m.cpu c).running with
      | .resume .forkret, _ | .resume .yield, _ => some (.ok (m.goto c .rel))
      | .resume (.sleep held), some p =>
          some (.ok ((m.set p { m.proc p with chan := none }).goto c
            (if held then .locked else .rel)))
      | .resume .exit, _ => some (.error "zombie exit")
      | _, _ => none
  | .wakeup c chan =>
      if (m.cpu c).pc = .locked then
        some (.ok { m.goto c .rel with proc := wakeup1 (some chan) m.proc })
      else none
  | .kill c pid => m.asProc c fun _ => some (.ok { m.goto c .rel with proc := m.killed pid })
  | .reap c => m.asProc c fun p =>
      (m.find fun q => q.parent = some p ∧ q.state = .ZOMBIE).map fun z =>
        .ok ((m.set z { m.proc z with
          pid := 0, parent := none, name := [], killed := false, state := .UNUSED }).goto c .rel)
  | .allocproc c => m.asProc c fun p =>
      if m.making p = none then
        (m.find fun q => q.state = .UNUSED).map fun np =>
          .ok { (m.set np { m.proc np with
              state := .EMBRYO, pid := m.nextpid, cputicks := 0, nice := 0,
              isPrivileged := false }).goto c .rel with
            nextpid := int32 (m.nextpid + 1)
            making := update m.making p (some (np, false)) }
      else none
  | .prepare c =>
      match (m.cpu c).pc, (m.cpu c).running with
      | .out, some p =>
          match m.making p with
          | some (np, false) =>
              some (.ok { m.set np { m.proc np with
                  sz := (m.proc p).sz, parent := some p, nice := (m.proc p).nice,
                  isPrivileged := (m.proc p).isPrivileged,
                  name := safestrcpy (m.proc p).name 16 } with
                context := update m.context np (some .forkret)
                making := update m.making p (some (np, true)) })
          | _ => none
      | _, _ => none
  | .fail c =>
      match (m.cpu c).pc, (m.cpu c).running with
      | .out, some p =>
          match m.making p with
          | some (np, _) =>
              some (.ok { m.set np { m.proc np with state := .UNUSED } with
                making := update m.making p none })
          | none => none
      | _, _ => none
  | .start c => m.asProc c fun p =>
      match m.making p with
      | some (np, true) =>
          some (.ok { (m.set np { m.proc np with state := .RUNNABLE }).goto c .rel with
            making := update m.making p none })
      | _ => none
  | .nice c pid priority => m.asProc c fun _ =>
      if priority < -20 ∨ 19 < priority then none
      else some (.ok { m.goto c .rel with proc := m.niced pid priority })
  | .leave c => if (m.cpu c).pc = .locked then some (.ok (m.goto c .rel)) else none

end Machine

/-! ### The invariant -/

/-- The states of a process that is not on a CPU. -/
def ProcState.resting : ProcState → Bool
  | RUNNABLE | SLEEPING | ZOMBIE => true
  | _ => false

/-- What holds of a CPU at each point; `st` are the states and `ctx` the contexts of the
processes. -/
def Cpu.Ok (k : Cpu) (st : Slot → ProcState) (ctx : Slot → Option Kont) : Prop :=
  match k.running with
  | some p => k.proc = some p ∧ k.scheduler = some .back ∧ ctx p = none ∧
      match k.pc with
      | .out | .locked | .rel => st p = .RUNNING
      | .resume kt => st p = .RUNNING ∧ kt ≠ .exit
      | .sched kt => (st p).resting = true ∧ (st p ≠ .ZOMBIE → kt ≠ .exit)
      | _ => False
  | none =>
      match k.pc with
      | .out | .locked | .rel => k.proc = none
      | .setProc p => k.proc = none ∧ st p = .RUNNABLE
      | .setRunning p => k.proc = some p ∧ st p = .RUNNABLE
      | .toProc p => k.proc = some p ∧ st p = .RUNNING ∧ ∃ kt, ctx p = some kt ∧ kt ≠ .exit
      | .back => ∃ p, k.proc = some p ∧ (st p).resting = true ∧ ctx p ≠ none
      | _ => False

/-- The state of each process. -/
def Machine.st (m : Machine C) (p : Slot) : ProcState := (m.proc p).state

/-- The context of process `p` is saved, and not in `exit` while `p` can go on. -/
def Machine.Saved (m : Machine C) (p : Slot) : Prop :=
  ∃ k, m.context p = some k ∧ (m.st p ≠ .ZOMBIE → k ≠ .exit)

/-- **The invariant of the CPUs and the process table.** -/
structure Cpus (m : Machine C) : Prop where
  lock : ∀ c, (m.cpu c).pc.holds = true ↔ m.lock = some c
  ok : ∀ c, (m.cpu c).Ok m.st m.context
  uniq : ∀ c c' p, (m.cpu c).proc = some p → (m.cpu c').proc = some p → c = c'
  run : ∀ p, m.st p = .RUNNING → ∃ c, (m.cpu c).proc = some p
  saved : ∀ p, (m.st p).resting = true → (∃ c, (m.cpu c).running = some p) ∨ m.Saved p
  making : ∀ p np b, m.making p = some (np, b) →
    m.st np = .EMBRYO ∧ (b = true → m.context np = some .forkret)
  owner : ∀ p p' np b b', m.making p = some (np, b) → m.making p' = some (np, b') → p = p'

/-- What holds of the entries that processes are making. -/
def Machine.Makes (m : Machine C) : Prop :=
  (∀ p np b, m.making p = some (np, b) →
    m.st np = .EMBRYO ∧ (b = true → m.context np = some .forkret)) ∧
  ∀ p p' np b b', m.making p = some (np, b) → m.making p' = some (np, b') → p = p'

section Cpus

set_option linter.unusedSectionVars false

variable {m m' : Machine C} {k : Cpu} {c : C} {p : Slot} {st st' : Slot → ProcState}
  {ctx ctx' : Slot → Option Kont} {q : Slot}

theorem Cpu.Ok.congr (h : k.Ok st ctx)
    (hp : ∀ p, k.proc = some p ∨ k.pc = .setProc p → st' p = st p ∧ ctx' p = ctx p) :
    k.Ok st' ctx' := by
  unfold Cpu.Ok at h ⊢
  split at h
  · obtain ⟨h1, h2, h3, h4⟩ := h
    obtain ⟨hs, hc⟩ := hp _ (.inl h1)
    rw [hs, hc]
    exact ⟨h1, h2, h3, h4⟩
  · split at h
    · exact h
    · exact h
    · exact h
    · rename_i q hpc
      rw [(hp q (.inr hpc)).1]
      exact h
    · rename_i q hpc
      rw [(hp q (.inl h.1)).1]
      exact h
    · rename_i q hpc
      rw [(hp q (.inl h.1)).1, (hp q (.inl h.1)).2]
      exact h
    · obtain ⟨q, h1, h2, h3⟩ := h
      exact ⟨q, h1, (hp q (.inl h1)).1 ▸ h2, (hp q (.inl h1)).2 ▸ h3⟩
    · exact h

/-- On a CPU that does not hold the lock, `c->proc` is the process that runs there. -/
theorem Cpu.Ok.out (h : k.Ok st ctx) (hk : k.pc = .out) (hp : k.proc = some p) :
    k.running = some p ∧ st p = .RUNNING ∧ ctx p = none := by
  unfold Cpu.Ok at h
  rw [hk] at h
  split at h
  · rename_i q hq
    obtain rfl : q = p := some.inj (h.1.symm.trans hp)
    exact ⟨hq, h.2.2.2, h.2.2.1⟩
  · rw [hp] at h
    cases h

/-- The thread of a process runs where `c->proc` says. -/
theorem Cpu.Ok.running (h : k.Ok st ctx) (hp : k.running = some p) :
    k.proc = some p ∧ k.scheduler = some .back ∧ ctx p = none := by
  unfold Cpu.Ok at h
  rw [hp] at h
  exact ⟨h.1, h.2.1, h.2.2.1⟩

/-- `c->proc` is a process that has been started. -/
theorem Cpu.Ok.started (h : k.Ok st ctx) (hp : k.proc = some p ∨ k.pc = .setProc p) :
    st p = .RUNNING ∨ (st p).resting = true := by
  unfold Cpu.Ok at h
  split at h
  · obtain ⟨h1, -, -, h4⟩ := h
    rcases hp with hp | hp
    · obtain rfl := some.inj (h1.symm.trans hp)
      split at h4
      · exact .inl h4
      · exact .inl h4
      · exact .inl h4
      · exact .inl h4.1
      · exact .inr h4.1
      · exact h4.elim
    · rw [hp] at h4
      exact h4.elim
  · rcases hp with hp | hp
    · split at h
      · rw [hp] at h; cases h
      · rw [hp] at h; cases h
      · rw [hp] at h; cases h
      · rw [hp] at h; cases h.1
      · obtain rfl := some.inj (h.1.symm.trans hp)
        exact .inr (by rw [h.2]; rfl)
      · obtain rfl := some.inj (h.1.symm.trans hp)
        exact .inl h.2.1
      · obtain ⟨q, h1, h2, -⟩ := h
        obtain rfl := some.inj (h1.symm.trans hp)
        exact .inr h2
      · exact h.elim
    · rw [hp] at h
      exact .inr (by rw [h.2]; rfl)

theorem At.eq_out {a : At} (h : a.holds = false) : a = .out := by
  cases a <;> first | rfl | cases h

/-- One CPU at most holds the lock. -/
theorem Cpus.out_of_ne (h : Cpus m) {c' : C} (hne : m.lock ≠ some c') : (m.cpu c').pc = .out :=
  At.eq_out (Bool.eq_false_iff.2 (mt (h.lock c').1 hne))

theorem Cpus.others_out (h : Cpus m) (hold : m.lock = some c) : ∀ c' ≠ c, (m.cpu c').pc = .out :=
  fun _ hne => h.out_of_ne fun hl => hne (some.inj (hl.symm.trans hold))

/-- Where the CPUs other than `c` are out of the lock, a process that rests and has no thread on
`c` has its context saved. -/
theorem Cpus.saved_of_ne (h : Cpus m) (hout : ∀ c' ≠ c, (m.cpu c').pc = .out)
    (hq : (m.st q).resting = true) (hne : (m.cpu c).running ≠ some q) : m.Saved q := by
  rcases h.saved q hq with ⟨c', hc'⟩ | hs
  · have hcc : c' ≠ c := by
      rintro rfl
      exact hne hc'
    rw [((h.ok c').out (hout c' hcc) ((h.ok c').running hc').1).2.1] at hq
    cases hq
  · exact hs

/-- What a step of CPU `c` may do to process `q`, where `c` becomes `k` and the other CPUs are
out of the lock. -/
structure Local (m m' : Machine C) (c : C) (k : Cpu) (q : Slot) : Prop where
  keep : m.st q = .RUNNING → (m.cpu c).proc ≠ some q →
    m'.st q = .RUNNING ∧ m'.context q = m.context q
  proc : k.proc = some q → (m.cpu c).proc = some q ∨ (m.st q).resting = true
  run : m'.st q = .RUNNING → m.st q = .RUNNING ∧ (m.cpu c).proc ≠ some q ∨ k.proc = some q
  saved : (m'.st q).resting = true → k.running = some q ∨ m'.Saved q

/-- A process that the step leaves as it is. -/
theorem Local.same (h : Cpus m) (hout : ∀ c' ≠ c, (m.cpu c').pc = .out)
    (hst : m'.st q = m.st q) (hctx : m'.context q = m.context q)
    (hproc : k.proc = some q ↔ (m.cpu c).proc = some q)
    (hrun : k.running = some q ↔ (m.cpu c).running = some q) : Local m m' c k q where
  keep hq _ := ⟨hst.trans hq, hctx⟩
  proc hq := .inl (hproc.1 hq)
  run hq := by
    by_cases hp : (m.cpu c).proc = some q
    · exact .inr (hproc.2 hp)
    · exact .inl ⟨hst.symm.trans hq, hp⟩
  saved hq := by
    by_cases hp : (m.cpu c).running = some q
    · exact .inl (hrun.2 hp)
    · obtain ⟨kt, hk, hz⟩ := h.saved_of_ne hout (hst ▸ hq) hp
      exact .inr ⟨kt, hctx.trans hk, hst ▸ hz⟩

/-- A process that neither runs before nor after the step. -/
theorem Local.off (hst : m.st q ≠ .RUNNING) (hst' : m'.st q ≠ .RUNNING)
    (hproc : k.proc = (m.cpu c).proc) (hsaved : (m'.st q).resting = true → m'.Saved q) :
    Local m m' c k q :=
  ⟨fun hc => absurd hc hst, fun hq => .inl (hproc ▸ hq), fun hc => absurd hc hst',
    fun hq => .inr (hsaved hq)⟩

variable (h : Cpus m) (hout : ∀ c' ≠ c, (m.cpu c').pc = .out)

include h hout

/-- A sleeper that has been woken. -/
theorem Local.woken (hst : m.st q = .SLEEPING) (hst' : m'.st q = .RUNNABLE)
    (hctx : m'.context q = m.context q) (hproc : k.proc = (m.cpu c).proc)
    (hrun : (m.cpu c).running ≠ some q) : Local m m' c k q := by
  refine .off (by simp [hst]) (by simp [hst']) hproc fun _ => ?_
  obtain ⟨kt, hk, hz⟩ := h.saved_of_ne hout (by rw [hst]; rfl) hrun
  exact ⟨kt, hctx.trans hk, fun _ => hz (by simp [hst])⟩

variable (hcpu : m'.cpu = update m.cpu c k) (hlock : m'.lock = if k.pc.holds then some c else none)
  (hok : k.Ok m'.st m'.context)

include hcpu hlock hok

/-- **A step of a CPU while no other one is under the lock.**  The processes on other CPUs are
as they were; `Local` says what may happen to each process. -/
theorem Cpus.locked_step (hlocal : ∀ q, Local m m' c k q) (hmakes : m'.Makes) : Cpus m' := by
  have hself : m'.cpu c = k := by rw [hcpu, update_self]
  have hother : ∀ c' ≠ c, m'.cpu c' = m.cpu c' := fun c' hc' => by
    rw [hcpu, update_of_ne hc']
  have hrunning : ∀ c' ≠ c, ∀ p, (m.cpu c').proc = some p →
      m.st p = .RUNNING ∧ (m.cpu c).proc ≠ some p := fun c' hc' p hp =>
    ⟨((h.ok c').out (hout c' hc') hp).2.1, fun hp' => hc' (h.uniq c' c p hp hp')⟩
  have hnot : ∀ c' ≠ c, ∀ p, (m.cpu c').proc = some p → k.proc ≠ some p := fun c' hc' p hp hk => by
    obtain ⟨h1, h2⟩ := hrunning c' hc' p hp
    rcases (hlocal p).proc hk with hp' | hr
    · exact h2 hp'
    · rw [h1] at hr
      cases hr
  refine ⟨fun c' => ?_, fun c' => ?_, fun c1 c2 p h1 h2 => ?_, fun p hp => ?_, fun p hp => ?_,
    hmakes.1, hmakes.2⟩
  · by_cases hc' : c' = c
    · subst hc'
      rw [hself, hlock]
      split_ifs with hh <;> simp [hh]
    · rw [hother c' hc', hout c' hc', hlock]
      refine ⟨fun hc => (by cases hc), fun hl => ?_⟩
      split_ifs at hl
      exact absurd (some.inj hl).symm hc'
  · by_cases hc' : c' = c
    · rw [hc', hself]
      exact hok
    · rw [hother c' hc']
      refine (h.ok c').congr fun p hp => ?_
      rcases hp with hp | hp
      · obtain ⟨h1, h2⟩ := hrunning c' hc' p hp
        obtain ⟨h3, h4⟩ := (hlocal p).keep h1 h2
        exact ⟨h3.trans h1.symm, h4⟩
      · rw [hout c' hc'] at hp
        cases hp
  · by_cases hc1 : c1 = c <;> by_cases hc2 : c2 = c
    · rw [hc1, hc2]
    · rw [hc1, hself] at h1
      rw [hother c2 hc2] at h2
      exact absurd h1 (hnot c2 hc2 p h2)
    · rw [hc2, hself] at h2
      rw [hother c1 hc1] at h1
      exact absurd h2 (hnot c1 hc1 p h1)
    · rw [hother c1 hc1] at h1
      rw [hother c2 hc2] at h2
      exact h.uniq c1 c2 p h1 h2
  · rcases (hlocal p).run hp with ⟨h1, h2⟩ | hk
    · obtain ⟨c', hc'⟩ := h.run p h1
      have hne : c' ≠ c := by
        rintro rfl
        exact h2 hc'
      exact ⟨c', by rw [hother c' hne]; exact hc'⟩
    · exact ⟨c, by rw [hself]; exact hk⟩
  · exact ((hlocal p).saved hp).imp_left fun hk => ⟨c, by rw [hself]; exact hk⟩

/-- The same where no entry is made or given up, and those being made stay. -/
theorem Cpus.locked_same (hlocal : ∀ q, Local m m' c k q) (hmk : m'.making = m.making)
    (hembryo : ∀ q, m.st q = .EMBRYO → m'.st q = .EMBRYO ∧ m'.context q = m.context q) :
    Cpus m' := by
  refine h.locked_step hout hcpu hlock hok hlocal ⟨fun q np b hq => ?_, hmk ▸ h.owner⟩
  obtain ⟨h1, h2⟩ := h.making q np b (hmk ▸ hq)
  obtain ⟨h3, h4⟩ := hembryo np h1
  exact ⟨h3, fun hb => h4.trans (h2 hb)⟩

omit hcpu hlock hok

omit h hout

/-! ### Steps under the lock -/

/-- Some sleepers have been woken. -/
def Woke (st st' : Slot → ProcState) : Prop :=
  ∀ q, st' q = st q ∨ st q = .SLEEPING ∧ st' q = .RUNNABLE

theorem Woke.trans {st'' : Slot → ProcState} (h : Woke st st') (h' : Woke st' st'') :
    Woke st st'' := fun q => by
  rcases h q with h1 | ⟨h1, h2⟩ <;> rcases h' q with h3 | ⟨h3, h4⟩
  · exact .inl (h3.trans h1)
  · exact .inr ⟨h1 ▸ h3, h4⟩
  · exact .inr ⟨h1, h3.trans h2⟩
  · rw [h2] at h3
    cases h3

theorem woke_wakeup1 (ch : Option Chan) (t : Slot → Proc) :
    Woke (fun q => (t q).state) fun q => (wakeup1 ch t q).state := fun q => by
  dsimp only [wakeup1]
  split_ifs with h
  · exact .inr ⟨h.1, rfl⟩
  · exact .inl rfl

theorem woke_reparent1 (cur : Slot) (r : Option Slot) (t : Slot → Proc) (p : Slot) :
    Woke (fun q => (t q).state) fun q => (reparent1 cur r t p q).state := by
  have hset : Woke (fun q => (t q).state)
      fun q => (update t p { t p with parent := r } q).state := fun q => by
    dsimp only
    rw [update_apply]
    split_ifs with hq
    · exact .inl (by rw [hq])
    · exact .inl rfl
  unfold reparent1
  split_ifs
  · dsimp only
    split_ifs
    · exact hset.trans (woke_wakeup1 _ _)
    · exact hset
  · exact fun _ => .inl rfl

theorem woke_reparent (cur : Slot) (r : Option Slot) (t : Slot → Proc) :
    Woke (fun q => (t q).state) fun q => (reparent cur r t q).state := by
  unfold reparent
  generalize List.finRange NPROC = l
  induction l generalizing t with
  | nil => exact fun _ => .inl rfl
  | cons p l ih => exact (woke_reparent1 cur r t p).trans (ih _)

variable (h : Cpus m) (hp : (m.cpu c).running = some p) (hpc : (m.cpu c).pc = .locked)

include h hp hpc

/-- The thread of a process that holds the lock. -/
theorem Cpus.myproc :
    m.lock = some c ∧ (m.cpu c).proc = some p ∧ (m.cpu c).scheduler = some .back ∧
      m.context p = none ∧ m.st p = .RUNNING := by
  have hok := h.ok c
  unfold Cpu.Ok at hok
  rw [hp, hpc] at hok
  exact ⟨(h.lock c).1 (by rw [hpc]; rfl), hok⟩

/-- The process on CPU `c` gives itself the state `r` and calls `sched`. -/
theorem Cpus.rest {r : ProcState} {kt : Kont} (hr : r.resting = true)
    (hkt : r ≠ .ZOMBIE → kt ≠ .exit)
    (hcpu : m'.cpu = update m.cpu c { m.cpu c with pc := .sched kt }) (hlock : m'.lock = m.lock)
    (hctx : m'.context = m.context) (hmk : m'.making = m.making) (hself : m'.st p = r)
    (hst : ∀ q ≠ p, m'.st q = m.st q ∨ m.st q = .SLEEPING ∧ m'.st q = .RUNNABLE) : Cpus m' := by
  obtain ⟨hold, hproc, hsch, hnone, hrunning⟩ := h.myproc hp hpc
  have hout := h.others_out hold
  refine h.locked_same hout hcpu (hlock.trans hold) ?_ (fun q => ?_) hmk fun q hq => ?_
  · unfold Cpu.Ok
    simp only [hp, hctx, hself]
    exact ⟨hproc, hsch, hnone, hr, hkt⟩
  · by_cases hqp : q = p
    · subst hqp
      refine ⟨fun _ hne => absurd hproc hne, .inl, fun hq => ?_, fun _ => .inl hp⟩
      rw [← hself, hq] at hr
      cases hr
    · rcases hst q hqp with h1 | ⟨h1, h2⟩
      · exact .same h hout h1 (by rw [hctx]) .rfl .rfl
      · refine .woken h hout h1 h2 (by rw [hctx]) rfl fun hc => ?_
        exact hqp (some.inj (hp.symm.trans hc)).symm
  · have hqp : q ≠ p := by
      rintro rfl
      rw [hrunning] at hq
      cases hq
    refine ⟨?_, by rw [hctx]⟩
    rcases hst q hqp with h1 | ⟨h1, -⟩
    · exact h1.trans hq
    · rw [hq] at h1
      cases h1

omit h hp hpc

/-- A change of the table that leaves the running processes alone. -/
def Tabled (m m' : Machine C) (q : Slot) : Prop :=
  m'.st q = m.st q ∨ m.st q = .SLEEPING ∧ m'.st q = .RUNNABLE ∨
    m.st q = .ZOMBIE ∧ m'.st q = .UNUSED ∨ m.st q = .UNUSED ∧ m'.st q = .EMBRYO ∨
    m.st q = .EMBRYO ∧ m'.st q = .RUNNABLE ∧ m.context q = some .forkret

variable (h : Cpus m)

include h

/-- The CPU that holds the lock changes the table and goes on to release it. -/
theorem Cpus.tabled (hpc : (m.cpu c).pc = .locked)
    (hcpu : m'.cpu = update m.cpu c { m.cpu c with pc := .rel }) (hlock : m'.lock = m.lock)
    (hctx : m'.context = m.context) (hst : ∀ q, Tabled m m' q) (hmakes : m'.Makes) : Cpus m' := by
  have hold : m.lock = some c := (h.lock c).1 (by rw [hpc]; rfl)
  have hkeep : ∀ q, m.st q = .RUNNING → m'.st q = .RUNNING := fun q hq => by
    rcases hst q with h1 | ⟨h1, -⟩ | ⟨h1, -⟩ | ⟨h1, -⟩ | ⟨h1, -⟩
    · exact h1.trans hq
    all_goals
      rw [hq] at h1
      cases h1
  have hout := h.others_out hold
  refine h.locked_step hout hcpu (hlock.trans hold) ?_ (fun q => ?_) hmakes
  · have hok := h.ok c
    unfold Cpu.Ok at hok ⊢
    simp only [hpc] at hok
    simp only [hctx]
    split at hok
    · exact ⟨hok.1, hok.2.1, hok.2.2.1, hkeep _ hok.2.2.2⟩
    · exact hok
  · rcases hst q with h1 | ⟨h1, h2⟩ | ⟨h1, h2⟩ | ⟨h1, h2⟩ | ⟨h1, h2, h3⟩
    · exact .same h hout h1 (by rw [hctx]) .rfl .rfl
    · refine .woken h hout h1 h2 (by rw [hctx]) rfl fun hc => ?_
      rw [(h.myproc hc hpc).2.2.2.2] at h1
      cases h1
    · exact .off (by simp [h1]) (by simp [h2]) rfl fun hq => by rw [h2] at hq; cases hq
    · exact .off (by simp [h1]) (by simp [h2]) rfl fun hq => by rw [h2] at hq; cases hq
    · exact .off (by simp [h1]) (by simp [h2]) rfl fun _ => ⟨_, hctx ▸ h3, fun _ => by simp⟩

/-- A CPU moves on while no other one is under the lock; the states and contexts stay. -/
theorem Cpus.moved (hout : ∀ c' ≠ c, (m.cpu c').pc = .out) (hst : m'.st = m.st)
    (hcpu : m'.cpu = update m.cpu c k) (hlock : m'.lock = if k.pc.holds then some c else none)
    (hctx : m'.context = m.context) (hmk : m'.making = m.making) (hok : k.Ok m.st m.context)
    (hproc : k.proc = (m.cpu c).proc) (hrunning : k.running = (m.cpu c).running) : Cpus m' := by
  refine h.locked_same hout hcpu hlock (by rw [hst, hctx]; exact hok) (fun q => ?_) hmk
    fun q hq => by rw [hst, hctx]; exact ⟨hq, rfl⟩
  exact .same h hout (by rw [hst]) (by rw [hctx]) (by rw [hproc]) (by rw [hrunning])

/-- The scheduler sets the state of the process it has chosen. -/
theorem Cpus.setRunning (hpc : (m.cpu c).pc = .setRunning p) :
    Cpus ((m.set p { m.proc p with state := .RUNNING }).goto c (.toProc p)) := by
  have hold : m.lock = some c := (h.lock c).1 (by rw [hpc]; rfl)
  have hok := h.ok c
  unfold Cpu.Ok at hok
  split at hok
  · rw [hpc] at hok
    exact hok.2.2.2.elim
  rename_i hnone
  simp only [hpc] at hok
  obtain ⟨hproc, hrun⟩ := hok
  have hout := h.others_out hold
  obtain ⟨kt, hkt, hz⟩ := h.saved_of_ne (q := p) hout (by rw [hrun]; rfl) (by rw [hnone]; simp)
  have hst : ∀ q, ((m.set p { m.proc p with state := .RUNNING }).goto c (.toProc p)).st q =
      if q = p then .RUNNING else m.st q := fun q => by
    change (update m.proc p _ q).state = _
    rw [update_apply]
    split_ifs <;> rfl
  refine h.locked_same hout rfl hold ?_ (fun q => ?_) rfl fun q hq => ⟨?_, rfl⟩
  · unfold Cpu.Ok
    simp only [show ∀ x, (m.set p x).cpu = m.cpu from fun _ => rfl, hnone]
    exact ⟨hproc, by rw [hst, if_pos rfl], kt, hkt, hz (by rw [hrun]; simp)⟩
  · by_cases hqp : q = p
    · subst hqp
      refine ⟨fun _ hne => absurd hproc hne, .inl, fun _ => .inr hproc, fun hq => ?_⟩
      rw [hst, if_pos rfl] at hq
      cases hq
    · exact .same h hout (by rw [hst, if_neg hqp]) rfl .rfl .rfl
  · rw [hst, if_neg, hq]
    rintro rfl
    rw [hrun] at hq
    cases hq

/-- `swtch` from the scheduler to a process. -/
theorem Cpus.toProc (hpc : (m.cpu c).pc = .toProc p) : ∃ kt, m.context p = some kt ∧
    Cpus { m.setCpu c { m.cpu c with
        scheduler := some .back, running := some p, pc := .resume kt } with
      context := update m.context p none } := by
  have hold : m.lock = some c := (h.lock c).1 (by rw [hpc]; rfl)
  have hok := h.ok c
  unfold Cpu.Ok at hok
  split at hok
  · rw [hpc] at hok
    exact hok.2.2.2.elim
  rename_i hnone
  simp only [hpc] at hok
  obtain ⟨hproc, hrun, kt, hkt, hexit⟩ := hok
  have hctx : ∀ q ≠ p, update m.context p none q = m.context q := fun q hq =>
    update_of_ne hq ..
  refine ⟨kt, hkt, h.locked_same (h.others_out hold) rfl hold ?_ (fun q => ?_) rfl
    fun q hq => ⟨hq, hctx q ?_⟩⟩
  · unfold Cpu.Ok
    exact ⟨hproc, rfl, update_self .., hrun, hexit⟩
  · by_cases hqp : q = p
    · subst hqp
      exact ⟨fun _ hne => absurd hproc hne, .inl, fun _ => .inr hproc, fun _ => .inl rfl⟩
    · refine .same h (h.others_out hold) rfl (hctx q hqp) .rfl ?_
      rw [hnone]
      simp [Ne.symm hqp]
  · rintro rfl
    rw [hrun] at hq
    cases hq

/-- `swtch` from a process to the scheduler. -/
theorem Cpus.swtch {kt : Kont} (hpc : (m.cpu c).pc = .sched kt) :
    ∃ p, (m.cpu c).proc = some p ∧ m.st p ≠ .RUNNING ∧ (m.cpu c).scheduler = some .back ∧
      Cpus { m.setCpu c { m.cpu c with scheduler := none, running := none, pc := .back } with
        context := update m.context p (some kt) } := by
  have hold : m.lock = some c := (h.lock c).1 (by rw [hpc]; rfl)
  have hok := h.ok c
  unfold Cpu.Ok at hok
  split at hok
  case h_2 =>
    rw [hpc] at hok
    exact hok.elim
  rename_i p hp
  simp only [hpc] at hok
  obtain ⟨hproc, hsch, hnone, hrest, hexit⟩ := hok
  have hne : m.st p ≠ .RUNNING := fun hc => by
    rw [hc] at hrest
    cases hrest
  have hctx : ∀ q ≠ p, update m.context p (some kt) q = m.context q := fun q hq =>
    update_of_ne hq ..
  have hself : update m.context p (some kt) p = some kt := update_self ..
  refine ⟨p, hproc, hne, hsch, h.locked_same (h.others_out hold) rfl hold ?_ (fun q => ?_) rfl
    fun q hq => ⟨hq, hctx q ?_⟩⟩
  · unfold Cpu.Ok
    exact ⟨p, hproc, hrest, fun hc => by cases hself.symm.trans hc⟩
  · by_cases hqp : q = p
    · subst hqp
      exact .off hne hne rfl fun _ => ⟨kt, hself, hexit⟩
    · refine .same h (h.others_out hold) rfl (hctx q hqp) .rfl ?_
      rw [hp]
      simp [Ne.symm hqp]
  · rintro rfl
    rw [hq] at hrest
    cases hrest

/-! ### Steps outside the lock -/

theorem Cpus.acquire (hpc : (m.cpu c).pc = .out) (hfree : m.lock = none) :
    Cpus { m.goto c .locked with lock := some c } := by
  have hok := h.ok c
  unfold Cpu.Ok at hok
  simp only [hpc] at hok
  refine h.moved (fun c' _ => h.out_of_ne (by rw [hfree]; simp)) rfl rfl rfl rfl rfl ?_ rfl rfl
  unfold Cpu.Ok
  exact hok

/-- A process changes the entry it is making, which is not started yet. -/
theorem Cpus.unlocked (hnp : m.st np = .EMBRYO) (hcpu : m'.cpu = m.cpu) (hlock : m'.lock = m.lock)
    (hother : ∀ q ≠ np, m'.st q = m.st q ∧ m'.context q = m.context q)
    (hst : m'.st np = .EMBRYO ∨ m'.st np = .UNUSED) (hmakes : m'.Makes) : Cpus m' := by
  have hne : ∀ q, m.st q = .RUNNING ∨ (m.st q).resting = true → q ≠ np := by
    rintro q hq rfl
    rw [hnp] at hq
    rcases hq with hq | hq <;> cases hq
  have hne' : ∀ q, m'.st q = .RUNNING ∨ (m'.st q).resting = true → q ≠ np := by
    rintro q hq rfl
    rcases hst with h1 | h1 <;> rw [h1] at hq <;> rcases hq with hq | hq <;> cases hq
  refine ⟨fun c => by rw [hcpu, hlock]; exact h.lock c, fun c => ?_,
    by rw [hcpu]; exact h.uniq, fun p hp => ?_, fun p hp => ?_, hmakes.1, hmakes.2⟩
  · rw [hcpu]
    exact (h.ok c).congr fun p hp => hother p (hne p ((h.ok c).started hp))
  · rw [hcpu]
    rw [(hother p (hne' p (.inl hp))).1] at hp
    exact h.run p hp
  · have hp' := hother p (hne' p (.inr hp))
    rw [hcpu]
    rw [hp'.1] at hp
    refine (h.saved p hp).imp_right ?_
    rintro ⟨k, hk, hz⟩
    exact ⟨k, hp'.2.trans hk, by rw [hp'.1]; exact hz⟩

omit h

/-! ### Every step -/

theorem cpus_init : Cpus (Machine.init : Machine C) where
  lock c := ⟨fun h => (by cases h), nofun⟩
  ok c := rfl
  uniq c c' p h := by cases h
  run p hp := by
    change (update State.init.proc 0 _ p).state = .RUNNING at hp
    rw [update_apply] at hp
    split_ifs at hp
    cases hp
  saved p hp := by
    right
    by_cases hp0 : p = 0
    · subst hp0
      exact ⟨.forkret, rfl, fun _ => by simp⟩
    · change ((update State.init.proc 0 _ p).state).resting = true at hp
      rw [update_of_ne hp0] at hp
      cases hp
  making p np b h := by cases h
  owner p p' np b b' h := by cases h

/-- A section of a process runs in that process. -/
theorem Cpus.of_asProc (h : Cpus m) {f : Slot → Option (Except String (Machine C))}
    {r : Except String (Machine C)} (hs : m.asProc c f = some r) :
    ∃ p, (m.cpu c).running = some p ∧ (m.cpu c).pc = .locked ∧ f p = some r := by
  unfold Machine.asProc at hs
  split_ifs at hs with hc
  obtain ⟨hrun, hpc⟩ := hc
  obtain ⟨p, hp⟩ := ne_none_iff_exists'.1 hrun
  rw [(h.myproc hp hpc).2.1] at hs
  exact ⟨p, hp, hpc, hs⟩

theorem st_set {q : Proc} (i : Slot) (hproc : m'.proc = update m.proc p q) :
    m'.st i = if i = p then q.state else m.st i := by
  rw [Machine.st, hproc, update_apply]
  split_ifs <;> rfl

theorem st_exited (q : Slot) : (m.exited p q).state = if q = p then .ZOMBIE else
    (reparent p (some m.initproc) (wakeup1 ((m.proc p).parent.map .proc) m.proc) q).state := by
  unfold Machine.exited
  dsimp only
  rw [update_apply]
  split_ifs <;> rfl

/-- `making` after entries have been woken. -/
theorem Cpus.makes_woke (h : Cpus m) (hst : Woke m.st m'.st) (hmk : m'.making = m.making)
    (hctx : m'.context = m.context) : m'.Makes := by
  refine ⟨fun p np b hp => ?_, hmk ▸ h.owner⟩
  rw [hmk] at hp
  obtain ⟨h1, h2⟩ := h.making p np b hp
  refine ⟨?_, by rw [hctx]; exact h2⟩
  rcases hst np with h3 | ⟨h3, -⟩
  · exact h3.trans h1
  · rw [h1] at h3
    cases h3

theorem woke_killed (pid : ℤ) : Woke m.st fun q => (m.killed pid q).state := fun q => by
  dsimp only
  unfold Machine.killed
  cases m.find fun p => p.pid = pid with
  | none => exact .inl rfl
  | some j =>
    dsimp only
    rw [update_apply]
    split_ifs with hq hs
    · subst hq
      exact .inr ⟨hs, rfl⟩
    · subst hq
      exact .inl rfl
    · exact .inl rfl

theorem woke_niced (pid priority : ℤ) : Woke m.st fun q => (m.niced pid priority q).state :=
  fun q => .inl <| by
  dsimp only
  unfold Machine.niced
  cases m.find fun p => p.pid = pid with
  | none => rfl
  | some j =>
    dsimp only
    by_cases hq : q = j
    · subst hq
      rw [update_self]
      rfl
    · rw [update_of_ne hq]
      rfl

theorem Woke.tabled (h : Woke m.st m'.st) (q : Slot) : Tabled m m' q :=
  (h q).imp_right .inl

/-- No other process makes the entry that `p` makes. -/
theorem Cpus.making_ne (h : Cpus m) {b0 : Bool} (hmk : m.making p = some (np, b0)) :
    ∀ q ≠ p, ∀ b, m.making q ≠ some (np, b) :=
  fun q hq b hq' => hq (h.owner q p np b b0 hq' hmk)

/-- `making` after process `p` has set what it is making to `v`: an entry that no other process
makes, or none. -/
theorem Cpus.making_update (h : Cpus m) {v : Option (Slot × Bool)}
    (hne : ∀ q ≠ p, ∀ b, m.making q ≠ some (np, b)) (hproc : m'.proc = update m.proc np e)
    (hctx : ∀ q ≠ np, m'.context q = m.context q) (hmk' : m'.making = update m.making p v)
    (hv : ∀ np' b, v = some (np', b) →
      np' = np ∧ e.state = .EMBRYO ∧ (b = true → m'.context np = some .forkret)) :
    (∀ q ≠ np, m'.st q = m.st q ∧ m'.context q = m.context q) ∧ m'.Makes := by
  have hother : ∀ q ≠ np, m'.st q = m.st q ∧ m'.context q = m.context q := fun q hq =>
    ⟨(st_set q hproc).trans (if_neg hq), hctx q hq⟩
  rw [Machine.Makes, hmk']
  refine ⟨hother, fun q np' b hq => ?_, fun q q' np' b b' hq hq' => ?_⟩
  · by_cases hqp : q = p
    · rw [hqp, update_self] at hq
      obtain ⟨rfl, h1, h2⟩ := hv np' b hq
      exact ⟨(st_set np' hproc).trans ((if_pos rfl).trans h1), h2⟩
    · rw [update_of_ne hqp] at hq
      obtain ⟨h1, h2⟩ := hother np' fun hc => hne q hqp b (hc ▸ hq)
      rw [h1, h2]
      exact h.making q np' b hq
  · by_cases hqp : q = p <;> by_cases hqp' : q' = p
    · rw [hqp, hqp']
    · rw [hqp, update_self] at hq
      rw [update_of_ne hqp'] at hq'
      rw [(hv np' b hq).1] at hq'
      exact absurd hq' (hne q' hqp' b')
    · rw [hqp', update_self] at hq'
      rw [update_of_ne hqp] at hq
      rw [(hv np' b' hq').1] at hq
      exact absurd hq (hne q hqp b)
    · rw [update_of_ne hqp] at hq
      rw [update_of_ne hqp'] at hq'
      exact h.owner q q' np' b b' hq hq'

/-- Outside the lock, process `p` goes on with the entry it is making. -/
theorem Cpus.made (h : Cpus m) {b0 : Bool} {v : Option (Slot × Bool)}
    (hmk : m.making p = some (np, b0)) (hproc : m'.proc = update m.proc np e)
    (hctx : ∀ q ≠ np, m'.context q = m.context q) (hmk' : m'.making = update m.making p v)
    (hv : ∀ np' b, v = some (np', b) →
      np' = np ∧ e.state = .EMBRYO ∧ (b = true → m'.context np = some .forkret))
    (hcpu : m'.cpu = m.cpu) (hlock : m'.lock = m.lock)
    (he : e.state = .EMBRYO ∨ e.state = .UNUSED) : Cpus m' := by
  have hst : m'.st np = e.state := (st_set np hproc).trans (if_pos rfl)
  obtain ⟨hother, hmakes⟩ := h.making_update (h.making_ne hmk) hproc hctx hmk' hv
  exact h.unlocked (h.making p np b0 hmk).1 hcpu hlock hother (by rwa [hst]) hmakes

/-- Under the lock, process `p` makes the entry it has made RUNNABLE. -/
theorem Cpus.start (h : Cpus m) (hpc : (m.cpu c).pc = .locked) (hmk : m.making p = some (np, true))
    (hproc : m'.proc = update m.proc np e) (he : e.state = .RUNNABLE)
    (hctx : m'.context = m.context) (hmk' : m'.making = update m.making p none)
    (hcpu : m'.cpu = update m.cpu c { m.cpu c with pc := .rel }) (hlock : m'.lock = m.lock) :
    Cpus m' := by
  obtain ⟨hemb, hfork⟩ := h.making p np true hmk
  obtain ⟨hother, hmakes⟩ :=
    h.making_update (h.making_ne hmk) hproc (fun q _ => by rw [hctx]) hmk' nofun
  refine h.tabled hpc hcpu hlock hctx (fun q => ?_) hmakes
  by_cases hq : q = np
  · subst hq
    have hrun : m'.st q = .RUNNABLE := (st_set q hproc).trans ((if_pos rfl).trans he)
    exact .inr (.inr (.inr (.inr ⟨hemb, hrun, hfork rfl⟩)))
  · exact .inl (hother q hq).1

/-- **Every step keeps the invariant**, and the kernel does not panic, except that init must not
exit. -/
theorem Cpus.step (h : Cpus m) {a : Move C} {r : Except String (Machine C)}
    (hs : m.step a = some r) : r = .error "init exiting" ∨ ∃ m', r = .ok m' ∧ Cpus m' := by
  cases a with
  | acquire c =>
    simp only [Machine.step] at hs
    split_ifs at hs with hc
    cases hs
    exact .inr ⟨_, rfl, h.acquire hc.1 hc.2⟩
  | release c =>
    simp only [Machine.step] at hs
    split_ifs at hs with hpc
    cases hs
    have hok := h.ok c
    unfold Cpu.Ok at hok
    simp only [hpc] at hok
    refine .inr ⟨_, rfl, h.moved (h.others_out ((h.lock c).1 (by rw [hpc]; rfl))) rfl rfl rfl rfl
      rfl ?_ rfl rfl⟩
    unfold Cpu.Ok
    exact hok
  | pick c =>
    simp only [Machine.step] at hs
    split_ifs at hs with hc
    obtain ⟨hnone, hpc⟩ := hc
    have hok := h.ok c
    have hold := (h.lock c).1 (by rw [hpc]; rfl)
    unfold Cpu.Ok at hok
    simp only [hpc, hnone] at hok
    split at hs
    · rename_i p hb
      cases hs
      refine .inr ⟨_, rfl, h.moved (h.others_out hold) rfl rfl hold rfl rfl ?_ rfl rfl⟩
      unfold Cpu.Ok
      simp only [hnone]
      exact ⟨hok, best_runnable hb⟩
    · cases hs
      refine .inr ⟨_, rfl, h.moved (h.others_out hold) rfl rfl hold rfl rfl ?_ rfl rfl⟩
      unfold Cpu.Ok
      simp only [hnone]
      exact hok
  | setProc c =>
    simp only [Machine.step] at hs
    split at hs
    · rename_i p hpc
      cases hs
      have hok := h.ok c
      have hold := (h.lock c).1 (by rw [hpc]; rfl)
      unfold Cpu.Ok at hok
      split at hok
      · rw [hpc] at hok
        exact hok.2.2.2.elim
      rename_i hnone
      simp only [hpc] at hok
      have hout := h.others_out hold
      refine .inr ⟨_, rfl, h.locked_same hout rfl hold ?_ (fun q => ?_) rfl fun q hq => ⟨hq, rfl⟩⟩
      · unfold Cpu.Ok
        simp only [hnone]
        exact ⟨trivial, hok.2⟩
      · by_cases hqp : q = p
        · subst hqp
          exact { Local.same (k := m.cpu c) h hout rfl rfl .rfl .rfl with
            proc := fun _ => .inr (by rw [hok.2]; rfl), run := fun _ => .inr rfl }
        · refine .same h hout rfl rfl ?_ .rfl
          rw [hok.1]
          simp [Ne.symm hqp]
    · cases hs
  | setRunning c =>
    simp only [Machine.step] at hs
    split at hs
    · rename_i p hpc
      cases hs
      exact .inr ⟨_, rfl, h.setRunning hpc⟩
    · cases hs
  | toProc c =>
    simp only [Machine.step] at hs
    split at hs
    · rename_i p hpc
      obtain ⟨kt, hkt, h'⟩ := h.toProc hpc
      rw [hkt] at hs
      cases hs
      exact .inr ⟨_, rfl, h'⟩
    · cases hs
  | clear c =>
    simp only [Machine.step] at hs
    split_ifs at hs with hpc
    cases hs
    have hok := h.ok c
    have hold := (h.lock c).1 (by rw [hpc]; rfl)
    unfold Cpu.Ok at hok
    split at hok
    · rw [hpc] at hok
      exact hok.2.2.2.elim
    rename_i hnone
    simp only [hpc] at hok
    obtain ⟨p, hp, hrest, -⟩ := hok
    have hout := h.others_out hold
    refine .inr ⟨_, rfl, h.locked_same hout rfl hold ?_ (fun q => ?_) rfl fun q hq => ⟨hq, rfl⟩⟩
    · unfold Cpu.Ok
      simp only [hnone]
    · by_cases hqp : q = p
      · subst hqp
        refine { Local.same (k := m.cpu c) h hout rfl rfl .rfl .rfl with
          proc := nofun, run := fun hq => ?_ }
        rw [show m.st q = .RUNNING from hq] at hrest
        cases hrest
      · refine .same h hout rfl rfl ?_ .rfl
        rw [hp]
        simp [Ne.symm hqp]
  | yield c =>
    obtain ⟨p, hp, hpc, hs⟩ := h.of_asProc hs
    cases hs
    refine .inr ⟨_, rfl, h.rest hp hpc (r := .RUNNABLE) rfl (fun _ => by simp) rfl rfl
      rfl rfl ?_ fun q hq => .inl ?_⟩
    · rw [st_set p rfl, if_pos rfl]
    · rw [st_set q rfl, if_neg hq]
  | sleep c chan held =>
    obtain ⟨p, hp, hpc, hs⟩ := h.of_asProc hs
    cases hs
    refine .inr ⟨_, rfl, h.rest hp hpc (r := .SLEEPING) rfl (fun _ => by simp) rfl
      rfl rfl rfl ?_ fun q hq => .inl ?_⟩
    · rw [st_set p rfl, if_pos rfl]
    · rw [st_set q rfl, if_neg hq]
  | exit c =>
    obtain ⟨p, hp, hpc, hs⟩ := h.of_asProc hs
    split_ifs at hs
    · cases hs
      exact .inl rfl
    · cases hs
      refine .inr ⟨_, rfl, h.rest hp hpc (r := .ZOMBIE) rfl (fun hc => absurd rfl hc) rfl
        rfl rfl rfl ?_ fun q hq => ?_⟩
      · exact (st_exited p).trans (if_pos rfl)
      · have hw := (woke_wakeup1 ((m.proc p).parent.map .proc) m.proc).trans
          (woke_reparent p (some m.initproc) _) q
        have he : (m.exited p q).state = _ := (st_exited q).trans (if_neg hq)
        rw [← he] at hw
        exact hw
  | swtch c =>
    simp only [Machine.step] at hs
    split at hs
    · rename_i kt q hpc hq
      obtain ⟨p, hp, hne, hsch, h'⟩ := h.swtch hpc
      obtain rfl : p = q := some.inj (hp.symm.trans hq)
      rw [if_neg (show ¬ (m.proc p).state = .RUNNING from hne), hsch] at hs
      cases hs
      exact .inr ⟨_, rfl, h'⟩
    · cases hs
  | resume c =>
    simp only [Machine.step] at hs
    have hok := h.ok c
    unfold Cpu.Ok at hok
    cases hpc : (m.cpu c).pc with
    | resume kt =>
      have hold := (h.lock c).1 (by rw [hpc]; rfl)
      split at hok
      case h_2 =>
        rw [hpc] at hok
        exact hok.elim
      rename_i p hp
      simp only [hpc] at hok
      obtain ⟨h1, h2, h3, h4, h5⟩ := hok
      have hmoved : ∀ {m' : Machine C} {a : At}, (a = .locked ∨ a = .rel) → m'.st = m.st →
          m'.cpu = update m.cpu c { m.cpu c with pc := a } → m'.lock = m.lock →
          m'.context = m.context → m'.making = m.making → Cpus m' := by
        intro m' a ha hst hcpu hlock hctx hmk
        refine h.moved (h.others_out hold) hst hcpu ?_ hctx hmk ?_ rfl rfl
        · rcases ha with rfl | rfl <;> exact hlock.trans hold
        · unfold Cpu.Ok
          simp only [hp]
          rcases ha with rfl | rfl <;> exact ⟨h1, h2, h3, h4⟩
      rw [hpc, hp] at hs
      cases kt with
      | forkret | yield =>
        cases hs
        exact .inr ⟨_, rfl, hmoved (.inr rfl) rfl rfl rfl rfl rfl⟩
      | sleep held =>
        cases hs
        refine .inr ⟨_, rfl, hmoved ?_ (funext fun q => ?_) rfl rfl rfl rfl⟩
        · cases held
          · exact .inr rfl
          · exact .inl rfl
        · rw [st_set q rfl]
          split_ifs with hq
          · rw [hq]
            rfl
          · rfl
      | exit => exact absurd rfl h5
    | _ => rw [hpc] at hs; cases hs
  | wakeup c chan =>
    simp only [Machine.step] at hs
    split_ifs at hs with hpc
    cases hs
    have hw : Woke m.st fun q => (wakeup1 (some chan) m.proc q).state := woke_wakeup1 _ _
    exact .inr ⟨_, rfl, h.tabled hpc rfl rfl rfl hw.tabled (h.makes_woke hw rfl rfl)⟩
  | kill c pid =>
    obtain ⟨p, hp, hpc, hs⟩ := h.of_asProc hs
    cases hs
    have hw : Woke m.st fun q => (m.killed pid q).state := woke_killed pid
    exact .inr ⟨_, rfl, h.tabled hpc rfl rfl rfl hw.tabled (h.makes_woke hw rfl rfl)⟩
  | reap c =>
    obtain ⟨p, hp, hpc, hs⟩ := h.of_asProc hs
    obtain ⟨z, hz, hs⟩ := map_eq_some_iff.1 hs
    cases hs
    have hzombie : m.st z = .ZOMBIE := by
      have := List.find?_some hz
      simp only [decide_eq_true_eq] at this
      exact this.2
    refine .inr ⟨_, rfl, h.tabled hpc rfl rfl rfl (fun q => ?_) ⟨fun q np b hq => ?_, h.owner⟩⟩
    · by_cases hq : q = z
      · subst hq
        exact .inr (.inr (.inl ⟨hzombie, by rw [st_set q rfl, if_pos rfl]⟩))
      · exact .inl (by rw [st_set q rfl, if_neg hq])
    · obtain ⟨h1, h2⟩ := h.making q np b hq
      refine ⟨?_, h2⟩
      rw [st_set np rfl, if_neg]
      · exact h1
      · rintro rfl
        rw [hzombie] at h1
        cases h1
  | allocproc c =>
    obtain ⟨p, hp, hpc, hs⟩ := h.of_asProc hs
    split_ifs at hs with hmk
    obtain ⟨np, hnp, hs⟩ := map_eq_some_iff.1 hs
    cases hs
    have hunused : m.st np = .UNUSED := by
      have := List.find?_some hnp
      simp only [decide_eq_true_eq] at this
      exact this
    have hnot : ∀ q b, m.making q ≠ some (np, b) := fun q b hq => by
      rw [(h.making q np b hq).1] at hunused
      cases hunused
    refine .inr ⟨_, rfl, h.tabled hpc rfl rfl rfl (fun q => ?_) (And.right
      (h.making_update (p := p) (fun q _ => hnot q) rfl (fun _ _ => rfl) rfl fun np' b hv => ?_))⟩
    · by_cases hq : q = np
      · subst hq
        exact .inr (.inr (.inr (.inl ⟨hunused, by rw [st_set q rfl, if_pos rfl]⟩)))
      · exact .inl (by rw [st_set q rfl, if_neg hq])
    · obtain ⟨rfl, rfl⟩ := Prod.mk.inj (some.inj hv)
      exact ⟨rfl, rfl, nofun⟩
  | prepare c =>
    simp only [Machine.step] at hs
    split at hs
    · rename_i p hpc hp
      split at hs
      · rename_i np hmk
        cases hs
        have hemb := (h.making p np false hmk).1
        refine .inr ⟨_, rfl, h.made hmk rfl (fun q hq => update_of_ne hq ..) rfl
          (fun np' b hv => ?_) rfl rfl (.inl hemb)⟩
        obtain ⟨rfl, rfl⟩ := Prod.mk.inj (some.inj hv)
        exact ⟨rfl, hemb, fun _ => update_self ..⟩
      · cases hs
    · cases hs
  | fail c =>
    simp only [Machine.step] at hs
    split at hs
    · rename_i p hpc hp
      split at hs
      · rename_i np b0 hmk
        cases hs
        exact .inr ⟨_, rfl, h.made hmk rfl (fun _ _ => rfl) rfl nofun rfl rfl (.inr rfl)⟩
      · cases hs
    · cases hs
  | start c =>
    obtain ⟨p, hp, hpc, hs⟩ := h.of_asProc hs
    split at hs
    · rename_i np hmk
      cases hs
      exact .inr ⟨_, rfl, h.start hpc hmk rfl rfl rfl rfl rfl rfl⟩
    · cases hs
  | nice c pid priority =>
    obtain ⟨p, hp, hpc, hs⟩ := h.of_asProc hs
    split_ifs at hs
    cases hs
    have hw : Woke m.st fun q => (m.niced pid priority q).state := woke_niced pid priority
    exact .inr ⟨_, rfl, h.tabled hpc rfl rfl rfl (Woke.tabled hw) (h.makes_woke hw rfl rfl)⟩
  | leave c =>
    simp only [Machine.step] at hs
    split_ifs at hs with hpc
    cases hs
    exact .inr ⟨_, rfl, h.tabled hpc rfl rfl rfl (fun _ => .inl rfl) ⟨h.making, h.owner⟩⟩

theorem cpus_of_reaches (h : Reaches Machine.step Machine.init m) : Cpus m := by
  refine h.inv (fun m a m' hm hs => ?_) cpus_init
  rcases hm.step hs with he | ⟨m1, hm1, hc⟩
  · cases he
  · cases hm1
    exact hc

/-- While the lock is free, `c->proc` of each CPU is the process that runs there. -/
theorem Cpus.running_of_free (h : Cpus m) (hfree : m.lock = none) (hp : (m.cpu c).proc = some p) :
    (m.cpu c).running = some p ∧ m.st p = .RUNNING ∧ m.context p = none :=
  (h.ok c).out (h.out_of_ne (by rw [hfree]; simp)) hp

end Cpus

/-- **A process runs on at most one CPU.**  However the steps of any number of CPUs
interleave, no two CPUs are in the thread of one process.  While `ptable.lock` is free, a
process is RUNNING exactly if it is the `c->proc` of one CPU, and a process that is RUNNABLE,
SLEEPING or ZOMBIE is the `c->proc` of none and has its context saved.  When the scheduler
switches to a process its context is saved and no CPU is in its thread, and no step panics
unless init exits. -/
theorem one_cpu (m : Machine C) (h : Reaches Machine.step Machine.init m) :
    (∀ c c' p, (m.cpu c).running = some p → (m.cpu c').running = some p → c = c') ∧
    (m.lock = none → ∀ p,
      ((m.proc p).state = .RUNNING ↔ ∃! c, (m.cpu c).proc = some p) ∧
      ((m.proc p).state = .RUNNABLE ∨ (m.proc p).state = .SLEEPING ∨ (m.proc p).state = .ZOMBIE →
        (∀ c, (m.cpu c).proc ≠ some p) ∧ m.context p ≠ none)) ∧
    (∀ c p, (m.cpu c).pc = .toProc p →
      m.context p ≠ none ∧ ∀ c', (m.cpu c').running ≠ some p) ∧
    ∀ a e, m.step a = some (.error e) → e = "init exiting" := by
  have hm := cpus_of_reaches h
  refine ⟨fun c c' p hc hc' => ?_, fun hfree p => ⟨⟨fun hp => ?_, ?_⟩, fun hp => ?_⟩,
    fun c p hpc => ?_, fun a e hs => ?_⟩
  · exact hm.uniq c c' p ((hm.ok c).running hc).1 ((hm.ok c').running hc').1
  · obtain ⟨c, hc⟩ := hm.run p hp
    exact ⟨c, hc, fun c' hc' => hm.uniq c' c p hc' hc⟩
  · rintro ⟨c, hc, -⟩
    exact (hm.running_of_free hfree hc).2.1
  · have hrest : (m.st p).resting = true := by
      rcases hp with hp | hp | hp <;> rw [Machine.st, hp] <;> rfl
    have hnot : ∀ c, (m.cpu c).proc ≠ some p := fun c hc => by
      rw [(hm.running_of_free hfree hc).2.1] at hrest
      cases hrest
    refine ⟨hnot, ?_⟩
    rcases hm.saved p hrest with ⟨c, hc⟩ | ⟨k, hk, -⟩
    · exact absurd ((hm.ok c).running hc).1 (hnot c)
    · rw [hk]
      simp
  · obtain ⟨k, hk, -⟩ := hm.toProc hpc
    have hsaved : m.context p ≠ none := by
      rw [hk]
      simp
    exact ⟨hsaved, fun c' hc' => hsaved ((hm.ok c').running hc').2.2⟩
  · rcases hm.step hs with he | ⟨m', hm', -⟩
    · exact Except.error.inj he
    · cases hm'

/-- The hypotheses of `one_cpu` are satisfiable: of two CPUs one takes up init, and the other
finds nothing to run. -/
theorem one_cpu_init : ∃ m : Machine (Fin 2), Reaches Machine.step Machine.init m ∧
    m.lock = none ∧ ∃! c, (m.cpu c).proc = some 0 := by
  have hrun : Leads Machine.step (Machine.init : Machine (Fin 2))
      [.acquire 0, .pick 0, .setProc 0, .setRunning 0, .toProc 0, .resume 0, .release 0,
        .acquire 1, .pick 1, .release 1] fun m =>
      m.lock = none ∧ (m.proc 0).state = .RUNNING := by decide +kernel
  obtain ⟨m, h, hfree, hrunning⟩ := hrun.reaches
  exact ⟨m, h, hfree, ((one_cpu m h).2.1 hfree 0).1.1 hrunning⟩

end Xv6.Ptable
