/-
# The process tree

The invariant of the process table (`Inv`): live entries have distinct positive
`pid`s, an unused entry has no parent and no open file, and every process but init
has a live parent with a smaller `pid` that has not exited.

`Effect` says once what a step can do (`effect_of_step`).  Most steps do not touch what
the invariant speaks of (`Quiet`).  The others are those of `userinit`, the allocation of
an entry, the steps of `fork`, the closing of files and the locked section of `exit`, and
a `wait` that finds a child (`Xv6.Proc.Steps`).
-/

import Xv6.Proc.Table

namespace Xv6.Ptable

open Function Option State

/-- What the tree distinguishes of a state. -/
inductive Kind where
  | unused
  | embryo
  | alive
  | zombie
deriving DecidableEq

/-- The kind of a state. -/
def ProcState.kind : ProcState → Kind
  | UNUSED => .unused
  | EMBRYO => .embryo
  | ZOMBIE => .zombie
  | _ => .alive

/-- The kind of entry `i`. -/
def State.kind (s : State) (i : Slot) : Kind := (s.proc i).state.kind

/-- No open files. -/
def Proc.noFiles (p : Proc) : Prop := ∀ fd, p.ofile fd = none

/-- `fork` has set the parent of the new entry. -/
def ForkAt.hasParent : ForkAt → Bool
  | kalloc | copyuvm | sz | parent => false
  | _ => true

/-- `fork` may still fail. -/
def ForkAt.early : ForkAt → Bool
  | kalloc | copyuvm => true
  | _ => false

/-- Neither in `fork` nor in `exit`. -/
def Pc.plain : Pc → Bool
  | fork _ _ | exitFiles _ | exitLock => false
  | _ => true

variable {s s' : State} {i : Slot} {a : Act} {c : Pc}

/-- What holds while process `i` is in `fork` with the new entry `np`. -/
structure Forking (s : State) (i np : Slot) (k : ForkAt) : Prop where
  alive : s.kind i = .alive
  embryo : s.kind np = .embryo
  pid : (s.proc i).pid < (s.proc np).pid
  origin : s.origin np = (s.proc i).pid
  parent : (s.proc np).parent = if k.hasParent then some i else none
  files : k.early = true → (s.proc np).noFiles

/-- The entry `userinit` has allocated. -/
structure First (s : State) (p : Slot) : Prop where
  embryo : s.kind p = .embryo
  others : ∀ i, i ≠ p → s.kind i = .unused
  pid : (s.proc p).pid = 1
  parent : (s.proc p).parent = none

/-- What holds at each point of `userinit`. -/
def Booting (s : State) : Prop :=
  match s.boot with
  | .start => (∀ i, s.kind i = .unused) ∧ s.initproc = none ∧ s.nextpid = 1
  | .kalloc p | .setup p => First s p ∧ s.initproc = none
  | .run p => First s p ∧ s.initproc = some p
  | .done => ∃ r, s.initproc = some r ∧ s.kind r = .alive

/-- The invariant of the process table. -/
structure Inv (s : State) : Prop where
  count : s.nextpid = s.allocs + 1
  pids : ∀ i, s.kind i ≠ .unused → 0 < (s.proc i).pid ∧ (s.proc i).pid < s.nextpid
  inj : ∀ i j, s.kind i ≠ .unused → s.kind j ≠ .unused → (s.proc i).pid = (s.proc j).pid → i = j
  files : ∀ i, s.kind i = .unused ∨ s.kind i = .zombie → (s.proc i).noFiles
  unused : ∀ i, s.kind i = .unused → (s.proc i).parent = none
  tree : ∀ i, s.kind i = .alive ∨ s.kind i = .zombie → s.initproc ≠ some i →
    ∃ q, (s.proc i).parent = some q ∧ s.kind q = .alive ∧ (s.proc q).pid < (s.proc i).pid ∧
      ((s.proc q).pid = s.origin i ∨ s.initproc = some q ∧ s.origin i ∈ s.exited)
  init : ∀ r, s.initproc = some r → (s.proc r).parent = none ∧ (s.proc r).pid = 1
  boot : Booting s
  fork : ∀ i np k, s.pc i = .fork np k → Forking s i np k
  owner : ∀ i j np k k', s.pc i = .fork np k → s.pc j = .fork np k' → i = j
  embryo : ∀ e, s.kind e = .embryo → (∃ i k, s.pc i = .fork e k) ∨ s.boot ≠ .done
  closing : ∀ i fd, s.pc i = .exitFiles fd → s.initproc ≠ some i ∧
    ∀ j : Fin NOFILE, j.val < fd → (s.proc i).ofile j = none
  closed : ∀ i, s.pc i = .exitLock → s.initproc ≠ some i ∧ (s.proc i).noFiles
  idle : ∀ i, s.kind i ≠ .alive → s.pc i = .user

theorem inv_init : Inv State.init where
  count := rfl
  pids i h := absurd rfl h
  inj i j h := absurd rfl h
  files i _ fd := rfl
  unused i _ := rfl
  tree i h := by rcases h with h | h <;> cases h
  init r h := by cases h
  boot := ⟨fun _ => rfl, rfl, rfl⟩
  fork i np k h := by cases h
  owner i j np k k' h := by cases h
  embryo e h := by cases h
  closing i fd h := by cases h
  closed i h := by cases h
  idle i _ := rfl

/-! ### Steps that leave the tree alone -/

/-- A step that leaves the tree alone. -/
structure Quiet (s s' : State) : Prop where
  kind : ∀ i, s'.kind i = s.kind i
  pid : ∀ i, (s'.proc i).pid = (s.proc i).pid
  parent : ∀ i, (s'.proc i).parent = (s.proc i).parent
  ofile : ∀ i, (s'.proc i).ofile = (s.proc i).ofile
  pc : ∀ i, s'.pc i = s.pc i ∨
    s.kind i = .alive ∧ (s.pc i).plain = true ∧ (s'.pc i).plain = true
  nextpid : s'.nextpid = s.nextpid
  allocs : s'.allocs = s.allocs
  initproc : s'.initproc = s.initproc
  boot : s'.boot = s.boot
  origin : s'.origin = s.origin
  exited : s'.exited = s.exited

theorem Quiet.pc_eq (h : Quiet s s') (hc : c.plain = false)
    (hi : s'.pc i = c) : s.pc i = c := by
  rcases h.pc i with he | ⟨-, -, hp⟩
  · exact he.symm.trans hi
  · rw [hi, hc] at hp
    cases hp

theorem Booting.congr (h : Booting s) (hkind : ∀ i, s'.kind i = s.kind i)
    (hpid : ∀ i, (s'.proc i).pid = (s.proc i).pid)
    (hparent : ∀ i, (s'.proc i).parent = (s.proc i).parent) (hnext : s'.nextpid = s.nextpid)
    (hinit : s'.initproc = s.initproc) (hboot : s'.boot = s.boot) : Booting s' := by
  have hfirst : ∀ {p}, First s p → First s' p := fun {p} hp =>
    ⟨(hkind p).trans hp.embryo, fun i hi => (hkind i).trans (hp.others i hi),
      (hpid p).trans hp.pid, (hparent p).trans hp.parent⟩
  unfold Booting at h ⊢
  rw [hboot]
  split at h
  · exact ⟨fun i => (hkind i).trans (h.1 i), hinit.trans h.2.1, hnext.trans h.2.2⟩
  · exact ⟨hfirst h.1, hinit.trans h.2⟩
  · exact ⟨hfirst h.1, hinit.trans h.2⟩
  · exact ⟨hfirst h.1, hinit.trans h.2⟩
  · obtain ⟨r, hr, hk⟩ := h
    exact ⟨r, hinit.trans hr, (hkind r).trans hk⟩

/-- A step that changes neither the tree nor a `fork` keeps the invariant, if `exit` closes files as
it should. -/
theorem Inv.calm (h : Inv s) (hkind : ∀ i, s'.kind i = s.kind i)
    (hpid : ∀ i, (s'.proc i).pid = (s.proc i).pid)
    (hpar : ∀ i, (s'.proc i).parent = (s.proc i).parent)
    (hof : ∀ i, s.kind i ≠ .alive → (s'.proc i).ofile = (s.proc i).ofile)
    (hfork : ∀ i np k, s'.pc i = .fork np k ↔ s.pc i = .fork np k)
    (hidle : ∀ i, s.kind i ≠ .alive → s'.pc i = s.pc i)
    (hclosing : ∀ i fd, s'.pc i = .exitFiles fd → s.initproc ≠ some i ∧
      ∀ j : Fin NOFILE, j.val < fd → (s'.proc i).ofile j = none)
    (hclosed : ∀ i, s'.pc i = .exitLock → s.initproc ≠ some i ∧ (s'.proc i).noFiles)
    (hrest : s'.nextpid = s.nextpid ∧ s'.allocs = s.allocs ∧ s'.initproc = s.initproc ∧
      s'.boot = s.boot ∧ s'.origin = s.origin ∧ s'.exited = s.exited) : Inv s' := by
  obtain ⟨hnext, hallocs, hinit, hboot, horigin, hexited⟩ := hrest
  refine ⟨by rw [hnext, hallocs]; exact h.count, fun i hi => ?_, fun i j hi hj hij => ?_,
    fun i hi => ?_, fun i hi => ?_, fun i hi hr => ?_, fun r hr => ?_,
    h.boot.congr hkind hpid hpar hnext hinit hboot, fun i np k hi => ?_,
    fun i j np k k' hi hj => h.owner i j np k k' ((hfork ..).1 hi) ((hfork ..).1 hj),
      fun e he => ?_,
    hinit ▸ hclosing, hinit ▸ hclosed, fun i hi => ?_⟩
  · rw [hpid, hnext]
    exact h.pids i (hkind i ▸ hi)
  · rw [hpid, hpid] at hij
    exact h.inj i j (hkind i ▸ hi) (hkind j ▸ hj) hij
  · rw [hkind] at hi
    unfold Proc.noFiles
    rw [hof i (by rcases hi with h | h <;> rw [h] <;> simp)]
    exact h.files i hi
  · exact (hpar i).trans (h.unused i (hkind i ▸ hi))
  · obtain ⟨p, h1, h2, h3, h4⟩ := h.tree i (hkind i ▸ hi) (hinit ▸ hr)
    refine ⟨p, (hpar i).trans h1, (hkind p).trans h2, ?_, ?_⟩
    · rw [hpid, hpid]
      exact h3
    · rw [hpid, horigin, hinit, hexited]
      exact h4
  · rw [hpar, hpid]
    exact h.init r (hinit ▸ hr)
  · obtain ⟨h1, h2, h3, h4, h5, h6⟩ := h.fork i np k ((hfork ..).1 hi)
    refine ⟨(hkind i).trans h1, (hkind np).trans h2, ?_, ?_, (hpar np).trans h5, fun hk => ?_⟩
    · rw [hpid, hpid]
      exact h3
    · rw [horigin, hpid]
      exact h4
    · unfold Proc.noFiles
      rw [hof np (by rw [h2]; simp)]
      exact h6 hk
  · rw [hboot]
    refine (h.embryo e (hkind e ▸ he)).imp_left ?_
    rintro ⟨i, k, hi⟩
    exact ⟨i, k, (hfork ..).2 hi⟩
  · rw [hkind] at hi
    exact (hidle i hi).trans (h.idle i hi)

/-- A step that leaves the tree alone keeps the invariant. -/
theorem Inv.quiet (h : Inv s) (q : Quiet s s') : Inv s' := by
  refine h.calm q.kind q.pid q.parent (fun i _ => q.ofile i)
    (fun i np k => ⟨q.pc_eq rfl, fun hi => ?_⟩)
    (fun i hi => (q.pc i).resolve_right fun ha => hi ha.1) (fun i fd hi => ?_) (fun i hi => ?_)
    ⟨q.nextpid, q.allocs, q.initproc, q.boot, q.origin, q.exited⟩
  · rcases q.pc i with hp | ⟨-, hp, -⟩
    · exact hp.trans hi
    · rw [hi] at hp
      cases hp
  · rw [q.ofile]
    exact h.closing i fd (q.pc_eq rfl hi)
  · unfold Proc.noFiles
    rw [q.ofile]
    exact h.closed i (q.pc_eq rfl hi)

theorem State.kind_set (s : State) (i : Slot) (p : Proc) (j : Slot) :
    (s.set i p).kind j = if j = i then p.state.kind else s.kind j := by
  simp only [kind, set, update_apply]
  split_ifs <;> rfl

theorem State.pc_goto (s : State) (i : Slot) (c : Pc) (j : Slot) :
    (s.goto i c).pc j = if j = i then c else s.pc j := update_apply ..

theorem State.goto_of_eq (h : s.pc i = c) : s.goto i c = s := by
  unfold goto
  rw [← h, update_eq_self]

/-- An entry that changes in nothing the tree speaks of. -/
theorem Quiet.of_set {p : Proc} (hproc : s'.proc = update s.proc i p)
    (hk : p.state.kind = s.kind i) (hpid : p.pid = (s.proc i).pid)
    (hpar : p.parent = (s.proc i).parent) (hof : p.ofile = (s.proc i).ofile)
    (hpc : ∀ j, s'.pc j = s.pc j ∨
      s.kind j = .alive ∧ (s.pc j).plain = true ∧ (s'.pc j).plain = true)
    (hrest : s'.nextpid = s.nextpid ∧ s'.allocs = s.allocs ∧ s'.initproc = s.initproc ∧
      s'.boot = s.boot ∧ s'.origin = s.origin ∧ s'.exited = s.exited := by
        exact ⟨rfl, rfl, rfl, rfl, rfl, rfl⟩) : Quiet s s' := by
  have hj : ∀ j, s'.proc j = if j = i then p else s.proc j := fun j => by
    rw [hproc, update_apply]
  obtain ⟨h1, h2, h3, h4, h5, h6⟩ := hrest
  refine ⟨fun j => ?_, fun j => ?_, fun j => ?_, fun j => ?_, hpc, h1, h2, h3, h4, h5, h6⟩
  · simp only [State.kind, hj]
    split_ifs with hji
    · rw [hji]
      exact hk
    · rfl
  all_goals
    rw [hj]
    split_ifs with hji
    · rw [hji]
      assumption
    · rfl

/-- A process that goes on, neither in `fork` nor in `exit`. -/
theorem Quiet.goto (h : s.kind i = .alive) (hp : (s.pc i).plain = true)
    (hc : c.plain = true) (j : Slot) :
    (s.goto i c).pc j = s.pc j ∨
      s.kind j = .alive ∧ (s.pc j).plain = true ∧ ((s.goto i c).pc j).plain = true := by
  rw [pc_goto]
  split_ifs with hj
  · subst hj
    exact .inr ⟨h, hp, hc⟩
  · exact .inl rfl

theorem Quiet.of_goto (h : s.kind i = .alive) (hp : (s.pc i).plain = true)
    (hc : c.plain = true) : Quiet s (s.goto i c) :=
  ⟨fun _ => rfl, fun _ => rfl, fun _ => rfl, fun _ => rfl, Quiet.goto h hp hc, rfl, rfl, rfl, rfl,
    rfl, rfl⟩

theorem State.runs.alive (h : s.runs i) : s.kind i = .alive := by
  unfold kind
  rw [h.1]
  rfl

theorem wakeup1_spec (c : Option Chan) (t : Slot → Proc) (i : Slot) :
    ((wakeup1 c t i).state.kind = (t i).state.kind ∧ (wakeup1 c t i).pid = (t i).pid ∧
      (wakeup1 c t i).parent = (t i).parent ∧ (wakeup1 c t i).ofile = (t i).ofile) := by
  unfold wakeup1
  split_ifs with h
  · exact ⟨by rw [h.1]; rfl, rfl, rfl, rfl⟩
  · exact ⟨rfl, rfl, rfl, rfl⟩

theorem find_eq_some {f : Proc → Bool} (h : s.find f = some i) : f (s.proc i) = true :=
  List.find?_some (p := fun i => f (s.proc i)) h

/-- The entry the scheduler picks is `RUNNABLE`. -/
theorem best_runnable (h : s.best = some i) : (s.proc i).state = .RUNNABLE := by
  have hfold : ∀ (l : List Slot) (b : Option Slot),
      (∀ q, b = some q → (s.proc q).state = .RUNNABLE) →
      ∀ q, l.foldl s.better b = some q → (s.proc q).state = .RUNNABLE := by
    intro l
    induction l with
    | nil => exact fun b hb q hq => hb q hq
    | cons p l ih =>
      intro b hb q hq
      refine ih _ (fun r hr => ?_) q hq
      unfold better at hr
      split_ifs at hr with hp
      · split at hr
        · exact some.inj hr ▸ hp
        · split_ifs at hr
          · exact some.inj hr ▸ hp
          · exact hb r hr
      · exact hb r hr
  exact hfold _ none nofun i h

/-! ### What a step does -/

/-- In a system call, past the test of `killed` and outside `exit`. -/
def Pc.inCall : Pc → Bool
  | user | exitFiles _ | exitLock => false
  | _ => true

/-- Entry `p` changes in nothing that the tree, `kill` and `nice` speak of. -/
structure Proc.Alike (p q : Proc) : Prop where
  kind : p.state.kind = q.state.kind
  pid : p.pid = q.pid
  parent : p.parent = q.parent
  ofile : p.ofile = q.ofile
  nice : p.nice = q.nice
  killed : p.killed = q.killed

/-- How a call on files and `exit` change the files of process `i`, which goes on at `c`. -/
inductive OwnFiles (s : State) (i : Slot) : (Fin NOFILE → Option (Fin NFILE)) → Pc → Prop
  | file (f : Fin NOFILE → Option (Fin NFILE)) (hp : s.pc i = .entered) : OwnFiles s i f .entered
  | exit (hp : (s.pc i).plain = true) (hr : s.initproc ≠ some i) :
      OwnFiles s i (s.proc i).ofile (.exitFiles 0)
  | close (fd : Fin NOFILE) (hp : s.pc i = .exitFiles fd) :
      OwnFiles s i (update (s.proc i).ofile fd none) (.exitFiles (fd + 1))
  | closed {fd : ℕ} (hp : s.pc i = .exitFiles fd) (h : NOFILE ≤ fd) :
      OwnFiles s i (s.proc i).ofile .exitLock

/-- How a step of `fork` from `k` to `m` writes the new entry `np`. -/
structure ForkWrite (s : State) (i np : Slot) (k m : ForkAt) (p : Proc) : Prop where
  state : p.state = (s.proc np).state
  chan : p.chan = (s.proc np).chan
  pid : p.pid = (s.proc np).pid
  killed : p.killed = (s.proc np).killed
  nice : p.nice = if k = .nice then (s.proc i).nice else (s.proc np).nice
  parent : (s.proc np).parent = (if k.hasParent then some i else none) →
    p.parent = if m.hasParent then some i else none
  files : m.early = true → k.early = true ∧ p.ofile = (s.proc np).ofile

/-- **What a step does.**  The steps of `userinit`; an entry that changes in nothing of interest
and a process that only goes on; and the others one by one. -/
inductive Effect (s : State) : Act → State → Prop
  | start {ok : Bool} {p : Slot} {s₁ : State} (hb : s.boot = .start)
      (ha : s.allocproc = some (p, s₁)) : Effect s (.userinit ok) { s₁ with boot := .kalloc p }
  | kalloc {ok : Bool} {p : Slot} (hb : s.boot = .kalloc p) :
      Effect s (.userinit ok) { s with boot := .setup p }
  | setup {ok : Bool} {p : Slot} (hb : s.boot = .setup p) : Effect s (.userinit ok)
      { s.set p { s.proc p with
          sz := 4096, isPrivileged := false, name := "initcode".toUTF8.toList } with
        initproc := some p, boot := .run p }
  | run {ok : Bool} {p : Slot} (hb : s.boot = .run p) : Effect s (.userinit ok)
      { s.set p { s.proc p with state := .RUNNABLE } with boot := .done }
  | set {a : Act} {i : Slot} {p : Proc} (h : p.Alike (s.proc i))
      (hsl : p.state = .SLEEPING → p.chan = some (.proc i) →
        (s.proc i).state = .SLEEPING ∧ (s.proc i).chan = some (.proc i)) : Effect s a (s.set i p)
  | goto {a : Act} {i : Slot} {c : Pc} (hr : s.runs i) (hp : (s.pc i).plain = true)
      (hc : c.plain = true)
      (hcall : c.inCall = true → (s.pc i).inCall = true ∨ (s.proc i).killed = false) :
      Effect s a (s.goto i c)
  | wakeup {addr : ℕ} :
      Effect s (.wakeup addr) { s with proc := wakeup1 (some (.other addr)) s.proc }
  | fault {i : Slot} (hr : s.runs i) : Effect s (.fault i)
      { s.set i { s.proc i with killed := true } with kills := s.kills ++ [(s.proc i).pid] }
  | own {a : Act} {i : Slot} {f : Fin NOFILE → Option (Fin NFILE)} {c : Pc} (hr : s.runs i)
      (hf : OwnFiles s i f c) : Effect s a ((s.set i { s.proc i with ofile := f }).goto i c)
  | alloc {i np : Slot} {s₁ : State} (hr : s.runs i) (hp : s.pc i = .entered)
      (ha : s.allocproc = some (np, s₁)) : Effect s (.allocproc i)
      { s₁.goto i (.fork np .kalloc) with origin := update s.origin np (s.proc i).pid }
  | forkNext {i np : Slot} {ok : Bool} {k m : ForkAt} {p : Proc} (hp : s.pc i = .fork np k)
      (hw : ForkWrite s i np k m p) : Effect s (.fork i ok) ((s.set np p).goto i (.fork np m))
  | forkFail {i np : Slot} {k : ForkAt} (hp : s.pc i = .fork np k) (hk : k.early = true) :
      Effect s (.fork i false)
        ((s.set np { s.proc np with state := .UNUSED }).goto i (.done (-1)))
  | forkRun {i np : Slot} {ok : Bool} (hp : s.pc i = .fork np .run) : Effect s (.fork i ok)
      (((s.set np { s.proc np with state := .RUNNABLE }).goto np .user).goto i
        (.done (s.proc np).pid))
  | exitLocked {i : Slot} (hr : s.runs i) (hp : s.pc i = .exitLock) :
      Effect s (.exitStep i) (s.exitLocked i)
  | reap {i z : Slot} (hr : s.runs i) (hp : s.pc i = .entered ∨ s.pc i = .waiting)
      (hz : s.zombieChild i = some z) : Effect s (.wait i) (s.wait i)
  | wait {i : Slot} (hr : s.runs i) (hp : s.pc i = .entered ∨ s.pc i = .waiting)
      (hz : s.zombieChild i = none) : Effect s (.wait i)
      ((s.set i { s.proc i with chan := some (.proc i), state := .SLEEPING }).goto i .waiting)
  | kill {i j : Slot} (hr : s.runs i) (hp : s.pc i = .entered) :
      Effect s (.kill i (s.proc j).pid)
        { (s.set j { s.proc j with
            killed := true
            state := if (s.proc j).state = .SLEEPING then .RUNNABLE else (s.proc j).state }).goto i
              (.done 0) with
          kills := s.kills ++ [(s.proc j).pid] }
  | nice {i j : Slot} {pid priority : ℤ} (hr : s.runs i) (hp : s.pc i = .entered)
      (hrange : ¬ (priority < -20 ∨ 19 < priority)) (hj : (s.find fun p => p.pid = pid) = some j) :
      Effect s (.nice i pid priority)
        ((s.set j { s.proc j with
          nice := if priority < 0 then -priority else priority
          isPrivileged := priority < 0 }).goto i (.done 0))

theorem State.set_self (s : State) (i : Slot) : s.set i (s.proc i) = s := by
  unfold set
  rw [update_eq_self]

/-- A process in the middle of a call goes on. -/
theorem Effect.entered (hr : s.runs i) (hp : s.pc i = .entered ∨ s.pc i = .waiting)
    (hc : c.plain = true) : Effect s a (s.goto i c) := by
  refine .goto hr ?_ hc fun _ => .inl ?_ <;> rcases hp with hp | hp <;> rw [hp] <;> rfl

theorem effect_exit (hr : s.runs i) (hp : (s.pc i).plain = true)
    (hs : s.exit i = .ok s') : Effect s a s' := by
  unfold exit at hs
  split_ifs at hs with hroot
  cases hs
  have := Effect.own (a := a) hr (.exit hp hroot)
  rwa [set_self] at this

theorem effect_forkStep {np : Slot} {ok : Bool} {k : ForkAt} (hp : s.pc i = .fork np k) :
    Effect s (.fork i ok) (s.forkStep i np ok k) := by
  -- where `fork` writes nothing, it writes the entry as it is
  have hgoto : ∀ m : ForkAt, k ≠ .nice → k.hasParent = m.hasParent →
      (m.early = true → k.early = true) → Effect s (.fork i ok) (s.goto i (.fork np m)) := by
    intro m hn hm he
    have : Effect s (.fork i ok) _ := .forkNext (m := m) (p := s.proc np) hp
      ⟨rfl, rfl, rfl, rfl, (if_neg hn).symm, fun h => hm ▸ h, fun h => ⟨he h, rfl⟩⟩
    rwa [set_self] at this
  cases k with
  | kalloc | copyuvm =>
    cases ok with
    | true => exact hgoto _ (by simp) rfl (by simp [ForkAt.early])
    | false => exact .forkFail hp rfl
  | files fd =>
    simp only [forkStep]
    split_ifs
    · exact .forkNext hp ⟨rfl, rfl, rfl, rfl, rfl, fun h => h, nofun⟩
    · exact hgoto _ (by simp) rfl (by simp [ForkAt.early])
  | run => exact .forkRun hp
  | parent => exact .forkNext hp ⟨rfl, rfl, rfl, rfl, rfl, fun _ => rfl, nofun⟩
  | sz | nice | priv | name =>
    exact .forkNext hp ⟨rfl, rfl, rfl, rfl, rfl, fun h => h, nofun⟩

/-- **Every step has one of these effects.** -/
theorem effect_of_step (hs : s.step a = some (.ok s')) : Effect s a s' := by
  cases a with
  | userinit ok =>
    simp only [step, userinit] at hs
    split at hs
    · obtain ⟨⟨p, s1⟩, ha, he⟩ := map_eq_some_iff.1 hs
      cases he
      exact .start ‹_› ha
    · split_ifs at hs <;> cases hs
      exact .kalloc ‹_›
    · split_ifs at hs <;> cases hs
      exact .setup ‹_›
    · cases hs
      exact .run ‹_›
    · cases hs
  | schedule =>
    obtain ⟨i, hi, he⟩ := map_eq_some_iff.1 hs
    cases he
    exact .set ⟨by rw [best_runnable hi]; rfl, rfl, rfl, rfl, rfl, rfl⟩ (by simp)
  | wakeup addr =>
    cases hs
    exact .wakeup
  | leave i =>
    simp only [step] at hs
    split at hs
    · rename_i hp
      split_ifs at hs with hr
      cases hs
      exact .goto hr.1 (by rw [hp]; rfl) rfl (by simp [Pc.inCall])
    · cases hs
  | die i =>
    simp only [step] at hs
    split at hs
    · rename_i hp
      split_ifs at hs with hr
      exact effect_exit hr.1 (by rw [hp]; rfl) (some.inj hs)
    · rename_i hp
      split_ifs at hs with hr
      exact effect_exit hr.1 (by rw [hp]; rfl) (some.inj hs)
    · cases hs
  | fork i ok =>
    simp only [step] at hs
    split at hs
    · split_ifs at hs
      cases hs
      exact effect_forkStep ‹_›
    · cases hs
  | exitStep i =>
    simp only [step] at hs
    split at hs
    · rename_i fd hp
      split_ifs at hs with hr
      cases hs
      unfold closeFile
      split_ifs with hfd
      · exact .own hr (.close ⟨fd, hfd⟩ hp)
      · have := Effect.own (a := .exitStep i) hr (.closed hp (Nat.le_of_not_lt hfd))
        rwa [set_self] at this
    · split_ifs at hs with hr
      cases hs
      exact .exitLocked hr ‹_›
    · cases hs
  | exit i =>
    simp only [step] at hs
    split_ifs at hs with hr
    exact effect_exit hr.1 (by rw [hr.2]; rfl) (some.inj hs)
  | allocproc i =>
    simp only [step] at hs
    split_ifs at hs with hr
    split at hs
    · cases hs
      exact .alloc hr.1 hr.2 ‹_›
    · cases hs
      exact .entered hr.1 (.inl hr.2) rfl
  | yield i =>
    simp only [step] at hs
    split_ifs at hs with hr
    cases hs
    exact .set ⟨hr.alive.symm, rfl, rfl, rfl, rfl, rfl⟩ (by simp)
  | sleep i addr =>
    simp only [step] at hs
    split_ifs at hs with hr
    cases hs
    exact .set ⟨hr.1.alive.symm, rfl, rfl, rfl, rfl, rfl⟩ (by simp)
  | resume i =>
    simp only [step] at hs
    split_ifs at hs
    cases hs
    exact .set ⟨rfl, rfl, rfl, rfl, rfl, rfl⟩ (by simp)
  | tick i | sbrk i sz | exec i sz name =>
    simp only [step] at hs
    split_ifs at hs
    cases hs
    exact .set ⟨rfl, rfl, rfl, rfl, rfl, rfl⟩ fun h1 h2 => ⟨h1, h2⟩
  | fault i =>
    simp only [step] at hs
    split_ifs at hs with hr
    cases hs
    exact .fault hr.1
  | enter i =>
    simp only [step] at hs
    split_ifs at hs with hr
    cases hs
    exact .goto hr.1 (by rw [hr.2.1]; rfl) rfl fun _ => .inr hr.2.2
  | other i r =>
    simp only [step] at hs
    split_ifs at hs with hr
    cases hs
    exact .entered hr.1 (.inl hr.2) rfl
  | file i fd f =>
    simp only [step] at hs
    split_ifs at hs with hr
    cases hs
    have := Effect.own (a := .file i fd f) hr.1 (.file (update (s.proc i).ofile fd f) hr.2)
    rwa [goto_of_eq (s := s.set i _) hr.2] at this
  | wait i =>
    simp only [step] at hs
    split_ifs at hs with hr
    cases hs
    cases hz : s.zombieChild i with
    | some z => exact .reap hr.1 hr.2 hz
    | none =>
      unfold wait
      rw [hz]
      dsimp only
      split_ifs
      · exact .entered hr.1 hr.2 rfl
      · exact .wait hr.1 hr.2 hz
  | kill i pid =>
    simp only [step] at hs
    split_ifs at hs with hr
    cases hs
    unfold kill
    split
    · rename_i j hj
      obtain rfl : (s.proc j).pid = pid := of_decide_eq_true (find_eq_some hj)
      exact .kill hr.1 hr.2
    · exact .entered hr.1 (.inl hr.2) rfl
  | nice i pid priority =>
    simp only [step] at hs
    split_ifs at hs with hr
    cases hs
    unfold nice
    split
    · exact .entered hr.1 (.inl hr.2) rfl
    · split
      · exact .nice hr.1 hr.2 ‹_› ‹_›
      · exact .entered hr.1 (.inl hr.2) rfl

end Xv6.Ptable
