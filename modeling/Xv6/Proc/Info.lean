/-
# `getprocinfo`

`proc.c`: `procstatestr`, `can_access_procinfo` and `getprocinfo`.  The walk up the
parents has no bound of its own; it is modelled with a number of rounds, and ends
within `nextpid` rounds in every reachable state, for the `pid`s on it decrease
(`canAccess_spec`).

`process_tree` gathers the invariant of the process table and what `getprocinfo`
returns under it.
-/

import Xv6.Proc.Steps

namespace Xv6.Ptable

open Lib State

/-- `procstatestr`. -/
def procstatestr : ProcState → String
  | .UNUSED => "UNUSED"
  | .EMBRYO => "EMBRYO"
  | .SLEEPING => "SLEEPING"
  | .RUNNABLE => "RUNNABLE"
  | .RUNNING => "RUNNING"
  | .ZOMBIE => "ZOMBIE"

/-- `struct procinfo`. -/
structure Procinfo where
  pid : ℤ
  ppid : ℤ
  state : List UInt8
  sz : UInt32
  cputicks : UInt32
  name : List UInt8
  nice : ℤ
  isPrivileged : Bool

variable (s : State)

/-- `can_access_procinfo`, for at most `n` rounds: `none` if the walk is not over. -/
def canAccess (caller : Slot) : ℕ → Option Slot → Option Bool
  | _, none => some false
  | 0, some _ => none
  | n + 1, some target =>
      if target = caller then some true else canAccess caller n (s.proc target).parent

/-- What `getprocinfo` writes about process `p`. -/
def procinfo (p : Slot) : Procinfo where
  pid := (s.proc p).pid
  ppid := match (s.proc p).parent with
    | some q => (s.proc q).pid
    | none => 0
  state := safestrcpy (procstatestr (s.proc p).state).toUTF8.toList 16
  sz := (s.proc p).sz
  cputicks := (s.proc p).cputicks
  name := safestrcpy (s.proc p).name 16
  nice := (s.proc p).nice
  isPrivileged := (s.proc p).isPrivileged

/-- `getprocinfo` called by process `cur`, with the walk bounded by `n` rounds: the
value returned and `*info` afterwards.  A null pointer is `none`. -/
def getprocinfo (cur : Slot) (n : ℕ) (pid : ℤ) (info : Option Procinfo) :
    Option (ℤ × Option Procinfo) :=
  match info with
  | none => some (-1, none)
  | some _ =>
      match s.find fun p => p.pid = pid ∧ p.state ≠ .UNUSED with
      | some p =>
          (canAccess s cur n (some p)).map fun ok =>
            if ok then (0, some (procinfo s p)) else (-1, info)
      | none => some (-1, info)

/-- `q` is the process `p` or one of its ancestors. -/
def Ancestor (p q : Slot) : Prop :=
  Relation.ReflTransGen (fun p q => (s.proc p).parent = some q) p q

variable {s}

/-- The parent of a live process is alive and has a smaller `pid`. -/
theorem Inv.parent_lt (h : Inv s) {p q : Slot} (hp : s.kind p ≠ .unused)
    (hq : (s.proc p).parent = some q) : s.kind q = .alive ∧ (s.proc q).pid < (s.proc p).pid := by
  have htree : s.kind p = .alive ∨ s.kind p = .zombie →
      s.kind q = .alive ∧ (s.proc q).pid < (s.proc p).pid := fun hk => by
    by_cases hr : s.initproc = some p
    · rw [(h.init p hr).1] at hq
      cases hq
    · obtain ⟨q', h1, h2, h3, -⟩ := h.tree p hk hr
      obtain rfl : q' = q := Option.some.inj (h1.symm.trans hq)
      exact ⟨h2, h3⟩
  cases hk : s.kind p with
  | unused => exact absurd hk hp
  | alive => exact htree (.inl hk)
  | zombie => exact htree (.inr hk)
  | embryo =>
    rcases h.embryo p hk with ⟨i, k, hi⟩ | hb
    · have hf := h.fork i p k hi
      have hpar := hf.parent
      rw [hq] at hpar
      split_ifs at hpar
      cases hpar
      exact ⟨hf.alive, hf.pid⟩
    · have hboot := h.boot
      have hfirst : ∀ e, First s e → False := fun e he => by
        by_cases hpe : p = e
        · rw [hpe, he.parent] at hq
          cases hq
        · rw [he.others p hpe] at hk
          cases hk
      unfold Booting at hboot
      split at hboot
      · rw [hboot.1 p] at hk
        cases hk
      · exact (hfirst _ hboot.1).elim
      · exact (hfirst _ hboot.1).elim
      · exact (hfirst _ hboot.1).elim
      · rename_i hd
        exact absurd hd hb

/-- **The walk ends**, with `1` exactly if the caller is met. -/
theorem canAccess_spec (h : Inv s) (caller : Slot) :
    ∀ (n : ℕ) (p : Slot), s.kind p ≠ .unused → (s.proc p).pid ≤ n →
      ∃ b, canAccess s caller n (some p) = some b ∧ (b = true ↔ Ancestor s p caller)
  | 0, p, hp, hn => by
    have := (h.pids p hp).1
    omega
  | n + 1, p, hp, hn => by
    unfold canAccess
    split_ifs with hc
    · exact ⟨true, rfl, fun _ => hc ▸ .refl, fun _ => rfl⟩
    · have hhead : Ancestor s p caller ↔
          ∃ q, (s.proc p).parent = some q ∧ Ancestor s q caller := by
        constructor
        · intro ha
          rcases Relation.ReflTransGen.cases_head ha with he | ⟨q, hq, ha⟩
          · exact absurd he hc
          · exact ⟨q, hq, ha⟩
        · rintro ⟨q, hq, ha⟩
          exact .head hq ha
      cases hq : (s.proc p).parent with
      | none =>
        refine ⟨false, ?_, ⟨fun hf => by simp at hf, fun ha => ?_⟩⟩
        · cases n <;> rfl
        · obtain ⟨q, hq', -⟩ := hhead.1 ha
          rw [hq] at hq'
          cases hq'
      | some q =>
        obtain ⟨hqk, hlt⟩ := h.parent_lt hp hq
        obtain ⟨b, hb, hiff⟩ := canAccess_spec h caller n q (by rw [hqk]; simp) (by omega)
        refine ⟨b, hb, hiff.trans ?_⟩
        rw [hhead]
        constructor
        · exact fun ha => ⟨q, hq, ha⟩
        · rintro ⟨q', hq', ha⟩
          obtain rfl : q = q' := Option.some.inj (hq.symm.trans hq')
          exact ha

theorem State.kind_eq_unused {i : Slot} : s.kind i = .unused ↔ (s.proc i).state = .UNUSED := by
  unfold kind
  cases (s.proc i).state <;> simp [ProcState.kind]

/-- **What `getprocinfo` returns**, in a state of the invariant. -/
theorem Inv.getprocinfo (h : Inv s) {cur : Slot} (hcur : s.kind cur = .alive) (pid : ℤ)
    (info : Procinfo) {n : ℕ} (hn : s.allocs ≤ n) :
    ∃ r info', getprocinfo s cur n pid (some info) = some (r, some info') ∧
      (r = 0 ↔ ∃ p, (s.proc p).state ≠ .UNUSED ∧ (s.proc p).pid = pid ∧ Ancestor s p cur) ∧
      (r = 0 → ∃ p, (s.proc p).state ≠ .UNUSED ∧ (s.proc p).pid = pid ∧ info' = procinfo s p ∧
        ((∃ q, (s.proc q).state ≠ .UNUSED ∧ info'.ppid = (s.proc q).pid) ∨
          s.initproc = some p ∧ info'.ppid = 0)) ∧
      (r ≠ 0 → r = -1 ∧ info' = info) := by
  unfold Ptable.getprocinfo
  cases hf : s.find fun p => p.pid = pid ∧ p.state ≠ .UNUSED with
  | none =>
    refine ⟨-1, info, rfl, ⟨fun h0 => absurd h0 (by decide), ?_⟩, fun h0 => absurd h0 (by decide),
      fun _ => ⟨rfl, rfl⟩⟩
    rintro ⟨p, hp, hpid, -⟩
    have := List.find?_eq_none.1 hf p (List.mem_finRange p)
    simp [hpid, hp] at this
  | some p =>
    have hp : (s.proc p).pid = pid ∧ (s.proc p).state ≠ .UNUSED := by simpa using find_eq_some hf
    have hlive : s.kind p ≠ .unused := fun hk => hp.2 (kind_eq_unused.1 hk)
    have hle : (s.proc p).pid ≤ n := by
      have h1 := (h.pids p hlive).2
      have h2 := h.count
      omega
    obtain ⟨b, hb, hiff⟩ := canAccess_spec h cur n p hlive hle
    dsimp only
    rw [hb]
    cases b with
    | false =>
      refine ⟨-1, info, rfl, ⟨fun h0 => absurd h0 (by decide), ?_⟩, fun h0 => absurd h0 (by decide),
      fun _ => ⟨rfl, rfl⟩⟩
      rintro ⟨p', hp', hpid, ha⟩
      obtain rfl : p' = p := h.inj p' p (fun hk => hp' (kind_eq_unused.1 hk)) hlive
        (hpid.trans hp.1.symm)
      exact absurd (hiff.2 ha) (by simp)
    | true =>
      have ha := hiff.1 rfl
      refine ⟨0, procinfo s p, rfl, ⟨fun _ => ⟨p, hp.2, hp.1, ha⟩, fun _ => rfl⟩,
        fun _ => ⟨p, hp.2, hp.1, rfl, ?_⟩, fun h0 => absurd rfl h0⟩
      cases hq : (s.proc p).parent with
      | some q =>
        have hqk := (h.parent_lt hlive hq).1
        refine .inl ⟨q, fun hu => ?_, by simp [procinfo, hq]⟩
        rw [kind_eq_unused.2 hu] at hqk
        cases hqk
      | none =>
        refine .inr ⟨?_, by simp [procinfo, hq]⟩
        rcases Relation.ReflTransGen.cases_head ha with he | ⟨q, hq', -⟩
        · by_contra hr
          obtain ⟨q, hq', -⟩ := h.tree p (.inl (he ▸ hcur)) hr
          rw [hq] at hq'
          cases hq'
        · rw [hq] at hq'
          cases hq'

/-- **The process tree and who may look at it.**  In every state reached by any order of
the steps of `userinit`, `fork`, `exit`, `wait`, `kill`, `nice` and the scheduler, with
fewer than `2^31 - 1` allocations:

* live entries have distinct positive `pid`s;
* an unused entry has no parent and no open file;
* every live process past `fork`, other than init, has a parent that is live, has not
  exited and has a smaller `pid`;
* `getprocinfo(pid, info)` called by a running process ends, and returns 0 exactly if a
  live process has that `pid` and the caller is that process or an ancestor of it; it then
  reports as `ppid` the `pid` of a live process, or 0 for init; otherwise it returns -1 and
  leaves `*info` alone. -/
theorem process_tree (s : State) (h : Reaches State.step State.init s)
    (hb : s.allocs < 2 ^ 31 - 1) :
    (∀ i, (s.proc i).state ≠ .UNUSED → 0 < (s.proc i).pid) ∧
    (∀ i j, (s.proc i).state ≠ .UNUSED → (s.proc j).state ≠ .UNUSED →
      (s.proc i).pid = (s.proc j).pid → i = j) ∧
    (∀ i, (s.proc i).state = .UNUSED →
      (s.proc i).parent = none ∧ ∀ fd, (s.proc i).ofile fd = none) ∧
    (∀ i, (s.proc i).state ≠ .UNUSED → (s.proc i).state ≠ .EMBRYO → s.initproc ≠ some i →
      ∃ q, (s.proc i).parent = some q ∧ (s.proc q).state ≠ .UNUSED ∧
        (s.proc q).state ≠ .ZOMBIE ∧ (s.proc q).pid < (s.proc i).pid) ∧
    ∀ cur, (s.proc cur).state = .RUNNING → ∀ (pid : ℤ) (info : Procinfo) (n : ℕ), s.allocs ≤ n →
      ∃ r info', getprocinfo s cur n pid (some info) = some (r, some info') ∧
        (r = 0 ↔ ∃ p, (s.proc p).state ≠ .UNUSED ∧ (s.proc p).pid = pid ∧ Ancestor s p cur) ∧
        (r = 0 → ∃ p, (s.proc p).state ≠ .UNUSED ∧ (s.proc p).pid = pid ∧ info' = procinfo s p ∧
          ((∃ q, (s.proc q).state ≠ .UNUSED ∧ info'.ppid = (s.proc q).pid) ∨
            s.initproc = some p ∧ info'.ppid = 0)) ∧
        (r ≠ 0 → r = -1 ∧ info' = info) := by
  have hi := inv_of_reaches h hb
  have hlive : ∀ i, (s.proc i).state ≠ .UNUSED → s.kind i ≠ .unused :=
    fun i hn hk => hn (kind_eq_unused.1 hk)
  refine ⟨fun i hn => (hi.pids i (hlive i hn)).1,
    fun i j hni hnj => hi.inj i j (hlive i hni) (hlive j hnj),
    fun i hu => ⟨hi.unused i (kind_eq_unused.2 hu), hi.files i (.inl (kind_eq_unused.2 hu))⟩,
    fun i hn he hr => ?_, fun cur hc pid info n hn => hi.getprocinfo ?_ pid info hn⟩
  · have hk : s.kind i = .alive ∨ s.kind i = .zombie := by
      unfold kind
      cases hs : (s.proc i).state <;> simp_all [ProcState.kind]
    obtain ⟨q, h₁, h₂, h₃, -⟩ := hi.tree i hk hr
    unfold kind at h₂
    refine ⟨q, h₁, fun hq => ?_, fun hq => ?_, h₃⟩ <;> rw [hq] at h₂ <;> cases h₂
  · unfold kind
    rw [hc]
    rfl

/-- The steps that bring up init, in entry 0, and schedule it. -/
def bootRun : List Act :=
  [.userinit true, .userinit true, .userinit true, .userinit true, .schedule]

/-- The steps of a `fork` in entry `i` that succeeds, within a system call. -/
def forkRun (i : Slot) : List Act :=
  [.enter i, .allocproc i] ++ List.replicate 25 (.fork i true) ++ [.leave i]

/-- The hypotheses of `process_tree` are satisfiable: init forks a child, which is then
live in entry 1 with parent init. -/
theorem process_tree_fork :
    ∃ s : State, Reaches State.step State.init s ∧ s.allocs < 2 ^ 31 - 1 ∧
      (s.proc 1).state = .RUNNABLE ∧ (s.proc 1).pid = 2 ∧ 0 < (s.proc 1).pid := by
  have hrun : Leads step init (bootRun ++ forkRun 0) fun s =>
      s.allocs < 2 ^ 31 - 1 ∧ (s.proc 1).state = .RUNNABLE ∧ (s.proc 1).pid = 2 := by
    decide +kernel
  obtain ⟨s, h, h₁, h₂, h₃⟩ := hrun.reaches
  exact ⟨s, h, h₁, h₂, h₃, (process_tree s h h₁).1 1 (by rw [h₂]; simp)⟩

end Xv6.Ptable
