/-
# Sleepers on a pipe

Which processes sleep on `&p->nread` and `&p->nwrite`, over every run of `Xv6.Pipe.Calls`. The
invariant is that of `Xv6.Pipe.Sleepers` (`Awake`).  `pipewrite` breaks this where it returns -1:
bytes that it stored since its last `wakeup` are left without one (`reader_forgotten`).  In the runs
without such a return no sleeper is forgotten (`no_sleeper_forgotten`).
-/

import Xv6.Pipe.Sleepers

namespace Xv6.Pipes

open Function Lib Option State
open Ptable (ProcState)

variable {P : Type}

/-- What a sleeper waits for is not there: nothing to read, or no room. -/
def Pipe.Waits (r : Pipe) : Chan → Prop
  | .nread => r.count = 0 ∧ r.writeopen = true
  | .nwrite => r.count = PIPESIZE ∧ r.readopen = true

/-- The thread will call `wakeup(ch)` before it releases `p->lock`. -/
def Thread.owes (ch : Chan) : Thread P → Prop
  | call c (.wake _ .acquire) => c.wakes = ch
  | call c (.wake _ .scan) => c.wakes = ch
  | call (.write _ _ true) .body => ch = .nread
  | call (.read _ got) .copy => ch = .nwrite ∧ got ≠ []
  | _ => False

/-- How the calls use `sleep` and `wakeup`. -/
def sleeping : Sleeping Chan (Thread P) where
  sleep
    | .call c (.sleep z) => some (c.sleepsOn, z)
    | _ => none
  owes := Thread.owes

/-- Both channels have `p->lock`. -/
def State.sleepers (s : State P) : Sleepers P Chan (Thread P) :=
  ⟨s.thread, s.state, s.chan, fun _ => s.lock, s.pipe.Waits⟩

/-- **The invariant of the sleepers.**  A `pipewrite` in the `wakeup` before its `sleep` has found
the pipe full. -/
structure Awake (s : State P) : Prop where
  sleepers : sleeping.Awake s.sleepers
  turned : ∀ q c w, s.thread q = .call c (.wake false w) → s.pipe.Waits c.sleepsOn

variable {s s' : State P} {p : P} {c : Call} {t : Thread P}

theorem awake_init (data : Fin PIPESIZE → UInt8) : Awake (State.init data : State P) where
  sleepers := ⟨fun q h => (by cases h), fun q ch ⟨z, hz, _⟩ => by cases hz⟩
  turned q c w h := by cases h

theorem sleep_eq {ch : Chan} {z : SleepAt} (h : sleeping.sleep t = some (ch, z)) :
    ∃ c, t = .call c (.sleep z) ∧ c.sleepsOn = ch := by
  unfold sleeping at h
  dsimp only at h
  split at h
  · cases h
    exact ⟨_, rfl, rfl⟩
  · cases h

variable [DecidableEq P]

/-- Only the process with `p->lock` changes the pipe. -/
theorem Moves.frame (hl : Locks s) (hm : Moves s p s') :
    (∀ q ≠ p, s'.thread q = s.thread q) ∧ (s'.pipe = s.pipe ∨ s.lock = some p) := by
  cases hm with
  | run | yield => exact ⟨fun _ _ => rfl, .inl rfl⟩
  | store hp | take hp | close hp =>
    exact ⟨fun _ hq => update_of_ne hq .., .inr (hl.pipe.lock_eq (by rw [hp]; rfl))⟩
  | _ => exact ⟨fun _ hq => update_of_ne hq .., .inl rfl⟩

theorem Awake.turned_step (hl : Locks s) (h : Awake s) (hm : Moves s p s') (q : P) (c : Call)
    (w : WakeAt) (hq : s'.thread q = .call c (.wake false w)) : s'.pipe.Waits c.sleepsOn := by
  obtain ⟨hth, hpipe⟩ := hm.frame hl
  by_cases hqp : q = p
  · subst hqp
    cases hm with
    | writeFull hp hfull hopen hr =>
      cases (update_self ..).symm.trans hq
      exact ⟨hfull, hopen⟩
    | wakeLock hp hlock hr =>
      cases (update_self ..).symm.trans hq
      exact h.turned q _ _ hp
    | wakeScan hp hr =>
      rename_i c' last
      cases (update_self ..).symm.trans hq
      rw [show c'.woke.sleepsOn = c'.sleepsOn by cases c' <;> rfl]
      exact h.turned q _ _ hp
    | enter hp hr ht => cases ht <;> cases (update_self ..).symm.trans hq
    | wakeEnd hp hr =>
      rename_i c' last
      cases last <;> cases (update_self ..).symm.trans hq
    | rel hp hr =>
      rename_i c' r
      replace hq := (update_self ..).symm.trans hq
      cases c' <;> dsimp only at hq <;> first | cases hq | (split_ifs at hq; cases hq)
    | run | yield => exact h.turned q c w hq
    | _ => cases (update_self ..).symm.trans hq
  · rw [hth q hqp] at hq
    rcases hpipe with hpipe | hlock
    · rw [hpipe]
      exact h.turned q c w hq
    · have := hl.pipe.eq_false hlock hqp
      rw [hq] at this
      cases this

/-- `wakeup` scans the table: nobody sleeps on its channel any more. -/
theorem Awake.wakeScan (hl : Locks s) (h : Awake s) {last : Bool} (hr : s.state p = .RUNNING)
    (hp : s.thread p = .call c (.wake last .scan)) : sleeping.Awake
      { s.at_ p c.woke (.wake last .release) with state := s.wakeup1 c.wakes }.sleepers := by
  have hlock : s.lock = some p := hl.pipe.lock_eq (by rw [hp]; rfl)
  have htable : s.ptable = some p := hl.table.lock_eq (by rw [hp]; rfl)
  refine h.sleepers.scan (c := c.wakes) hr hp rfl (fun _ => rfl) rfl rfl rfl
    (fun _ ho => ho.symm) rfl fun q hq z st hz hdz => ?_
  obtain ⟨c', hc', -⟩ := sleep_eq hz
  have h1 := hl.pipe.eq_false hlock hq
  have h2 := hl.table.eq_false htable hq
  rw [show s.thread q = _ from hc'] at h1 h2
  rcases hdz with rfl | rfl | rfl | rfl | ⟨rfl, -⟩
  · cases h1
  · cases h1
  · cases h2
  · cases h2
  · rfl

/-- **Every step keeps the invariant**, unless it is the early return of a `pipewrite` that has
stored a byte since its last `wakeup`. -/
theorem Awake.step (hl : Locks s) (h : Awake s) (hm : Moves s p s')
    (hcare : ∀ n b rest, s.thread p = .call (.write n (b :: rest) true) .body →
      s'.thread p ≠ .call (.write n (b :: rest) true) (.rel (-1))) : Awake s' := by
  have ha := h.sleepers
  refine ⟨?_, h.turned_step hl hm⟩
  cases hm with
  | enter hp hr ht =>
    refine ha.runs hr hp rfl fun ch z hz => ?_
    cases ht <;> cases hz
  | lock hp ha' hlock hr =>
    refine ha.runs hr hp rfl nofun (fun ch ho => ?_) fun _ => .inr (.inl hlock)
    rcases ha' with rfl | rfl <;> exact ho.elim
  | writeEnd hp hr =>
    rename_i n fresh
    refine ha.runs hr hp rfl nofun fun ch ho => ⟨rfl, ?_⟩
    cases fresh
    · exact ho.elim
    · exact ho.symm
  | writeFail hp hfull hk hr =>
    rename_i n b rest fresh
    refine ha.runs hr hp rfl nofun fun ch ho => ?_
    cases fresh
    · exact ho.elim
    · exact absurd (update_self ..) (hcare n b rest hp)
  | writeFull hp hfull hopen hr =>
    rename_i n b rest fresh
    refine ha.runs hr hp rfl nofun fun ch ho => ⟨rfl, ?_⟩
    cases fresh
    · exact ho.elim
    · exact ho.symm
  | store hp hfull hr =>
    refine ha.changed (c := .nread) hr hp rfl (hl.pipe.lock_eq (by rw [hp]; rfl)) rfl
      fun ch hne hw => ?_
    cases ch with
    | nread => exact absurd rfl hne
    | nwrite =>
      rcases hw with hw | hw
      · exact absurd hw.1 hfull
      · rename_i fresh
        cases fresh
        · exact hw.elim
        · cases hw
  | readWait hp hempty hopen hr =>
    refine ha.runs hr hp rfl fun ch z hz => ?_
    cases hz
    exact .inl ⟨hempty, hopen⟩
  | take hp he hr =>
    refine ha.changed (c := .nwrite) hr hp rfl (hl.pipe.lock_eq (by rw [hp]; rfl))
      ⟨rfl, List.concat_ne_nil _ _⟩ fun ch hne hw => ?_
    cases ch with
    | nwrite => exact absurd rfl hne
    | nread =>
      rcases hw with hw | hw
      · exact absurd hw.1 he
      · cases hw.1
  | readEnd hp he hr =>
    exact ha.runs hr hp rfl nofun fun ch ho => ⟨rfl, ho.1.symm⟩
  | close hp hr =>
    rename_i writable
    refine ha.changed (c := (Call.close writable).wakes) hr hp rfl
      (hl.pipe.lock_eq (by rw [hp]; rfl)) rfl fun ch hne hw => ?_
    replace hw : s.pipe.Waits ch := hw.resolve_right nofun
    cases writable <;> cases ch
    · exact hw
    · exact absurd rfl hne
    · exact absurd rfl hne
    · exact hw
  | wakeLock hp hlock hr =>
    exact ha.runs hr hp rfl nofun fun ch ho => ⟨rfl, ho⟩
  | wakeScan hp hr => exact h.wakeScan hl hr hp
  | wakeEnd hp hr =>
    rename_i c last
    refine ha.runs hr hp rfl fun ch z hz => ?_
    cases last
    · cases hz
      exact .inl (h.turned p c _ hp)
    · cases hz
  | sleepLock hp hlock hr =>
    refine ha.runs hr hp rfl fun ch z hz => ?_
    cases hz
    exact .inr ⟨_, rfl, .inl rfl⟩
  | sleepRelease hp hr =>
    refine ha.runs hr hp rfl (fun ch z hz => ?_) nofun
      fun _ => .inr (.inr (hl.pipe.lock_eq (by rw [hp]; rfl)))
    cases hz
    exact .inr ⟨_, rfl, .inr (.inl rfl)⟩
  | sleepSet hp hr =>
    refine ha.quiet hp rfl (fun q hq hs => ?_) (fun _ => ⟨_, _, rfl, .inl rfl, update_self ..⟩)
      fun ch z hz _ => ?_
    · exact ⟨(update_of_ne hq ..).symm.trans hs, update_of_ne hq ..⟩
    · cases hz
      exact .inr ⟨_, rfl, .inr (.inr (.inl rfl))⟩
  | sched hp =>
    refine ha.quiet hp rfl (fun q hq hs => ⟨hs, rfl⟩) (fun hs => ?_) fun ch z hz _ => ?_
    · obtain ⟨ch, z, hz, -, hchan⟩ := ha.sleeping p hs
      rw [show s.sleepers.thread p = _ from hp] at hz
      cases hz
      exact ⟨_, _, rfl, .inr rfl, hchan⟩
    · cases hz
      exact .inr ⟨_, rfl, .inr (.inr (.inr (.inl rfl)))⟩
  | resume hp hlock hr =>
    refine ha.quiet hp rfl (fun q hq hs => ⟨?_, rfl⟩) (fun hs => ?_) fun ch z hz hdz => ?_
    · exact (update_of_ne hq ..).symm.trans hs
    · cases (update_self ..).symm.trans hs
    · cases hz
      rcases hdz with h | h | h | h | ⟨h, -⟩ <;> cases h
  | sleepBack hp hr =>
    refine ha.quiet hp rfl (fun q hq hs => ⟨hs, update_of_ne hq ..⟩) (fun hs => ?_)
      fun ch z hz hdz => ?_
    · cases hr.symm.trans hs
    · cases hz
      rcases hdz with h | h | h | h | ⟨h, -⟩ <;> cases h
  | rel hp hr =>
    rename_i c r
    refine ha.runs hr hp rfl (fun ch z hz => ?_) nofun
      fun _ => .inr (.inr (hl.pipe.lock_eq (by rw [hp]; rfl)))
    cases c <;> dsimp only at hz <;> first | cases hz | (split_ifs at hz <;> cases hz)
  | killWake hp hr =>
    refine ha.quiet hp rfl (fun _ _ hs => ⟨sleeping_of_kill hs, rfl⟩) fun hs => ?_
    cases hr.symm.trans (sleeping_of_kill hs)
  | run | yield =>
    refine ha.quiet rfl (update_eq_self ..).symm
      (fun q hq hs => ⟨(update_of_ne hq ..).symm.trans hs, rfl⟩) (fun hs => ?_)
      (fun ch z hz hdz => .inr ⟨z, hz, hdz.mono fun hs => ?_⟩) fun ch ho => ⟨rfl, ho⟩
    · cases (update_self ..).symm.trans hs
    · cases (update_self ..).symm.trans hs
  | readFail hp hr | readCopy hp he hr | free hp hr | killLock hp hlock hr | killMark hp hr
  | killEnd hp hr =>
    exact ha.runs hr hp rfl

/-- The step is not the early return of a `pipewrite` that has stored a byte since its last
`wakeup`: such a call does not find the pipe full while the read end is closed or the process
killed. -/
def State.careful (s : State P) : Act P → Bool
  | .go p =>
      match s.thread p with
      | .call (.write _ (_ :: _) true) .body =>
          !(decide (s.pipe.nwrite = s.pipe.nread + UInt32.ofNat PIPESIZE) &&
            (!s.pipe.readopen || s.killed p))
      | _ => true
  | _ => true

theorem careful_step {a : Act P} (hc : s.careful a = true) (h : s.step a = some (.ok s')) :
    ∀ n b rest, s.thread a.proc = .call (.write n (b :: rest) true) .body →
      s'.thread a.proc ≠ .call (.write n (b :: rest) true) (.rel (-1)) := by
  intro n b rest hp hp'
  have henter : ∀ (p : P) (t : Thread P), s.thread p = .call (.write n (b :: rest) true) .body →
      s.enter p t = none := fun p t hp => by
    rw [enter, hp]
  cases a with
  | pipewrite p m addr =>
    simp only [step] at h
    rw [henter p _ hp] at h
    split_ifs at h
    cases h
  | piperead p m | pipeclose p w | kill p q =>
    simp only [step] at h
    rw [henter p _ hp] at h
    cases h
  | go p =>
    replace hp : s.thread p = .call (.write n (b :: rest) true) .body := hp
    replace hp' : s'.thread p = .call (.write n (b :: rest) true) (.rel (-1)) := hp'
    simp only [careful, hp, Bool.not_eq_true', Bool.and_eq_false_iff, decide_eq_false_iff_not,
      Bool.or_eq_false_iff, Bool.not_eq_false'] at hc
    simp only [step, hp] at h
    rw [ite_none_right_eq_some] at h
    obtain ⟨-, h⟩ := h
    split at h
    · cases h
    obtain rfl : s.body p (.write n (b :: rest) true) = s' := by
      simpa only [goCall, map_some, some.injEq, Except.ok.injEq] using h
    simp only [body] at hp'
    split_ifs at hp' with hfull hk
    · rcases hc with hc | ⟨ho, hkill⟩
      · exact hc hfull
      · rw [ho, hkill] at hk
        simp at hk
    · cases (update_self ..).symm.trans hp'
    · cases (update_self ..).symm.trans hp'
  | sched p =>
    replace hp : s.thread p = .call (.write n (b :: rest) true) .body := hp
    simp only [step, hp] at h
    cases h
  | schedule p =>
    replace hp : s.thread p = .call (.write n (b :: rest) true) .body := hp
    simp only [step, hp] at h
    split_ifs at h
    cases h
    cases hp.symm.trans hp'
  | yield p =>
    simp only [step] at h
    split_ifs at h
    cases h
    cases hp.symm.trans hp'

/-- The invariants hold in every state reached by careful steps. -/
theorem awake_of_reaches {data : Fin PIPESIZE → UInt8}
    (h : Reaches (only State.step State.careful) (State.init data) s) : Locks s ∧ Awake s := by
  refine h.inv (I := fun s => Locks s ∧ Awake s) (fun s a s' hs hstep => ?_)
    ⟨locks_init data, awake_init data⟩
  obtain ⟨hc, hstep⟩ := only_eq_some.1 hstep
  have hm := moves_step hstep
  exact ⟨hs.1.step hm, hs.2.step hs.1 hm (careful_step hc hstep)⟩

/-- **No sleeper is forgotten**, in the runs in which no `pipewrite` takes its early return after
it has stored a byte since its last `wakeup`.  While `p->lock` is free, a process that sleeps on
`&p->nread` has nothing to read and the write end is open, and a process that sleeps on
`&p->nwrite` has no room to write and the read end is open. -/
theorem no_sleeper_forgotten (data : Fin PIPESIZE → UInt8) (s : State P)
    (h : Reaches (only State.step State.careful) (State.init data) s) (hfree : s.lock = none)
    (p : P) (hp : s.state p = .SLEEPING) :
    (s.chan p = some .nread → s.pipe.nread = s.pipe.nwrite ∧ s.pipe.writeopen = true) ∧
    (s.chan p = some .nwrite →
      s.pipe.nwrite = s.pipe.nread + UInt32.ofNat PIPESIZE ∧ s.pipe.readopen = true) := by
  obtain ⟨-, ha⟩ := awake_of_reaches h
  refine ⟨fun hch => ?_, fun hch => ?_⟩
  · obtain ⟨hcount, hopen⟩ := ha.sleepers.waits hp hch hfree
    exact ⟨s.pipe.toRing.count_eq_zero.1 hcount, hopen⟩
  · obtain ⟨hcount, hopen⟩ := ha.sleepers.waits hp hch hfree
    exact ⟨(full_iff _).2 hcount, hopen⟩

local instance neZero_three : NeZero 3 := ⟨by decide⟩

/-- Process 0 sleeps in `piperead`. -/
def readerSleeps : List (Act (Fin 3)) :=
  [.schedule 0, .piperead 0 1] ++ List.replicate 5 (.go 0) ++ [.sched 0]

/-- The hypotheses of `no_sleeper_forgotten` are satisfiable: a reader sleeps on an empty pipe. -/
theorem no_sleeper_forgotten_reader :
    ∃ s : State (Fin 3), Reaches (only State.step State.careful) (State.init fun _ => 0) s ∧
      s.lock = none ∧ s.state 0 = .SLEEPING ∧ s.chan 0 = some .nread ∧
        s.pipe.nread = s.pipe.nwrite := by
  have hrun : Leads (only step careful) (init (fun _ => 0) : State (Fin 3)) readerSleeps fun s =>
      s.lock = none ∧ s.state 0 = .SLEEPING ∧ s.chan 0 = some .nread := by decide +kernel
  obtain ⟨s, h, hl, hst, hch⟩ := hrun.reaches
  exact ⟨s, h, hl, hst, hch, ((no_sleeper_forgotten _ s h hl 0 hst).1 hch).1⟩

/-- **A reader is forgotten.**  While process 0 sleeps in `piperead`, process 1 begins to write
513 bytes and process 2 kills it.  Process 1 fills the pipe, finds it full and returns -1: process
0 goes on sleeping on `&p->nread`, with 512 bytes to read. -/
theorem reader_forgotten :
    ∃ s : State (Fin 3), Reaches State.step (State.init fun _ => 0) s ∧ s.lock = none ∧
      s.ptable = none ∧ s.state 0 = .SLEEPING ∧ s.chan 0 = some .nread ∧
        (s.pipe.nwrite - s.pipe.nread).toNat = 512 := by
  have hrun : Leads step (init (fun _ => 0) : State (Fin 3))
      (readerSleeps ++ [.schedule 1, .schedule 2, .pipewrite 1 513 (List.replicate 513 0),
        .kill 2 1] ++ List.replicate 4 (.go 2) ++ List.replicate 515 (.go 1)) fun s =>
      s.lock = none ∧ s.ptable = none ∧ s.state 0 = .SLEEPING ∧ s.chan 0 = some .nread ∧
        (s.pipe.nwrite - s.pipe.nread).toNat = 512 := by decide +kernel
  exact hrun.reaches

end Xv6.Pipes
