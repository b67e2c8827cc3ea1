/-
# A pipe delivers a byte stream

What `pipe.c` does to the bytes, over every run of `Xv6.Pipe.Calls`: any number of readers
and writers, each interrupted wherever it does not hold `p->lock`, and counters that wrap.
`Stream` says that the bytes stored are the bytes returned, those that the reader with the
lock has copied, and those in the ring, in this order.  `pipe_stream` is the result for
every reachable state.
-/

import Xv6.Pipe.Calls

namespace Xv6.Pipes

open Function Lib List State
open Ptable (ProcState)

variable {P : Type}

/-- The bytes that the thread has copied in `piperead`. -/
def Thread.got : Thread P → List UInt8
  | call c _ => c.got
  | _ => []

/-- The bytes that the `piperead` with the lock has copied so far. -/
def State.taken (s : State P) : List UInt8 :=
  match s.lock with
  | some p => (s.thread p).got
  | none => []

/-- What holds in `piperead` at each point. -/
def ReadOk (r : Pipe) (n : ℤ) (got : List UInt8) : Point → Prop
  | .copy => got = [] → r.count ≠ 0 ∨ r.writeopen = false
  | .wake last _ => last = true ∧ (got = [] → 0 < n → r.count = 0 ∧ r.writeopen = false)
  | .rel v => v = -1 ∧ got = [] ∨
      v = got.length ∧ (got = [] → 0 < n → r.count = 0 ∧ r.writeopen = false)
  | _ => got = []

/-- **The invariant of the stream.** -/
structure Stream (s : State P) : Prop where
  room : s.pipe.count ≤ PIPESIZE
  stream : s.stored = s.returned ++ s.taken ++ s.pipe.items
  read : ∀ p n got a, s.thread p = .call (.read n got) a → ReadOk s.pipe n got a

variable {s s' : State P} {p : P} {c : Call} {t : Thread P}

theorem stream_init (data : Fin PIPESIZE → UInt8) : Stream (State.init data : State P) := by
  have hzero : (init data : State P).pipe.count = 0 := by
    change ((0 : UInt32) - 0).toNat = 0
    decide
  refine ⟨by rw [hzero]; decide, ?_, nofun⟩
  rw [Ring.items, hzero]
  rfl

/-- Without the lock, nothing has been copied and the pipe does not matter. -/
theorem ReadOk.of_not_holds {r r' : Pipe} {n : ℤ} {got : List UInt8} {a : Point}
    (ha : a.holds = false) (h : ReadOk r n got a) : ReadOk r' n got a := by
  cases a with
  | copy => cases ha
  | wake last w => cases ha
  | rel v => cases ha
  | _ => exact h

theorem taken_of_lock (h : s.lock = some p) : s.taken = (s.thread p).got := by
  rw [taken, h]

variable [DecidableEq P]

/-- **A step of process `p`**, which changes the pipe only if it has the lock. -/
theorem Stream.moved (hl : Locks s) (h : Stream s) (hth : s'.thread = update s.thread p t)
    (hpipe : s'.pipe = s.pipe ∨ s.lock = some p) (hroom : s'.pipe.count ≤ PIPESIZE)
    (hstream : s'.stored = s'.returned ++ s'.taken ++ s'.pipe.items)
    (hread : ∀ n got a, t = .call (.read n got) a → ReadOk s'.pipe n got a) : Stream s' := by
  refine ⟨hroom, hstream, fun q n got a hq => ?_⟩
  rw [hth] at hq
  by_cases hqp : q = p
  · rw [hqp, update_self] at hq
    exact hread n got a hq
  · rw [update_of_ne hqp] at hq
    have hq' := h.read q n got a hq
    rcases hpipe with hpipe | hlock
    · rw [hpipe]
      exact hq'
    · have := hl.pipe.eq_false hlock hqp
      rw [hq] at this
      exact hq'.of_not_holds this

/-- A step of the process that has the lock and keeps it. -/
theorem Stream.holder (hl : Locks s) (h : Stream s) (hlock : s.lock = some p)
    (hth : s'.thread = update s.thread p t) (hlock' : s'.lock = some p)
    (hroom : s'.pipe.count ≤ PIPESIZE) (hstream : s'.stored = s'.returned ++ t.got ++ s'.pipe.items)
    (hread : ∀ n got a, t = .call (.read n got) a → ReadOk s'.pipe n got a) : Stream s' := by
  refine h.moved hl hth (.inr hlock) hroom ?_ hread
  rw [taken_of_lock hlock', hth, update_self]
  exact hstream

/-- A step that moves no byte. -/
theorem Stream.quiet (hl : Locks s) (h : Stream s) (hth : s'.thread = update s.thread p t)
    (hpipe : s'.pipe = s.pipe) (hst : s'.stored = s.stored) (hre : s'.returned = s.returned)
    (hlock : s'.lock = s.lock ∧ t.got = (s.thread p).got ∨
      s.lock = none ∧ s'.lock = some p ∧ t.got = [] ∨
      s.lock = some p ∧ s'.lock = none ∧ (s.thread p).got = [])
    (hread : ∀ n got a, t = .call (.read n got) a → ReadOk s.pipe n got a) : Stream s' := by
  have htaken : s'.taken = s.taken := by
    rcases hlock with ⟨h1, h2⟩ | ⟨h1, h2, h3⟩ | ⟨h1, h2, h3⟩
    · rw [taken, taken, h1]
      split
      · rename_i q hq
        rw [hth]
        by_cases hqp : q = p
        · rw [hqp, update_self, h2]
        · rw [update_of_ne hqp]
      · rfl
    · rw [taken_of_lock h2, hth, update_self, h3, taken, h1]
    · rw [taken_of_lock h1, h3, taken, h2]
  refine h.moved hl hth (.inl hpipe) (by rw [hpipe]; exact h.room) ?_ (by rwa [hpipe])
  rw [hst, hre, htaken, hpipe]
  exact h.stream

theorem Call.woke_got (c : Call) : c.woke.got = c.got := by
  cases c <;> rfl

variable (hl : Locks s) (h : Stream s)

include hl h

/-- A step in a call other than `piperead` that moves no byte and keeps the lock. -/
theorem Stream.other (hth : s'.thread = update s.thread p t) (hpipe : s'.pipe = s.pipe)
    (hst : s'.stored = s.stored) (hre : s'.returned = s.returned) (hlock : s'.lock = s.lock)
    (hgot : t.got = (s.thread p).got) (ht : ∀ n got a, t ≠ .call (.read n got) a) : Stream s' :=
  h.quiet hl hth hpipe hst hre (.inl ⟨hlock, hgot⟩) fun n got a hc => absurd hc (ht n got a)

/-- `piperead` moves on to a point where the same holds. -/
theorem Stream.along {a a' : Point} {c' : Call}
    (hth : s'.thread = update s.thread p (.call c' a')) (hpipe : s'.pipe = s.pipe)
    (hst : s'.stored = s.stored) (hre : s'.returned = s.returned) (hlock : s'.lock = s.lock)
    (hp : s.thread p = .call c a) (hc : c'.got = c.got)
    (hread : ∀ n got, c' = .read n got → c = .read n got ∧
      (ReadOk s.pipe n got a → ReadOk s.pipe n got a')) : Stream s' := by
  refine h.quiet hl hth hpipe hst hre (.inl ⟨hlock, ?_⟩) fun n got a'' he => ?_
  · rw [hp]
    exact hc
  · obtain ⟨rfl, rfl⟩ := Thread.call.inj he
    obtain ⟨rfl, himp⟩ := hread n got rfl
    exact himp (h.read p n got a hp)

/-- `pipewrite` stores a byte. -/
theorem Stream.store {n : ℤ} {b : UInt8} {rest : List UInt8} {fresh : Bool}
    (hp : s.thread p = .call (.write n (b :: rest) fresh) .body) (hfull : s.pipe.count ≠ PIPESIZE) :
    Stream { s.at_ p (.write n rest true) .body with
      pipe := { s.pipe with toRing := s.pipe.toRing.push b }
      stored := s.stored ++ [b] } := by
  have hlock : s.lock = some p := hl.pipe.lock_eq (by rw [hp]; rfl)
  have hroom : s.pipe.count < PIPESIZE := lt_of_le_of_ne h.room hfull
  refine h.holder hl hlock rfl hlock ?_ ?_ nofun
  · change (s.pipe.toRing.push b).count ≤ PIPESIZE
    rw [Ring.count_push _ b hroom (by decide)]
    exact hroom
  · change s.stored ++ [b] = s.returned ++ [] ++ (s.pipe.toRing.push b).items
    rw [Ring.items_push _ b hroom (by decide) (by decide), h.stream, taken_of_lock hlock, hp]
    simp only [Thread.got, Call.got, append_nil, append_assoc]

/-- `piperead` takes a byte. -/
theorem Stream.take {n : ℤ} {got : List UInt8}
    (hp : s.thread p = .call (.read n got) .copy) (he : s.pipe.count ≠ 0) :
    Stream { s.at_ p (.read n (got ++ [s.pipe.front])) .copy with
      pipe := { s.pipe with toRing := s.pipe.toRing.pop } } := by
  have hlock : s.lock = some p := hl.pipe.lock_eq (by rw [hp]; rfl)
  have hcount := s.pipe.toRing.count_pop he
  refine h.holder hl hlock rfl hlock ?_ ?_ fun n' got' a hc => ?_
  · have := h.room
    change s.pipe.toRing.pop.count ≤ PIPESIZE
    omega
  · change s.stored = s.returned ++ (got ++ [s.pipe.front]) ++ s.pipe.toRing.pop.items
    rw [h.stream, taken_of_lock hlock, hp, s.pipe.toRing.items_pop he]
    simp only [Thread.got, Call.got, append_assoc, singleton_append]
  · cases hc
    intro hnil
    simp at hnil

/-- A call returns and releases the lock. -/
theorem Stream.rel {v : ℤ} (hp : s.thread p = .call c (.rel v)) : Stream (s.rel p c) := by
  have hlock : s.lock = some p := hl.pipe.lock_eq (by rw [hp]; rfl)
  refine h.moved hl rfl (.inl rfl) h.room ?_ fun n got a hc => ?_
  · change s.stored = s.returned ++ c.got ++ [] ++ s.pipe.items
    rw [h.stream, taken_of_lock hlock, hp, append_nil]
    rfl
  · cases c with
    | close w =>
      dsimp only at hc
      split_ifs at hc
      cases hc
    | _ => cases hc

/-- **Every step keeps the stream.** -/
theorem Stream.step (hm : Moves s p s') : Stream s' := by
  cases hm with
  | enter hp hr ht =>
    refine h.quiet hl rfl rfl rfl rfl (.inl ⟨rfl, ?_⟩) fun n got a hc => ?_
    · rw [hp]
      cases ht <;> rfl
    · cases ht with
      | piperead =>
        cases hc
        rfl
      | _ => cases hc
  | lock hp ha hlock hr =>
    rename_i c a
    have hgot : ∀ n got, c = .read n got → got = [] := fun n got hc => by
      have := h.read p n got a (by rw [hp, hc])
      rcases ha with rfl | rfl <;> exact this
    refine h.quiet hl rfl rfl rfl rfl (.inr (.inl ⟨hlock, rfl, ?_⟩)) fun n got a hc => ?_
    · cases c with
      | read n got => exact hgot n got rfl
      | _ => rfl
    · obtain ⟨rfl, rfl⟩ := Thread.call.inj hc
      exact hgot n got rfl
  | store hp hfull hr => exact h.store hl hp hfull
  | readFail hp hr =>
    exact h.along hl rfl rfl rfl rfl rfl hp rfl fun n got hc => ⟨hc, fun hg => .inl ⟨rfl, hg⟩⟩
  | readCopy hp he hr =>
    exact h.along hl rfl rfl rfl rfl rfl hp rfl fun n got hc => ⟨hc, fun _ _ => he⟩
  | take hp he hr => exact h.take hl hp he
  | readEnd hp he hr =>
    refine h.along hl rfl rfl rfl rfl rfl hp rfl fun n got hc =>
      ⟨hc, fun hg => ⟨rfl, fun hnil hn => ?_⟩⟩
    cases hc
    have hzero := he (by rw [hnil]; exact hn)
    exact ⟨hzero, (hg hnil).resolve_left fun hc => hc hzero⟩
  | close hp hr =>
    rename_i writable
    have hlock : s.lock = some p := hl.pipe.lock_eq (by rw [hp]; rfl)
    have hring : (if writable then { s.pipe with writeopen := false }
        else { s.pipe with readopen := false } : Pipe).toRing = s.pipe.toRing := by
      split_ifs <;> rfl
    refine h.holder hl hlock rfl hlock ?_ ?_ nofun
    · dsimp only
      rw [hring]
      exact h.room
    · dsimp only
      rw [hring]
      change s.stored = s.returned ++ [] ++ s.pipe.items
      rw [h.stream, taken_of_lock hlock, hp]
      rfl
  | wakeScan hp hr =>
    rename_i c last
    refine h.along hl rfl rfl rfl rfl rfl hp c.woke_got fun n got hc => ?_
    cases c <;> cases hc
    exact ⟨rfl, id⟩
  | wakeEnd hp hr =>
    rename_i c last
    refine h.along hl rfl rfl rfl rfl rfl hp rfl fun n got hc => ⟨hc, fun hg => ?_⟩
    obtain ⟨rfl, hg⟩ := hg
    rw [hc]
    exact .inr ⟨rfl, hg⟩
  | sleepRelease hp hr =>
    rename_i c
    have hlock : s.lock = some p := hl.pipe.lock_eq (by rw [hp]; rfl)
    refine h.quiet hl rfl rfl rfl rfl (.inr (.inr ⟨hlock, rfl, ?_⟩)) fun n got a hc => ?_
    · rw [hp]
      cases c with
      | read n got => exact h.read p n got _ hp
      | _ => rfl
    · obtain ⟨rfl, rfl⟩ := Thread.call.inj hc
      exact h.read p n got (.sleep .release) hp
  | rel hp hr => exact h.rel hl hp
  | free hp hr =>
    rename_i c
    refine h.other hl rfl rfl rfl rfl rfl ?_ nofun
    rw [hp]
    cases c with
    | read n got => exact (h.read p n got _ hp).symm
    | _ => rfl
  | run hr hlock hp => exact ⟨h.room, h.stream, h.read⟩
  | yield hr => exact ⟨h.room, h.stream, h.read⟩
  | writeEnd hp | writeFail hp | writeFull hp | killLock hp | killMark hp | killWake hp
  | killEnd hp =>
    exact h.other hl rfl rfl rfl rfl rfl (by rw [hp]; rfl) nofun
  | _ hp => exact h.along hl rfl rfl rfl rfl rfl hp rfl fun n got hc => ⟨hc, fun hg => hg⟩

omit hl h

theorem stream_of_reaches {data : Fin PIPESIZE → UInt8}
    (h : Reaches State.step (State.init data) s) : Locks s ∧ Stream s := by
  refine h.inv (I := fun s => Locks s ∧ Stream s) (fun s a s' hs hstep => ?_)
    ⟨locks_init data, stream_init data⟩
  have hm := moves_step hstep
  exact ⟨hs.1.step hm, hs.2.step hs.1 hm⟩

/-- **A pipe delivers a byte stream.**  In every run, the bytes that `piperead` has returned are
the first of the bytes that `pipewrite` has stored.  What is unread, past the bytes that a
`piperead` with the lock has already copied, is `nwrite - nread` bytes modulo `2^32`, at most
`PIPESIZE`, and is what the ring holds from `nread` on.  A `piperead` of `n > 0` bytes is about
to return 0 only if the pipe is empty and its write end closed. -/
theorem pipe_stream (data : Fin PIPESIZE → UInt8) (s : State P)
    (h : Reaches State.step (State.init data) s) :
    s.returned <+: s.stored ∧
    (∃ unread, s.stored = s.returned ++ s.taken ++ unread ∧
      unread.length = (s.pipe.nwrite - s.pipe.nread).toNat ∧ unread.length ≤ PIPESIZE ∧
      ∀ j (hj : j < unread.length),
        unread[j] = s.pipe.data (Ring.place (s.pipe.nread + UInt32.ofNat j))) ∧
    ∀ p n got, s.thread p = .call (.read n got) (.rel 0) → 0 < n →
      s.pipe.nread = s.pipe.nwrite ∧ s.pipe.writeopen = false := by
  obtain ⟨-, hs⟩ := stream_of_reaches h
  have hlen : s.pipe.items.length = s.pipe.count := s.pipe.toRing.length_items
  refine ⟨?_, ⟨s.pipe.items, hs.stream, hlen, by rw [hlen]; exact hs.room, fun j hj => ?_⟩, ?_⟩
  · rw [hs.stream, append_assoc]
    exact prefix_append _ _
  · simp only [Ring.items, getElem_map, getElem_range]
  · intro p n got hp hn
    rcases hs.read p n got _ hp with ⟨hv, -⟩ | ⟨hv, hg⟩
    · cases hv
    · obtain ⟨he, hw⟩ := hg (length_eq_zero_iff.1 (by omega)) hn
      exact ⟨s.pipe.toRing.count_eq_zero.1 he, hw⟩

/-- The hypotheses of `pipe_stream` are satisfiable: a process writes two bytes and reads one. -/
theorem pipe_stream_two :
    ∃ s : State (Fin 1), Reaches State.step (State.init fun _ => 0) s ∧ s.stored = [7, 8] ∧
      s.returned = [7] ∧ s.returned <+: s.stored := by
  have hrun : Leads step (init (fun _ => 0) : State (Fin 1))
      ([.schedule 0, .pipewrite 0 2 [7, 8]] ++ replicate 8 (.go 0) ++ [.piperead 0 1] ++
        replicate 8 (.go 0)) fun s => s.stored = [7, 8] ∧ s.returned = [7] := by decide +kernel
  obtain ⟨s, h, hst, hre⟩ := hrun.reaches
  exact ⟨s, h, hst, hre, (pipe_stream _ s h).1⟩

end Xv6.Pipes
