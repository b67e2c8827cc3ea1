/-
# Console input

`consoleintr` and `consoleread` of `console.c`, as they run in any number of threads at once:
processes that read, and interrupt handlers. A step is one access to `input` under `cons.lock`, or a
change of the lock. `sleep` gives the lock up, and the reader tries again after any time.

The three counters of `input` are 32-bit numbers that wrap around. In `consoleread` the model keeps
the count that was asked for and the bytes stored in `dst`, so that the source's `n` is their
difference. The characters, the calls, the bytes taken out of the buffer and the returns are kept as
history.

Left out are the echo on the screen and `procdump`.
-/
import Xv6.Lib.Lock
import Xv6.Lib.Ring
import Xv6.Lib.Run

namespace Xv6.Console

open Function Lib UInt32

/-- `INPUT_BUF`. -/
abbrev INPUT_BUF : ℕ := 128

/-- `C('P')`: the list of processes. -/
def CTRL_P : UInt8 := 16

/-- `C('U')`: kill the line. -/
def CTRL_U : UInt8 := 21

/-- `C('H')`: backspace. -/
def CTRL_H : UInt8 := 8

/-- `'\x7f'`: backspace. -/
def DEL : UInt8 := 127

/-- `C('D')`: the end of the file. -/
def CTRL_D : UInt8 := 4

/-- Newline. -/
def NL : UInt8 := 10

/-- Carriage return. -/
def CR : UInt8 := 13

/-- `input`. -/
structure Input where
  buf : Fin INPUT_BUF → UInt8
  /-- The read index. -/
  r : UInt32
  /-- The write index. -/
  w : UInt32
  /-- The edit index. -/
  e : UInt32

namespace Input

/-- The loop that kills the line. -/
def killLine (i : Input) : Input :=
  if i.e ≠ i.w ∧ i.buf (Ring.place (i.e - 1)) ≠ NL then killLine { i with e := i.e - 1 } else i
termination_by (i.e - i.w).toNat
decreasing_by
  have hne : i.e ≠ i.w := by
    have h : i.e ≠ i.w ∧ i.buf (Ring.place (i.e - 1)) ≠ NL := by assumption
    exact h.1
  have hsub : i.e - 1 - i.w = i.e - i.w - 1 := by grind
  have hpos : (i.e - i.w).toNat ≠ 0 := fun h0 => hne (by
    have h0 : i.e - i.w = 0 := UInt32.toNat_inj.1 h0
    grind)
  show (i.e - 1 - i.w).toNat < (i.e - i.w).toNat
  rw [hsub, UInt32.toNat_sub_of_le _ _ (by
    rw [le_iff_toNat_le, toNat_one]
    omega), toNat_one]
  omega

/-- `input.buf[input.e++ % INPUT_BUF] = c`, and `input.w = input.e` at the end of a line. -/
def append (i : Input) (c : UInt8) : Input :=
  let i := { i with buf := update i.buf (Ring.place i.e) c, e := i.e + 1 }
  if c = NL ∨ c = CTRL_D ∨ i.e = i.r + ofNat INPUT_BUF then { i with w := i.e } else i

/-- The switch of `consoleintr` on the character `c`. -/
def intr (i : Input) (c : UInt8) : Input :=
  if c = CTRL_P then i
  else if c = CTRL_U then i.killLine
  else if c = CTRL_H ∨ c = DEL then if i.e ≠ i.w then { i with e := i.e - 1 } else i
  else if c ≠ 0 ∧ i.e - i.r < ofNat INPUT_BUF then i.append (if c = CR then NL else c)
  else i

end Input

/-- Where `consoleread` is. -/
inductive Point where
  /-- Before `acquire(&cons.lock)`. -/
  | start
  /-- At the tests of the loops. -/
  | loop
  /-- In `sleep`. -/
  | asleep
  /-- Before `input.r--`. -/
  | eof
  /-- Before `release(&cons.lock)` and the return. -/
  | rel
deriving DecidableEq

/-- What a thread does. In `consoleread`, `n` bytes were asked for and `got` are the bytes in
`dst`. -/
inductive Thread where
  | out
  | read (n : ℤ) (got : List UInt8) (a : Point)
  /-- In `consoleintr`, before `acquire(&cons.lock)`. -/
  | intrStart
  /-- In `consoleintr`, before `getc`. -/
  | intr
deriving DecidableEq

/-- What is seen of a run. -/
inductive Event (P : Type) where
  /-- A handler has handled the character `c`. -/
  | key (c : UInt8)
  /-- `p` has called `consoleread` for `n` bytes. -/
  | call (p : P) (n : ℤ)
  /-- The read of `p` has taken `c` out of the buffer. -/
  | took (p : P) (c : UInt8)
  /-- The read of `p` for `n` bytes ends with a result, and with the bytes `dst` stored. -/
  | ret (p : P) (n result : ℤ) (dst : List UInt8)
  /-- `p` is killed. -/
  | kill (p : P)
deriving DecidableEq

/-- `input`, `cons.lock`, and what every thread does. `log` is the history. -/
structure State (P : Type) where
  input : Input
  lock : Option P
  killed : P → Bool
  thread : P → Thread
  log : List (Event P)

/-- A step: a call, a step of a thread, a character or the end of the characters for a handler, or
`kill`. -/
inductive Act (P : Type) where
  | consoleread (p : P) (n : ℤ)
  | consoleintr (p : P)
  | go (p : P)
  | getc (p : P) (c : Option UInt8)
  | kill (p : P)

/-- The thread holds `cons.lock`. -/
def Thread.holds : Thread → Bool
  | read _ _ .loop | read _ _ .eof | read _ _ .rel | intr => true
  | _ => false

variable {P : Type} [DecidableEq P]

namespace State

/-- `input` as it is at boot; no thread is in a call. -/
def init : State P where
  input := ⟨fun _ => 0, 0, 0, 0⟩
  lock := none
  killed _ := false
  thread _ := .out
  log := []

variable (s : State P)

/-- Thread `p` goes on as `t`. -/
def goto (p : P) (t : Thread) : State P := { s with thread := update s.thread p t }

/-- Thread `p` goes on as `t`, with `cons.lock`. -/
def acquire (p : P) (t : Thread) : Option (State P) :=
  if s.lock = none then some { s.goto p t with lock := some p } else none

/-- The read of thread `p` ends with the result `r`. -/
def finish (p : P) (n : ℤ) (got : List UInt8) (r : ℤ) : State P :=
  { s.goto p (.read n got .rel) with log := s.log ++ [.ret p n r got] }

/-- `c = input.buf[input.r++ % INPUT_BUF]`, and what follows it. -/
def take (p : P) (n : ℤ) (got : List UInt8) : State P :=
  let c := s.input.buf (Ring.place s.input.r)
  let s₁ : State P := { s with input := { s.input with r := s.input.r + 1 } }
  let s₂ : State P := { s₁ with log := s.log ++ [.took p c] }
  if c = CTRL_D then
    if got ≠ [] then s₁.goto p (.read n got .eof) else s₂.finish p n got got.length
  else
    let got := got ++ [c]
    if c = NL then s₂.finish p n got got.length else s₂.goto p (.read n got .loop)

/-- A step of `consoleread`. -/
def goRead (p : P) (n : ℤ) (got : List UInt8) : Point → Option (State P)
  | .start => s.acquire p (.read n got .loop)
  | .loop =>
      if (got.length : ℤ) < n then
        if s.input.r = s.input.w then
          if s.killed p then some (s.finish p n got (-1))
          else some { s.goto p (.read n got .asleep) with lock := none }
        else some (s.take p n got)
      else some (s.finish p n got got.length)
  | .asleep => s.acquire p (.read n got .loop)
  | .eof =>
      some { s.finish p n got got.length with input := { s.input with r := s.input.r - 1 } }
  | .rel => some { s.goto p .out with lock := none }

/-- A thread that is not in a call begins one. -/
def enter (p : P) (t : Thread) : Option (State P) :=
  if s.thread p = .out then some (s.goto p t) else none

/-- A step of a thread that needs no character. -/
def go (p : P) : Option (State P) :=
  match s.thread p with
  | .read n got a => s.goRead p n got a
  | .intrStart => s.acquire p .intr
  | _ => none

/-- The effect of a step: `none` where it cannot be made. -/
def step : Act P → Option (Except Empty (State P))
  | .consoleread p n =>
      (({ s with log := s.log ++ [.call p n] } : State P).enter p (.read n [] .start)).map .ok
  | .consoleintr p => (s.enter p .intrStart).map .ok
  | .go p => (s.go p).map .ok
  | .getc p c =>
      if s.thread p = .intr then
        match c with
        | some c => some (.ok { s with input := s.input.intr c, log := s.log ++ [.key c] })
        | none => some (.ok { s.goto p .out with lock := none })
      else none
  | .kill p =>
      some (.ok { s with
        killed := update s.killed p true
        log := s.log ++ [.kill p] })

end State

/-! ## What a step does -/

/-- A step of thread `p` that leaves `input` and the history alone. -/
inductive Quiet (s : State P) (p : P) : Thread → Option P → Prop where
  | consoleintr (hp : s.thread p = .out) : Quiet s p .intrStart s.lock
  | lock {n : ℤ} {got : List UInt8} {a : Point} (hp : s.thread p = .read n got a)
      (ha : a = .start ∨ a = .asleep) (hl : s.lock = none) :
      Quiet s p (.read n got .loop) (some p)
  | intrLock (hp : s.thread p = .intrStart) (hl : s.lock = none) : Quiet s p .intr (some p)
  | sleep {n : ℤ} {got : List UInt8} (hp : s.thread p = .read n got .loop) :
      Quiet s p (.read n got .asleep) none
  | rel {n : ℤ} {got : List UInt8} (hp : s.thread p = .read n got .rel) : Quiet s p .out none
  | intrEnd (hp : s.thread p = .intr) : Quiet s p .out none

/-- **The steps**, with the tests that lead to each. -/
inductive Moves (s : State P) : State P → Prop where
  | quiet {p : P} {t : Thread} {l : Option P} (h : Quiet s p t l) :
      Moves s { s.goto p t with lock := l }
  | call {p : P} {n : ℤ} (hp : s.thread p = .out) :
      Moves s { s.goto p (.read n [] .start) with log := s.log ++ [.call p n] }
  | killed {p : P} {n : ℤ} {got : List UInt8} (hp : s.thread p = .read n got .loop)
      (hn : (got.length : ℤ) < n) (hr : s.input.r = s.input.w) (hk : s.killed p = true) :
      Moves s (s.finish p n got (-1))
  | full {p : P} {n : ℤ} {got : List UInt8} (hp : s.thread p = .read n got .loop)
      (hn : n ≤ got.length) : Moves s (s.finish p n got got.length)
  | take {p : P} {n : ℤ} {got : List UInt8} (hp : s.thread p = .read n got .loop)
      (hn : (got.length : ℤ) < n) (hr : s.input.r ≠ s.input.w) : Moves s (s.take p n got)
  | eof {p : P} {n : ℤ} {got : List UInt8} (hp : s.thread p = .read n got .eof) :
      Moves s { s.finish p n got got.length with
        input := { s.input with r := s.input.r - 1 } }
  | char {p : P} {c : UInt8} (hp : s.thread p = .intr) :
      Moves s { s with input := s.input.intr c, log := s.log ++ [.key c] }
  | kill {p : P} :
      Moves s { s with killed := update s.killed p true, log := s.log ++ [.kill p] }

variable {s s' : State P} {p : P}

theorem enter_eq {t : Thread}
    (h : (s.enter p t).map Except.ok = some (.ok s' : Except Empty (State P))) :
    s.thread p = .out ∧ s' = s.goto p t := by
  obtain ⟨s1, hs, he⟩ := Option.map_eq_some_iff.1 h
  cases he
  unfold State.enter at hs
  split_ifs at hs with hp
  cases hs
  exact ⟨hp, rfl⟩

theorem moves_acquire {t : Thread} (hq : s.lock = none → Quiet s p t (some p))
    (h : s.acquire p t = some s') : Moves s s' := by
  unfold State.acquire at h
  split_ifs at h with hl
  cases h
  exact .quiet (hq hl)

theorem moves_goRead {n : ℤ} {got : List UInt8} {a : Point} (hp : s.thread p = .read n got a)
    (h : s.goRead p n got a = some s') : Moves s s' := by
  cases a with
  | start => exact moves_acquire (.lock hp (.inl rfl)) h
  | asleep => exact moves_acquire (.lock hp (.inr rfl)) h
  | loop =>
    simp only [State.goRead] at h
    split_ifs at h with hn hr hk
    · cases h
      exact .killed hp hn hr hk
    · cases h
      exact .quiet (.sleep hp)
    · cases h
      exact .take hp hn hr
    · cases h
      exact .full hp (by omega)
  | eof =>
    cases h
    exact .eof hp
  | rel =>
    cases h
    exact .quiet (.rel hp)

/-- **Every step is one of `Moves`.** -/
theorem moves_step {a : Act P} (h : s.step a = some (.ok s')) : Moves s s' := by
  cases a with
  | consoleread p n =>
    obtain ⟨hp, rfl⟩ := enter_eq h
    exact .call hp
  | consoleintr p =>
    obtain ⟨hp, rfl⟩ := enter_eq h
    exact .quiet (.consoleintr hp)
  | go p =>
    obtain ⟨s1, hs, he⟩ := Option.map_eq_some_iff.1 h
    cases he
    unfold State.go at hs
    cases hp : s.thread p with
    | out =>
      rw [hp] at hs
      cases hs
    | read n got a =>
      rw [hp] at hs
      exact moves_goRead hp hs
    | intrStart =>
      rw [hp] at hs
      exact moves_acquire (.intrLock hp) hs
    | intr =>
      rw [hp] at hs
      cases hs
  | getc p c =>
    simp only [State.step] at h
    split_ifs at h with hp
    cases c with
    | none =>
      cases h
      exact .quiet (.intrEnd hp)
    | some c =>
      cases h
      exact .char hp
  | kill p =>
    cases h
    exact .kill

/-! ## Who holds the lock -/

/-- **`cons.lock` is held where the code says.** -/
def Locks (s : State P) : Prop := Held Thread.holds s.thread s.lock

omit [DecidableEq P] in
theorem locks_init : Locks (State.init : State P) := fun _ =>
  ⟨fun h => (by cases h), nofun⟩

theorem Locks.take (h : Locks s) {n : ℤ} {got : List UInt8} (hp : s.thread p = .read n got .loop) :
    Locks (s.take p n got) := by
  have hkeep : ∀ t : Thread, t.holds = true → Held Thread.holds (update s.thread p t) s.lock :=
    fun t ht => Held.keep h (by rw [hp, ht]; rfl)
  unfold State.take
  dsimp only
  split_ifs <;> exact hkeep _ rfl

theorem Locks.step (h : Locks s) (hm : Moves s s') : Locks s' := by
  cases hm with
  | quiet hq =>
    cases hq with
    | consoleintr hp => exact Held.keep h (by rw [hp]; rfl)
    | lock hp ha hl => exact Held.acquire h hl rfl
    | intrLock hp hl => exact Held.acquire h hl rfl
    | sleep hp | rel hp | intrEnd hp => exact Held.release h (by rw [hp]; rfl) rfl
  | call hp | killed hp | full hp | eof hp => exact Held.keep h (by rw [hp]; rfl)
  | take hp => exact h.take hp
  | char hp => exact h
  | kill => exact h

end Xv6.Console
