/-
# The queue of the disk driver

`ide.c`: `iderw` appends a buffer to `idequeue`, a list linked by `qnext`, starts the
disk if the buffer is the head, and sleeps until the interrupt handler `ideintr` has taken
the buffer off the queue, set its flags, woken it and started the next one.  What is done
under `idelock` is one step: `sleep` gives the lock up when the process already counts as
asleep, so no `wakeup` comes in between.  The disk is taken to raise one interrupt for each
request that was started, some time after that, and to read without an error; what it
transfers is left out.

`enqueued`, `started` and `completed` are the history: the buffers in the order in which
`iderw` appended them, `idestart` was called for them and `ideintr` completed them.  A
request is a position in `enqueued`, and a call of `iderw` remembers its own.

`disk_queue` says, over every run of any number of processes, that the queue is the part of
`enqueued` after `completed`, that its head is the request that was started last, and that
`iderw` returns after its own request.
-/

import Mathlib.Data.Fintype.Card
import Xv6.Lib.Linked
import Xv6.Lib.Run
import Xv6.Param

namespace Xv6.Bio
namespace Ide

open Function Lib List Nat Option

/-- `struct buf`, without its contents and the links of the cache. -/
structure Buf (P B : Type*) where
  valid : Bool
  dirty : Bool
  dev : UInt32
  blockno : UInt32
  lock : Option P
  qnext : Option B

/-- Where a process is in `iderw`: not in it, at the first `acquire`, in `sleep` on the
channel of the buffer, or out of it again.  `n` is the number of its request. -/
inductive Call (B : Type*) where
  | out
  | lock (b : B)
  | sleep (b : B) (n : ℕ)
  | ready (b : B) (n : ℕ)
deriving DecidableEq

/-- The buffer of a call. -/
def Call.buf {B : Type*} : Call B → Option B
  | .out => none
  | .lock b | .sleep b _ | .ready b _ => some b

/-- The request of a call that has made one. -/
def Call.request {B : Type*} : Call B → Option (B × ℕ)
  | .out | .lock _ => none
  | .sleep b n | .ready b n => some (b, n)

theorem Call.buf_of_request {B : Type*} {b : B} {n : ℕ} : ∀ {c : Call B},
    c.request = some (b, n) → c.buf = some b
  | .sleep _ _, h | .ready _ _, h => congrArg (Option.map Prod.fst) h

/-- The buffers, the queue, the processes, the number of interrupts so far, and the
history. -/
structure State (P B : Type*) where
  buf : B → Buf P B
  idequeue : Option B
  havedisk1 : Bool
  call : P → Call B
  interrupts : ℕ
  enqueued : List B
  started : List B
  completed : List B

/-- A step: the rest of the kernel makes `b` what `x` says, a process calls `iderw` or goes
on in it, it is woken for another reason, or the handler runs. -/
inductive Act (P B : Type*) where
  | set (b : B) (x : Buf P B)
  | iderw (p : P) (b : B)
  | run (p : P)
  | wake (p : P)
  | intr

namespace State

set_option linter.unusedSectionVars false

variable {P B : Type*} [DecidableEq P] [DecidableEq B] [Fintype B] (s : State P B)

/-- Buffer `b` becomes `x`. -/
def setBuf (b : B) (x : Buf P B) : State P B := { s with buf := update s.buf b x }

/-- Process `p` goes on to `c`. -/
def setCall (p : P) (c : Call B) : State P B := { s with call := update s.call p c }

/-- `(b->flags & (B_VALID|B_DIRTY)) == B_VALID`. -/
def synced (b : B) : Bool := (s.buf b).valid && !(s.buf b).dirty

/-- `*pp`, where `none` is `&idequeue` and `some c` is `&c->qnext`. -/
def next : Option B → Option B
  | none => s.idequeue
  | some c => (s.buf c).qnext

/-- The loop of `iderw` over `pp`; `none` if it does not end. -/
def tail : ℕ → Option B → Option (Option B)
  | 0, _ => none
  | fuel + 1, pp =>
      match s.next pp with
      | none => some pp
      | some c => tail fuel (some c)

/-- `*pp = b`. -/
def link (b : B) : Option B → State P B
  | none => { s with idequeue := some b }
  | some c => s.setBuf c { s.buf c with qnext := some b }

/-- `b` is appended to `idequeue`. -/
def append (b : B) : Option (State P B) :=
  let s := s.setBuf b { s.buf b with qnext := none }
  (s.tail (Fintype.card B + 1) none).map fun pp =>
    { s.link b pp with enqueued := s.enqueued ++ [b] }

/-- `idestart`. -/
def idestart (b : B) : Except String (State P B) :=
  if FSSIZE ≤ (s.buf b).blockno.toNat then .error "incorrect blockno"
  else .ok { s with started := s.started ++ [b] }

/-- The loop of `iderw` over the flags, up to `sleep` or the return. -/
def wait (p : P) (b : B) (n : ℕ) : State P B :=
  s.setCall p (if s.synced b then .out else .sleep b n)

/-- `iderw` before `idelock`. -/
def iderw (p : P) (b : B) : Except String (State P B) :=
  if (s.buf b).lock ≠ some p then .error "iderw: buf not locked"
  else if s.synced b then .error "iderw: nothing to do"
  else if (s.buf b).dev ≠ 0 ∧ s.havedisk1 = false then .error "iderw: ide disk 1 not present"
  else .ok (s.setCall p (.lock b))

/-- `iderw` under `idelock`. -/
def enqueue (p : P) (b : B) : Option (Except String (State P B)) :=
  (s.append b).map fun s' =>
    (if s'.idequeue = some b then s'.idestart b else .ok s').map
      fun s'' => s''.wait p b s.enqueued.length

/-- `wakeup(b)`. -/
def wakeup (b : B) : State P B :=
  { s with call := fun p =>
      match s.call p with
      | .sleep c n => if c = b then .ready c n else .sleep c n
      | c => c }

/-- `ideintr` for the head `b` of the queue, before the next request is started. -/
def complete (b : B) : State P B :=
  { s.setBuf b { s.buf b with valid := true, dirty := false } with
    idequeue := (s.buf b).qnext, completed := s.completed ++ [b] }.wakeup b

/-- `ideintr`. -/
def ideintr : Except String (State P B) :=
  match s.idequeue with
  | none => .ok s
  | some b =>
      match (s.complete b).idequeue with
      | none => .ok (s.complete b)
      | some c => (s.complete b).idestart c

/-- The effect of a step: `none` where it cannot be made or does not end, an error
where the kernel panics.  The rest of the kernel locks and unlocks a buffer and changes its
block and flags, unless the process that holds it is in `iderw`.  An interrupt comes for a
request that was started and has not had its own. -/
def step : Act P B → Option (Except String (State P B))
  | .set b x =>
      if ∀ p ∈ (s.buf b).lock, s.call p = .out then
        some (.ok (s.setBuf b { x with qnext := (s.buf b).qnext }))
      else none
  | .iderw p b => if s.call p = .out then some (s.iderw p b) else none
  | .run p =>
      match s.call p with
      | .lock b => s.enqueue p b
      | .ready b n => some (.ok (s.wait p b n))
      | _ => none
  | .wake p =>
      match s.call p with
      | .sleep b n => some (.ok (s.setCall p (.ready b n)))
      | _ => none
  | .intr =>
      if s.interrupts < s.started.length then
        some { s with interrupts := s.interrupts + 1 }.ideintr
      else none

/-- After `ideinit`, whatever the buffers are. -/
def init (f : B → Buf P B) (havedisk1 : Bool) : State P B where
  buf := f
  idequeue := none
  havedisk1 := havedisk1
  call _ := .out
  interrupts := 0
  enqueued := []
  started := []
  completed := []

variable {s} {s' : State P B} {q : List B} {p : P} {b : B} {pp : Option B}

/-- The loop ends at the last link. -/
theorem tail_eq {l : List B} (h : Linked s.next (pp :: l.map some) none) {fuel : ℕ}
    (hfuel : l.length < fuel) : s.tail fuel pp = some ((l.map some).getLastD pp) := by
  induction l generalizing pp fuel with
  | nil =>
    obtain ⟨fuel, rfl⟩ := exists_eq_add_one.2 hfuel
    simp only [tail, show s.next pp = none from h.1]
    rfl
  | cons c l ih =>
    obtain ⟨fuel, rfl⟩ := exists_eq_add_one.2 (zero_lt_of_lt hfuel)
    simp only [tail, show s.next pp = some c from h.1]
    rw [map_cons, getLastD_cons]
    exact ih h.2 (lt_of_succ_lt_succ hfuel)

theorem next_link (x : Option B) : (s.link b pp).next x = if x = pp then some b else s.next x := by
  cases pp with
  | none => cases x <;> rfl
  | some c =>
    cases x with
    | none => rfl
    | some a =>
      simp only [link, next, setBuf, update_apply, some.injEq]
      split_ifs <;> rfl

/-- Only links are changed by `*pp = b`. -/
theorem link_eq (s : State P B) (b : B) (pp : Option B) : ∃ f i,
    s.link b pp = { s with buf := f, idequeue := i } ∧
      ∀ c, f c = { s.buf c with qnext := (f c).qnext } := by
  cases pp with
  | none => exact ⟨s.buf, some b, rfl, fun c => rfl⟩
  | some a =>
    refine ⟨_, s.idequeue, rfl, fun c => ?_⟩
    obtain rfl | hc := eq_or_ne c a
    · rw [update_self]
    · rw [update_of_ne hc]

/-- What `append` changes: the links, which then end with `b`. -/
theorem append_eq (hl : Linked s.next (none :: q.map some) none) (hq : q.Nodup)
    (hb : b ∉ q) : ∃ f i, let s' : State P B :=
      { s with buf := f, idequeue := i, enqueued := s.enqueued ++ [b] }
    s.append b = some s' ∧ Linked s'.next (none :: (q ++ [b]).map some) none ∧
      ∀ c, f c = { s.buf c with qnext := (f c).qnext } := by
  obtain ⟨s1, hs1⟩ : ∃ s1, s1 = s.setBuf b { s.buf b with qnext := none } := ⟨_, rfl⟩
  have hn : (none :: q.map some).Nodup :=
    nodup_cons.2 ⟨by simp, hq.map (some_injective B)⟩
  have hb' : some b ∉ none :: q.map some := by simpa using hb
  have hl1 : Linked s1.next (none :: q.map some) none := by
    refine hl.congr fun x hx => ?_
    cases x with
    | none => rw [hs1]; rfl
    | some c =>
      have hc : c ≠ b := fun h => hb' (h ▸ hx)
      simp only [hs1, next, setBuf, update_of_ne hc]
  obtain ⟨pp, hpp⟩ : ∃ pp, pp = (q.map some).getLastD none := ⟨_, rfl⟩
  have htail := tail_eq hl1 (lt_succ_of_le hq.length_le_card)
  rw [← hpp] at htail
  have hne : some b ≠ pp := by
    rintro rfl
    exact hb' (hpp ▸ hl1.last.1)
  have hl2 : Linked (s1.link b pp).next ((none :: q.map some) ++ [some b]) none := by
    refine linked_append.2 ⟨hl1.retarget hn ?_ fun x _ hx => ?_, ?_, trivial⟩
    · rw [next_link, if_pos hpp.symm]
      rfl
    · rw [next_link, if_neg (hpp ▸ hx)]
    · rw [next_link, if_neg hne]
      simp only [hs1, next, setBuf, update_self, headD_nil]
  obtain ⟨f, i, hs, hf⟩ := link_eq s1 b pp
  rw [hs] at hl2
  refine ⟨f, i, ?_, ?_, fun c => ?_⟩
  · simp only [append, ← hs1, htail, map_some, hs]
    subst hs1
    rfl
  · rw [map_append]
    exact hl2
  · rw [hf, hs1]
    obtain rfl | hc := eq_or_ne c b
    · simp only [setBuf, update_self]
    · simp only [setBuf, update_of_ne hc]

/-- What holds of a call of process `p`: it has the buffer locked, and what it waits for is
still to come. -/
def Fits (s : State P B) (p : P) : Call B → Prop
  | .out => True
  | .lock b => (s.buf b).lock = some p ∧ s.synced b = false
  | .sleep b n => (s.buf b).lock = some p ∧ s.enqueued[n]? = some b ∧ s.completed.length ≤ n
  | .ready b n => (s.buf b).lock = some p ∧ s.enqueued[n]? = some b ∧
      (n < s.completed.length → s.synced b = true)

theorem Fits.lock {c : Call B} (h : s.Fits p c) (hb : c.buf = some b) :
    (s.buf b).lock = some p := by
  cases c with
  | out => cases hb
  | lock c | sleep c n | ready c n =>
    cases hb
    exact h.1

/-- A call is not affected where its buffer and its request stay. -/
theorem Fits.congr {c : Call B} (h : s.Fits p c) (hbuf : ∀ b, c.buf = some b →
      (s'.buf b).lock = (s.buf b).lock ∧ s'.synced b = s.synced b)
    (henq : s.enqueued <+: s'.enqueued) (hcomp : s'.completed = s.completed) : s'.Fits p c := by
  have hreq : ∀ (n : ℕ) b, s.enqueued[n]? = some b → s'.enqueued[n]? = some b := by
    intro n b hn
    obtain ⟨l, hl⟩ := henq
    rw [← hl, List.getElem?_append_left (List.getElem?_eq_some_iff.1 hn).1, hn]
  cases c with
  | out => exact h
  | lock b => exact ⟨(hbuf b rfl).1.trans h.1, (hbuf b rfl).2.trans h.2⟩
  | sleep b n => exact ⟨(hbuf b rfl).1.trans h.1, hreq n b h.2.1, hcomp ▸ h.2.2⟩
  | ready b n =>
    refine ⟨(hbuf b rfl).1.trans h.1, hreq n b h.2.1, ?_⟩
    rw [hcomp, (hbuf b rfl).2]
    exact h.2.2

/-- The requests in the queue `q`, and the calls that they belong to. -/
structure Inv (s : State P B) (q : List B) : Prop where
  linked : Linked s.next (none :: q.map some) none
  nodup : q.Nodup
  enqueued : s.enqueued = s.completed ++ q
  started : s.started = s.completed ++ q.take 1
  interrupts : s.interrupts = s.completed.length
  calls : ∀ p, s.Fits p (s.call p)
  queued : ∀ b ∈ q, s.synced b = false ∧ ∃ p n, (s.call p).request = some (b, n)

theorem inv_init (f : B → Buf P B) (havedisk1 : Bool) : Inv (init f havedisk1) [] :=
  ⟨⟨rfl, trivial⟩, .nil, rfl, rfl, rfl, fun _ => trivial, nofun⟩

namespace Inv

variable (h : Inv s q)

include h

/-- A process that is about to append its buffer is not in the queue with it. -/
theorem not_mem (hp : s.call p = .lock b) : b ∉ q := by
  intro hb
  obtain ⟨-, p', n, hp'⟩ := h.queued b hb
  have h1 := (h.calls p').lock (Call.buf_of_request hp')
  have h2 := (h.calls p).lock (b := b) (by rw [hp]; rfl)
  obtain rfl := some.inj (h1.symm.trans h2)
  rw [hp] at hp'
  cases hp'

/-- A process goes on, and its request stays its own while it is in the queue. -/
theorem setCall {c : Call B} (hc : s.Fits p c)
    (hown : ∀ b ∈ q, ∀ n, (s.call p).request = some (b, n) → c.request = some (b, n)) :
    Inv (s.setCall p c) q := by
  have hcall : ∀ p', (s.setCall p c).call p' = if p' = p then c else s.call p' := fun p' =>
    update_apply ..
  refine { h with
    calls := fun p' => Fits.congr (s := s) ?_ (fun _ _ => ⟨rfl, rfl⟩) prefix_rfl rfl
    queued := fun b hb => ?_ }
  · rw [hcall]
    split_ifs with hp
    · exact hp ▸ hc
    · exact h.calls p'
  · obtain ⟨hsync, p', n, hp'⟩ := h.queued b hb
    refine ⟨hsync, p', n, ?_⟩
    rw [hcall]
    split_ifs with hp
    · exact hown b hb n (hp ▸ hp')
    · exact hp'

/-- The rest of the kernel only changes buffers that no call uses. -/
theorem set {x : Buf P B} (hb : ∀ p ∈ (s.buf b).lock, s.call p = .out) :
    Inv (s.setBuf b { x with qnext := (s.buf b).qnext }) q := by
  obtain ⟨t, ht⟩ : ∃ t, t = s.setBuf b { x with qnext := (s.buf b).qnext } := ⟨_, rfl⟩
  have hbuf : ∀ p c, (s.call p).buf = some c → t.buf c = s.buf c := by
    intro p c hc
    rw [ht]
    refine update_of_ne ?_ ..
    rintro rfl
    rw [hb p ((h.calls p).lock hc)] at hc
    cases hc
  have hnext : t.next = s.next := by
    funext c
    cases c with
    | none => rw [ht]; rfl
    | some c =>
      obtain rfl | hc := eq_or_ne c b
      · simp only [ht, next, setBuf, update_self]
      · simp only [ht, next, setBuf, update_of_ne hc]
  have hsync : ∀ p c, (s.call p).buf = some c → t.synced c = s.synced c := fun p c hc => by
    rw [synced, hbuf p c hc, synced]
  have hcalls : ∀ p, t.Fits p (s.call p) := fun p =>
    (h.calls p).congr (fun c hc => ⟨by rw [hbuf p c hc], hsync p c hc⟩) (ht ▸ prefix_rfl) (ht ▸ rfl)
  have hqueued : ∀ c ∈ q, t.synced c = false ∧ ∃ p n, (s.call p).request = some (c, n) := by
    intro c hc
    obtain ⟨hc', p, n, hp⟩ := h.queued c hc
    exact ⟨by rw [hsync p c (Call.buf_of_request hp), hc'], p, n, hp⟩
  subst ht
  exact { h with linked := hnext ▸ h.linked, calls := hcalls, queued := hqueued }

/-- `iderw` tests the flags again after a `wakeup`. -/
theorem wait {n : ℕ} (hp : s.call p = .ready b n) : Inv (s.wait p b n) q := by
  have hfits := h.calls p
  rw [hp] at hfits
  rw [State.wait]
  split_ifs with hb
  · refine h.setCall trivial fun c hc m hm => ?_
    rw [hp] at hm
    cases hm
    rw [(h.queued b hc).1] at hb
    cases hb
  · refine h.setCall ⟨hfits.1, hfits.2.1, ?_⟩ fun c _ m hm => ?_
    · exact Nat.le_of_not_lt fun hlt => hb (hfits.2.2 hlt)
    · rw [hp] at hm
      exact hm

/-- The invariant after `b` is appended, where `t` is the state before `iderw` waits. -/
theorem appended {t : State P B} (hp : s.call p = .lock b)
    (hl : Linked t.next (none :: (q ++ [b]).map some) none)
    (hbuf : ∀ c, t.buf c = { s.buf c with qnext := (t.buf c).qnext }) (hcall : t.call = s.call)
    (henq : t.enqueued = s.enqueued ++ [b]) (hcomp : t.completed = s.completed)
    (hst : t.started = s.completed ++ (q ++ [b]).take 1) (hint : t.interrupts = s.interrupts) :
    Inv (t.wait p b s.enqueued.length) (q ++ [b]) ∧
      (t.wait p b s.enqueued.length).call =
        update s.call p (.sleep b s.enqueued.length) := by
  have hfits := h.calls p
  rw [hp] at hfits
  have hsame : ∀ c, (t.buf c).lock = (s.buf c).lock ∧ t.synced c = s.synced c := fun c => by
    rw [synced, hbuf]
    exact ⟨rfl, rfl⟩
  have hwait : t.wait p b s.enqueued.length = t.setCall p (.sleep b s.enqueued.length) := by
    rw [State.wait, (hsame b).2, hfits.2]
    rfl
  have hcall' : ∀ p', (t.setCall p (.sleep b s.enqueued.length)).call p' =
      if p' = p then .sleep b s.enqueued.length else s.call p' := fun p' => by
    rw [← hcall]
    exact update_apply ..
  rw [hwait]
  refine ⟨⟨hl, ?_, ?_, hcomp ▸ hst, ?_, fun p' => ?_, fun c hc => ?_⟩, hcall ▸ rfl⟩
  · refine nodup_append.2 ⟨h.nodup, nodup_singleton b, fun c hc a ha => ?_⟩
    rw [mem_singleton.1 ha]
    rintro rfl
    exact h.not_mem hp hc
  · change t.enqueued = t.completed ++ _
    rw [henq, hcomp, h.enqueued, append_assoc]
  · exact hint.trans (hcomp ▸ h.interrupts)
  · rw [hcall']
    split_ifs with hpp
    · refine ⟨hpp ▸ (hsame b).1.trans (hpp ▸ hfits.1), ?_, ?_⟩
      · change t.enqueued[_]? = _
        rw [henq, getElem?_concat_length]
      · change t.completed.length ≤ _
        rw [hcomp, h.enqueued, length_append]
        exact Nat.le_add_right ..
    · exact (h.calls p').congr (fun c _ => hsame c) ⟨[b], henq.symm⟩ hcomp
  · obtain hc | rfl := (mem_append.1 hc).imp_right mem_singleton.1
    · obtain ⟨hc', p', n, hn⟩ := h.queued c hc
      have hpp : p' ≠ p := by
        rintro rfl
        rw [hp] at hn
        cases hn
      exact ⟨(hsame c).2.trans hc', p', n, by rw [hcall', if_neg hpp, hn]⟩
    · exact ⟨(hsame c).2.trans hfits.2, p, _, by rw [hcall', if_pos rfl]; rfl⟩

/-- `iderw` under `idelock`: the buffer is the last of the queue, and the process sleeps. -/
theorem enqueue (hp : s.call p = .lock b) (hs : s.enqueue p b = some (.ok s')) :
    Inv s' (q ++ [b]) ∧ s'.call = update s.call p (.sleep b s.enqueued.length) := by
  obtain ⟨f, i, happ, hl, hf⟩ := append_eq h.linked h.nodup (h.not_mem hp)
  rw [State.enqueue, happ, map_some] at hs
  cases q with
  | nil =>
    rw [if_pos (show i = some b from hl.1)] at hs
    simp only [idestart] at hs
    split_ifs at hs with hno
    · cases hs
    · cases hs
      exact h.appended hp hl hf rfl rfl rfl (by simp [h.started]) rfl
  | cons c q =>
    have hne : i ≠ some b := by
      rw [show i = some c from hl.1]
      rintro ⟨⟩
      exact h.not_mem hp mem_cons_self
    rw [if_neg hne] at hs
    cases hs
    exact h.appended hp hl hf rfl rfl rfl h.started rfl

end Inv

/-- What `wakeup(b)` does to a process. -/
theorem call_wakeup (s : State P B) (b : B) (p : P) :
    (∃ n, s.call p = .sleep b n ∧ (s.wakeup b).call p = .ready b n) ∨
      (s.wakeup b).call p = s.call p ∧ ∀ n, s.call p ≠ .sleep b n := by
  simp only [wakeup]
  cases s.call p with
  | sleep c n =>
    obtain rfl | hc := eq_or_ne c b
    · exact .inl ⟨n, rfl, if_pos rfl⟩
    · refine .inr ⟨if_neg hc, ?_⟩
      rintro m ⟨⟩
      exact hc rfl
  | out | lock c | ready c n => exact .inr ⟨rfl, nofun⟩

theorem request_wakeup : ((s.wakeup b).call p).request = (s.call p).request := by
  obtain ⟨n, h1, h2⟩ | ⟨h1, -⟩ := call_wakeup s b p
  · rw [h1, h2]
    rfl
  · rw [h1]

/-- The handler completes the head of the queue; `st` is started when it has gone on to the
next one. -/
theorem Inv.complete (h : Inv s (b :: q)) {st : List B} (hst : st = s.completed ++ b :: q.take 1) :
    Inv { s.complete b with interrupts := s.interrupts + 1, started := st } q := by
  obtain ⟨t, ht⟩ : ∃ t, t = { s.complete b with
    interrupts := s.interrupts + 1, started := st } := ⟨_, rfl⟩
  obtain ⟨hb, hq⟩ := nodup_cons.1 h.nodup
  have hsync : ∀ c, c ≠ b → t.synced c = s.synced c := fun c hc => by
    simp only [ht, synced, State.complete, wakeup, setBuf, update_of_ne hc]
  have hlock : ∀ c, (t.buf c).lock = (s.buf c).lock := fun c => by
    simp only [ht, State.complete, wakeup, setBuf]
    obtain rfl | hc := eq_or_ne c b
    · rw [update_self]
    · rw [update_of_ne hc]
  have hcall : ∀ p, t.call p = (s.wakeup b).call p := fun p => by rw [ht]; rfl
  have hcomp : t.completed = s.completed ++ [b] := by rw [ht]; rfl
  have hlen : t.completed.length = s.completed.length + 1 := by rw [hcomp, length_append]; rfl
  have henq : t.enqueued = s.enqueued := by rw [ht]; rfl
  have hfirst : ∀ (n : ℕ) c, s.enqueued[n]? = some c → n = s.completed.length → c = b := by
    rintro n c hc rfl
    rw [h.enqueued, getElem?_append_right (le_refl _), Nat.sub_self] at hc
    exact (some.inj hc).symm
  -- the flags of a request that is completed now or was before
  have hdone : ∀ (n : ℕ) c, s.enqueued[n]? = some c → (n < s.completed.length → s.synced c = true) →
      n < t.completed.length → t.synced c = true := by
    intro n c hc hn hlt
    rw [hlen] at hlt
    obtain rfl | hcb := eq_or_ne c b
    · simp only [ht, synced, State.complete, wakeup, setBuf, update_self]
      rfl
    · rw [hsync c hcb]
      exact hn (lt_of_le_of_ne (le_of_lt_succ hlt) (mt (hfirst n c hc) hcb))
  have hlinked : Linked t.next (none :: q.map some) none := by
    obtain ⟨-, hb', hl⟩ := h.linked
    refine ⟨ht ▸ hb', hl.congr fun x hx => ?_⟩
    obtain ⟨c, hc, rfl⟩ := mem_map.1 hx
    have hcb : c ≠ b := fun hcb => hb (hcb ▸ hc)
    rw [ht]
    exact congrArg Buf.qnext (update_of_ne hcb ..)
  rw [← ht]
  refine ⟨hlinked, hq, ?_, ?_, ?_, fun p => ?_, fun c hc => ?_⟩
  · rw [henq, hcomp, h.enqueued, append_cons]
  · rw [hcomp, ← append_cons, ← hst, ht]
  · rw [hlen, ← h.interrupts, ht]
  · have hfits := h.calls p
    rw [hcall]
    obtain ⟨n, hn, hn'⟩ | ⟨hp, hne⟩ := call_wakeup s b p
    · rw [hn] at hfits
      rw [hn']
      exact ⟨by rw [hlock, hfits.1], henq ▸ hfits.2.1, hdone n b hfits.2.1
        fun hlt => absurd hlt (not_lt.2 hfits.2.2)⟩
    · rw [hp]
      cases hc : s.call p with
      | out => trivial
      | lock c =>
        rw [hc] at hfits
        have hcb : c ≠ b := fun hcb => h.not_mem hc (hcb ▸ mem_cons_self)
        exact ⟨by rw [hlock, hfits.1], by rw [hsync c hcb, hfits.2]⟩
      | sleep c n =>
        rw [hc] at hfits
        refine ⟨by rw [hlock, hfits.1], henq ▸ hfits.2.1, ?_⟩
        rw [hlen]
        refine lt_of_le_of_ne hfits.2.2 fun hn => hne n ?_
        rw [hc, hfirst n c hfits.2.1 hn.symm]
      | ready c n =>
        rw [hc] at hfits
        exact ⟨by rw [hlock, hfits.1], henq ▸ hfits.2.1, hdone n c hfits.2.1 hfits.2.2⟩
  · obtain ⟨hc', p, n, hn⟩ := h.queued c (mem_cons_of_mem b hc)
    rw [hsync c fun hcb => hb (hcb ▸ hc)]
    exact ⟨hc', p, n, by rw [hcall, request_wakeup, hn]⟩

/-- The handler takes the head off the queue, and the disk goes on with the next one. -/
theorem Inv.ideintr (h : Inv s q) (hint : s.interrupts < s.started.length)
    (hs : { s with interrupts := s.interrupts + 1 }.ideintr = .ok s') :
    ∃ b r, Inv s' r ∧ s'.call = (s.wakeup b).call := by
  cases q with
  | nil => simp [h.interrupts, h.started] at hint
  | cons b r =>
    obtain ⟨t, ht⟩ : ∃ t : State P B, t = { s with interrupts := s.interrupts + 1 } := ⟨_, rfl⟩
    have hhead : t.idequeue = some b := ht ▸ h.linked.1
    have hnext : (t.complete b).idequeue = (r.map some).headD none := ht ▸ h.linked.2.1
    rw [← ht] at hs
    simp only [State.ideintr, hhead] at hs
    refine ⟨b, r, ?_⟩
    cases r with
    | nil =>
      rw [map_nil, headD_nil] at hnext
      simp only [hnext] at hs
      cases hs
      subst ht
      exact ⟨h.complete h.started, rfl⟩
    | cons c r =>
      rw [map_cons, headD_cons] at hnext
      simp only [hnext] at hs
      rw [idestart] at hs
      split_ifs at hs with hno
      cases hs
      subst ht
      refine ⟨h.complete ?_, rfl⟩
      change s.started ++ [c] = _
      rw [h.started, append_assoc]
      rfl

/-- What a return of `iderw` comes after. -/
def Returns (s s' : State P B) : Prop :=
  ∀ p b, (s.call p).buf = some b → s'.call p = .out → ∃ n, s.call p = .ready b n ∧
    s.enqueued[n]? = some b ∧ n < s.completed.length ∧
      (s'.buf b).valid = true ∧ (s'.buf b).dirty = false

theorem returns_of_out (h : ∀ p, s'.call p = .out → s.call p = .out) : Returns s s' := by
  intro p b hb hp
  rw [h p hp] at hb
  cases hb

/-- A process that goes on in its call does not return. -/
theorem returns_of_update {c : Call B} (hcall : s'.call = update s.call p c)
    (hc : c ≠ .out) : Returns s s' := by
  refine returns_of_out fun p' hp' => ?_
  rw [hcall, update_apply] at hp'
  split_ifs at hp' with hpp
  · exact absurd hp' hc
  · exact hp'

theorem Inv.returns_wait {n : ℕ} (h : Inv s q) (hp : s.call p = .ready b n) :
    Returns s (s.wait p b n) := by
  intro p' b' hb hout
  rw [State.wait] at hout ⊢
  obtain rfl | hpp := eq_or_ne p' p
  · simp only [State.setCall, update_self] at hout
    split_ifs at hout with hsync
    rw [hp] at hb
    cases hb
    have hfits := h.calls p'
    rw [hp] at hfits
    obtain ⟨-, h1, -⟩ := hfits
    have hflags : (s.buf b).valid = true ∧ (s.buf b).dirty = false := by simpa [synced] using hsync
    refine ⟨n, hp, h1, Nat.lt_of_not_le fun hle => ?_, hflags⟩
    rw [h.enqueued, getElem?_append_right hle] at h1
    rw [(h.queued b (mem_of_getElem? h1)).1] at hsync
    cases hsync
  · simp only [State.setCall, update_of_ne hpp] at hout
    rw [hout] at hb
    cases hb

/-- **Every step keeps the queue, and no call returns before its request.** -/
theorem Inv.step (h : Inv s q) {a : Act P B} (hs : s.step a = some (.ok s')) :
    (∃ q, Inv s' q) ∧ Returns s s' := by
  cases a with
  | set b x =>
    simp only [State.step] at hs
    split_ifs at hs with hb
    cases hs
    exact ⟨⟨q, h.set hb⟩, returns_of_out fun p hp => hp⟩
  | iderw p b =>
    simp only [State.step, State.iderw] at hs
    split_ifs at hs with hp hlock hsync hdev
    · cases hs
    · cases hs
    · cases hs
    · cases hs
      refine ⟨⟨q, h.setCall ⟨not_not.1 hlock, Bool.eq_false_iff.2 hsync⟩ fun c _ n hc => ?_⟩,
        returns_of_update rfl nofun⟩
      rw [hp] at hc
      cases hc
  | run p =>
    simp only [State.step] at hs
    cases hc : s.call p with
    | out | sleep b n =>
      rw [hc] at hs
      cases hs
    | lock b =>
      rw [hc] at hs
      obtain ⟨hq, hcall⟩ := h.enqueue hc hs
      exact ⟨⟨_, hq⟩, returns_of_update hcall nofun⟩
    | ready b n =>
      rw [hc] at hs
      cases hs
      exact ⟨⟨q, h.wait hc⟩, h.returns_wait hc⟩
  | wake p =>
    simp only [State.step] at hs
    cases hc : s.call p with
    | out | lock b | ready b n =>
      rw [hc] at hs
      cases hs
    | sleep b n =>
      rw [hc] at hs
      cases hs
      have hfits := h.calls p
      rw [hc] at hfits
      refine ⟨⟨q, h.setCall ⟨hfits.1, hfits.2.1, fun hlt => ?_⟩ fun c _ m hm => ?_⟩,
        returns_of_update rfl nofun⟩
      · exact absurd hlt (not_lt.2 hfits.2.2)
      · rw [hc] at hm
        exact hm
  | intr =>
    simp only [State.step] at hs
    split_ifs at hs with hint
    obtain ⟨b, r, hr, hcall⟩ := h.ideintr hint (some.inj hs)
    refine ⟨⟨r, hr⟩, returns_of_out fun p hp => ?_⟩
    rw [hcall] at hp
    obtain ⟨n, -, hn⟩ | ⟨hp', -⟩ := call_wakeup s b p
    · rw [hp] at hn
      cases hn
    · rw [← hp', hp]

end State

/-- **The queue is first-in first-out and loses nothing.**  In every state of a run the
queue is a list of different buffers, those enqueued and not yet completed, in the order of
the calls.  What was started is what was completed and the head of the queue.  A call sleeps
only while its own request is not completed, and it returns when this is completed, with
`B_VALID` set and `B_DIRTY` clear. -/
theorem disk_queue {P B : Type*} [DecidableEq P] [DecidableEq B] [Fintype B] {f : B → Buf P B}
    {d : Bool} {s : State P B} (h : Reaches State.step (State.init f d) s) :
    ∃ q : List B, Linked s.next (none :: q.map some) none ∧ q.Nodup ∧
      s.enqueued = s.completed ++ q ∧ s.started = s.completed ++ s.idequeue.toList ∧
      (∀ p b n, s.call p = .sleep b n → s.enqueued[n]? = some b ∧ s.completed.length ≤ n) ∧
      ∀ a s', s.step a = some (.ok s') → State.Returns s s' := by
  obtain ⟨q, hq⟩ : ∃ q, s.Inv q :=
    h.inv (I := fun s => ∃ q, s.Inv q) (fun _ _ _ ⟨q, hq⟩ hs => (hq.step hs).1)
      ⟨[], State.inv_init f d⟩
  have htake : q.take 1 = s.idequeue.toList := by
    rw [show s.idequeue = (q.map some).headD none from hq.linked.1]
    cases q <;> rfl
  refine ⟨q, hq.linked, hq.nodup, hq.enqueued, htake ▸ hq.started, fun p b n hp => ?_,
    fun a s' hs => (hq.step hs).2⟩
  have hfits := hq.calls p
  rw [hp] at hfits
  exact hfits.2

/-- The hypothesis of `disk_queue` is satisfiable: two processes read a block each, and the
disk works on the second when the first has returned. -/
theorem disk_queue_two : ∃ s : State Bool Bool, s.call false = .out ∧ s.idequeue = some true ∧
    s.completed = [false] ∧ s.started = [false, true] := by
  have hrun : Leads State.step
      (State.init (fun b => ⟨false, false, 0, 1, some b, some false⟩) false : State Bool Bool)
      [.iderw false false, .run false, .iderw true true, .run true, .intr, .run false] fun s =>
      s.call false = .out ∧ s.idequeue = some true ∧ s.completed = [false] := by decide +kernel
  obtain ⟨s, h, hout, hhead, hcomp⟩ := hrun.reaches
  obtain ⟨q, -, -, -, hstarted, -⟩ := disk_queue h
  exact ⟨s, hout, hhead, hcomp, by rw [hstarted, hcomp, hhead]; rfl⟩

end Ide
end Xv6.Bio
