/-
# The console as a line editor

`Editor` is what the input side of `console.c` is for: a queue of committed bytes, a pending line
that can still be edited, and the reads that wait for bytes. It knows nothing of a ring, of counters
or of a lock, and each of its steps is a single one.

`Holds` says which queue and which pending line the ring of `input` holds, and `Holds.intr` that
`consoleintr` edits them as the editor does. `Rep.step` is the simulation: every step of a thread is
a step of the editor with the same events, or none. `consoleread` gives a `^D` back in two steps,
and the editor sees them as one. The result is `console_refines`.
-/
import Xv6.Console.Calls

namespace Xv6.Console

open Lib List State UInt32
open Function (update_self update_of_ne)

/-! ## The editor -/

/-- A queue of committed bytes, a pending line, and for every process the read that it is in: the
count asked for and the bytes received. `committed` and `log` are history. -/
structure Editor (P : Type) where
  queue : List UInt8
  pending : List UInt8
  reading : P → Option (ℤ × List UInt8)
  killed : P → Bool
  committed : List UInt8
  log : List (Event P)

/-- A step of the editor. -/
inductive Editor.Act (P : Type) where
  | key (c : UInt8)
  | call (p : P) (n : ℤ)
  | next (p : P)
  | kill (p : P)

set_option linter.unusedSectionVars false

variable {P : Type} [DecidableEq P] {got : List UInt8} {t : Thread} {n : ℤ}

namespace Editor

/-- Nothing has been typed. -/
def init : Editor P where
  queue := []
  pending := []
  reading _ := none
  killed _ := false
  committed := []
  log := []

variable (a : Editor P)

/-- `c` is appended to the pending line. A newline, a `^D` or the last byte there is room for
commits the line. -/
def append (c : UInt8) : Editor P :=
  let line := a.pending ++ [c]
  if c = NL ∨ c = CTRL_D ∨ (a.queue ++ line).length = INPUT_BUF then
    { a with queue := a.queue ++ line, pending := [], committed := a.committed ++ line }
  else { a with pending := line }

/-- The character `c` is typed. -/
def type (c : UInt8) : Editor P :=
  if c = CTRL_P ∨ c = 0 then a
  else if c = CTRL_U then { a with pending := [] }
  else if c = CTRL_H ∨ c = DEL then { a with pending := a.pending.dropLast }
  else if (a.queue ++ a.pending).length < INPUT_BUF then a.append (if c = CR then NL else c)
  else a

/-- Typing changes no read. -/
theorem type_frame (c : UInt8) :
    (a.type c).reading = a.reading ∧ (a.type c).killed = a.killed ∧ (a.type c).log = a.log := by
  have happend : ∀ c, (a.append c).reading = a.reading ∧ (a.append c).killed = a.killed ∧
      (a.append c).log = a.log := fun c => by
    unfold append
    dsimp only
    split_ifs <;> exact ⟨rfl, rfl, rfl⟩
  unfold type
  split_ifs <;> first | exact ⟨rfl, rfl, rfl⟩ | exact happend _

/-- The read of `p` ends with the result `r`. -/
def stop (p : P) (n : ℤ) (got : List UInt8) (r : ℤ) : Editor P :=
  { a with
    reading := Function.update a.reading p none
    log := a.log ++ [.ret p n r got] }

/-- The read of `p` takes `c`, after which the queue is `q`. -/
def dequeue (p : P) (c : UInt8) (q : List UInt8) : Editor P :=
  { a with queue := q, log := a.log ++ [.took p c] }

/-- The read of `p`, with room for more, finds `c` at the head of the queue. -/
def receive (p : P) (n : ℤ) (got : List UInt8) (c : UInt8) (q : List UInt8) : Editor P :=
  if c = CTRL_D then
    if got ≠ [] then a.stop p n got got.length else (a.dequeue p c q).stop p n got 0
  else if c = NL then (a.dequeue p c q).stop p n (got ++ [c]) (got ++ [c]).length
  else { a.dequeue p c q with reading := Function.update a.reading p (some (n, got ++ [c])) }

/-- A read goes on: it ends where it has all it asked for, and otherwise waits for a byte, unless
the process is killed. -/
def next (p : P) : Option (Editor P) :=
  match a.reading p with
  | none => none
  | some (n, got) =>
      if n ≤ got.length then some (a.stop p n got got.length)
      else
        match a.queue with
        | [] => if a.killed p then some (a.stop p n got (-1)) else none
        | c :: q => some (a.receive p n got c q)

/-- The effect of a step: `none` where it cannot be made. -/
def step : Act P → Option (Except Empty (Editor P))
  | .key c => some (.ok { a.type c with log := (a.type c).log ++ [.key c] })
  | .call p n =>
      if a.reading p = none then
        some (.ok { a with
          reading := Function.update a.reading p (some (n, []))
          log := a.log ++ [.call p n] })
      else none
  | .next p => (a.next p).map .ok
  | .kill p =>
      some (.ok { a with
        killed := Function.update a.killed p true
        log := a.log ++ [.kill p] })

end Editor

/-! ## What readers receive -/

/-- The bytes that reads have taken, in order. -/
def taken (log : List (Event P)) : List UInt8 :=
  log.filterMap fun
    | .took _ c => some c
    | _ => none

/-- The bytes that the reads of `p` have taken, in order, without the `^D`s. -/
def takenBy (p : P) (log : List (Event P)) : List UInt8 :=
  log.filterMap fun
    | .took q c => if q = p ∧ c ≠ CTRL_D then some c else none
    | _ => none

/-- The bytes that the reads of `p` have returned, in order. -/
def returnedTo (p : P) (log : List (Event P)) : List UInt8 :=
  log.flatMap fun
    | .ret q _ _ dst => if q = p then dst else []
    | _ => []

/-- What a read may return: no more bytes than it asked for, no `^D`, and no byte after a newline;
the result is their number, or `-1` where the process is killed. -/
structure Returns (killed : Bool) (n r : ℤ) (dst : List UInt8) : Prop where
  le : (dst.length : ℤ) ≤ max n 0
  eof : CTRL_D ∉ dst
  line : NL ∉ dst.dropLast
  result : r = dst.length ∨ r = -1 ∧ killed = true

/-- What a read has received so far: it may go on. -/
structure Receives (n : ℤ) (got : List UInt8) : Prop where
  le : (got.length : ℤ) ≤ max n 0
  eof : CTRL_D ∉ got
  line : NL ∉ got

/-- **The committed bytes are delivered in order, each once.** The bytes that reads have taken and
those in the queue are together the committed ones; what a process has returned and has received in
the read it is in are the bytes that its reads have taken. -/
structure Editor.Accounts (a : Editor P) : Prop where
  order : a.committed = taken a.log ++ a.queue
  each : ∀ p, takenBy p a.log =
    returnedTo p a.log ++ ((a.reading p).elim [] fun x => x.2)
  returns : ∀ p n r dst, .ret p n r dst ∈ a.log → Returns (a.killed p) n r dst
  pending : NL ∉ a.pending

/-- `Accounts`, and every read may go on. -/
structure Editor.Delivers (a : Editor P) : Prop extends a.Accounts where
  receives : ∀ p n got, a.reading p = some (n, got) → Receives n got

/-- What a read has received it may return. -/
theorem Receives.returns {killed : Bool} {r : ℤ} (h : Receives n got)
    (hr : r = got.length ∨ r = -1 ∧ killed = true) : Returns killed n r got :=
  ⟨h.le, h.eof, fun hm => h.line (dropLast_subset got hm), hr⟩

variable {a a' : Editor P} {p : P}

namespace Editor

theorem Delivers.init : (Editor.init : Editor P).Delivers where
  order := rfl
  each _ := rfl
  returns _ _ _ _ h := by cases h
  receives _ _ _ h := by cases h
  pending h := by cases h

/-- The reads that go on are the other ones, and that of `p` if it goes on with `x`. -/
theorem Delivers.update {a' : Editor P} {x : Option (ℤ × List UInt8)} (h : a.Delivers)
    (h' : a'.Accounts) (hr : a'.reading = Function.update a.reading p x)
    (hx : ∀ n got, x = some (n, got) → Receives n got) : a'.Delivers where
  toAccounts := h'
  receives q n got hq := by
    rw [hr] at hq
    by_cases hqp : q = p
    · subst hqp
      rw [update_self] at hq
      exact hx n got hq
    · rw [update_of_ne hqp] at hq
      exact h.receives q n got hq

variable {n : ℤ}

/-- A read returns the bytes that it has received. -/
theorem Accounts.stop (h : a.Accounts) {r : ℤ} (hp : a.reading p = some (n, got))
    (hr : Returns (a.killed p) n r got) : (a.stop p n got r).Accounts where
  order := by simpa [Editor.stop, taken] using h.order
  each q := by
    have hq := h.each q
    by_cases hqp : q = p
    · subst hqp
      rw [hp] at hq
      simpa [Editor.stop, takenBy, returnedTo] using hq
    · simpa [Editor.stop, takenBy, returnedTo, hqp, Ne.symm hqp] using hq
  returns q m r' dst hm := by
    rcases mem_append.1 hm with hm | hm
    · exact h.returns q m r' dst hm
    · cases mem_singleton.1 hm
      exact hr
  pending := h.pending

variable {q : List UInt8}

/-- A read consumes a `^D`. -/
theorem Accounts.dequeue (h : a.Accounts) (hq : a.queue = CTRL_D :: q) :
    (a.dequeue p CTRL_D q).Accounts where
  order := by simpa [Editor.dequeue, taken, hq] using h.order
  each q' := by simpa [Editor.dequeue, takenBy, returnedTo] using h.each q'
  returns q' m r' dst hm := by
    rcases mem_append.1 hm with hm | hm
    · exact h.returns q' m r' dst hm
    · cases mem_singleton.1 hm
  pending := h.pending

/-- A read receives a byte. -/
theorem Accounts.take (h : a.Accounts) {c : UInt8}
    (hp : a.reading p = some (n, got)) (hq : a.queue = c :: q) (hc : c ≠ CTRL_D) :
    Accounts { a.dequeue p c q with
      reading := Function.update a.reading p (some (n, got ++ [c])) } where
  order := by simpa [Editor.dequeue, taken, hq] using h.order
  each q' := by
    have hq' := h.each q'
    by_cases hqp : q' = p
    · subst hqp
      rw [hp] at hq'
      simp only [takenBy] at hq'
      simp [Editor.dequeue, takenBy, returnedTo, hc, hq']
    · simpa [Editor.dequeue, takenBy, returnedTo, hqp, Ne.symm hqp] using hq'
  returns q' m r' dst hm := by
    rcases mem_append.1 hm with hm | hm
    · exact h.returns q' m r' dst hm
    · cases mem_singleton.1 hm
  pending := h.pending

variable (h : a.Delivers)

include h

/-- **A read takes the head of the queue, or leaves a `^D` after data.** -/
theorem Delivers.receive {c : UInt8} (hp : a.reading p = some (n, got)) (hn : (got.length : ℤ) < n)
    (hq : a.queue = c :: q) : (a.receive p n got c q).Delivers := by
  have hgot := h.receives p n got hp
  unfold Editor.receive
  split_ifs with hc he hl
  · exact h.update (h.toAccounts.stop hp (hgot.returns (.inl rfl))) rfl nofun
  · obtain rfl := not_ne_iff.1 he
    subst hc
    exact h.update ((h.toAccounts.dequeue hq).stop hp (hgot.returns (.inl rfl))) rfl nofun
  all_goals
    have hlen : ((got ++ [c]).length : ℤ) ≤ max n 0 := by
      simp only [length_append, length_singleton]
      omega
    have heof : CTRL_D ∉ got ++ [c] := by
      simpa [Ne.symm hc] using hgot.eof
    have htake := h.toAccounts.take hp hq hc
  · have hstop := htake.stop (update_self ..)
      (⟨hlen, heof, by rw [dropLast_concat]; exact hgot.line, .inl rfl⟩)
    simp only [Editor.stop, Function.update_idem] at hstop
    exact h.update hstop rfl nofun
  · refine h.update htake rfl fun m got' hx => ?_
    cases hx
    exact ⟨hlen, heof, by simpa [Ne.symm hl] using hgot.line⟩

theorem Delivers.next (hs : a.next p = some a') : a'.Delivers := by
  unfold Editor.next at hs
  cases hp : a.reading p with
  | none =>
    rw [hp] at hs
    cases hs
  | some x =>
    obtain ⟨n, got⟩ := x
    have hgot := h.receives p n got hp
    simp only [hp] at hs
    by_cases hn : n ≤ got.length
    · rw [if_pos hn] at hs
      cases hs
      exact h.update (h.toAccounts.stop hp (hgot.returns (.inl rfl))) rfl nofun
    rw [if_neg hn] at hs
    cases hq : a.queue with
    | nil =>
      simp only [hq] at hs
      split_ifs at hs with hk
      cases hs
      exact h.update (h.toAccounts.stop hp (hgot.returns (.inr ⟨rfl, hk⟩))) rfl nofun
    | cons c q =>
      simp only [hq] at hs
      cases hs
      exact h.receive hp (not_le.1 hn) hq

theorem Delivers.append (c : UInt8) : (a.append c).Delivers := by
  unfold Editor.append
  dsimp only
  split_ifs with hc
  · exact { h with
      order := by
        rw [h.order, append_assoc]
      pending := by simp }
  · exact { h with
      pending := by
        have hcn : c ≠ NL := fun hn => hc (.inl hn)
        simpa [Ne.symm hcn] using h.pending }

theorem Delivers.type (c : UInt8) : (a.type c).Delivers := by
  unfold Editor.type
  split_ifs
  · exact h
  · exact { h with pending := by simp }
  · exact { h with pending := fun hm => h.pending (dropLast_subset _ hm) }
  · exact h.append NL
  · exact h.append c
  · exact h

/-- An event that takes and returns nothing keeps `Delivers`. -/
theorem Delivers.event (e : Event P) (ht : ∀ q c, e ≠ .took q c)
    (hr : ∀ q n r dst, e ≠ .ret q n r dst) :
    ({ a with log := a.log ++ [e] } : Editor P).Delivers where
  order := by
    cases e with
    | took q c => exact absurd rfl (ht q c)
    | _ => simpa [taken] using h.order
  each q := by
    cases e with
    | took q c => exact absurd rfl (ht q c)
    | ret q n r dst => exact absurd rfl (hr q n r dst)
    | _ => simpa [takenBy, returnedTo] using h.each q
  returns q n r dst hm := by
    rcases mem_append.1 hm with hm | hm
    · exact h.returns q n r dst hm
    · exact absurd (mem_singleton.1 hm).symm (hr q n r dst)
  pending := h.pending
  receives := h.receives

theorem Delivers.call (n : ℤ) (hp : a.reading p = none) :
    ({ a with reading := Function.update a.reading p (some (n, [])) } : Editor P).Delivers := by
  refine h.update { h.toAccounts with each := fun q => ?_ } rfl fun m got hx => ?_
  · have hq := h.each q
    by_cases hqp : q = p
    · subst hqp
      rw [hp] at hq
      simpa using hq
    · simpa [hqp] using hq
  · cases hx
    exact ⟨le_max_right _ _, by simp, by simp⟩

theorem Delivers.kill (p : P) :
    ({ a with killed := Function.update a.killed p true } : Editor P).Delivers :=
  { h with
    returns := fun q n r dst hm => by
      have hq := h.returns q n r dst hm
      refine { hq with result := hq.result.imp_right fun hk => ⟨hk.1, ?_⟩ }
      change Function.update a.killed p true q = true
      by_cases hqp : q = p
      · rw [hqp, update_self]
      · rw [update_of_ne hqp]
        exact hk.2 }

/-- **Every step of the editor keeps `Delivers`.** -/
theorem Delivers.step {e : Act P} (hs : a.step e = some (.ok a')) : a'.Delivers := by
  cases e with
  | key c =>
    cases hs
    exact (h.type c).event (.key c) (by simp) (by simp)
  | call p n =>
    simp only [Editor.step] at hs
    split_ifs at hs with hp
    cases hs
    exact (h.call n hp).event (.call p n) (by simp) (by simp)
  | next p =>
    obtain ⟨a1, hn, he⟩ := Option.map_eq_some_iff.1 hs
    cases he
    exact h.next hn
  | kill p =>
    cases hs
    exact (h.kill p).event (.kill p) (by simp) (by simp)

end Editor

/-! ## What the ring holds -/

/-- The ring of `input`, from the read index to the edit index. -/
def Input.ring (i : Input) : Ring UInt8 INPUT_BUF := ⟨i.buf, i.r, i.e⟩

/-- The ring holds the queue and then the pending line, and the write index is between them. -/
structure Holds (i : Input) (queue pending : List UInt8) : Prop where
  items : i.ring.items = queue ++ pending
  w_eq : i.w = i.r + ofNat queue.length
  le : (queue ++ pending).length ≤ INPUT_BUF

namespace Holds

variable {i : Input} {q d : List UInt8}

variable (h : Holds i q d)

include h

theorem count : i.ring.count = (q ++ d).length := by
  rw [← Ring.length_items, h.items]

theorem e_sub_r : (i.e - i.r).toNat = (q ++ d).length := h.count

theorem w_sub_r : (i.w - i.r).toNat = q.length := by
  have hq : q.length < 2 ^ 32 := by
    have := h.le
    simp only [length_append, INPUT_BUF] at this
    omega
  have hsub : i.w - i.r = ofNat q.length := by
    rw [h.w_eq]
    grind
  rw [hsub, toNat_ofNat_of_lt' hq]

theorem r_eq_w : i.r = i.w ↔ q = [] := by
  rw [← length_eq_zero_iff, ← h.w_sub_r]
  constructor
  · intro hr
    rw [hr, UInt32.sub_self]
    rfl
  · intro h0
    have h0 : i.w - i.r = 0 := UInt32.toNat_inj.1 h0
    grind

theorem e_eq_w : i.e = i.w ↔ d = [] := by
  have he := h.e_sub_r
  rw [length_append] at he
  rw [← length_eq_zero_iff]
  constructor
  · intro hw
    rw [hw, h.w_sub_r] at he
    omega
  · intro h0
    rw [h0, Nat.add_zero, ← h.w_sub_r] at he
    have he : i.e - i.r = i.w - i.r := UInt32.toNat_inj.1 he
    grind

omit h

/-- The read index goes over the head of the queue. -/
theorem take {c : UInt8} (h : Holds i (c :: q) d) :
    i.buf (Ring.place i.r) = c ∧ Holds { i with r := i.r + 1 } q d := by
  have hne : i.ring.count ≠ 0 := by
    rw [h.count]
    simp
  have hpop := i.ring.items_pop hne
  rw [h.items, cons_append] at hpop
  obtain ⟨hc, hrest⟩ := cons.inj hpop
  refine ⟨hc.symm, hrest.symm, ?_, ?_⟩
  · change i.w = i.r + 1 + ofNat q.length
    rw [h.w_eq, length_cons, ofNat_add]
    grind
  · exact Nat.le_of_succ_le h.le

/-- The last pending byte is before the edit index. -/
theorem back {c : UInt8} (h : Holds i q (d ++ [c])) :
    i.buf (Ring.place (i.e - 1)) = c ∧ Holds { i with e := i.e - 1 } q d := by
  have hne : i.ring.count ≠ 0 := by
    rw [h.count]
    simp
  have hback := i.ring.items_unpush hne
  rw [h.items, ← append_assoc] at hback
  obtain ⟨hrest, hc⟩ := append_inj' hback rfl
  refine ⟨(cons.inj hc).1.symm, hrest.symm, h.w_eq, ?_⟩
  have := h.le
  simp only [length_append] at this ⊢
  omega

/-- A byte is stored at the edit index. -/
theorem push (h : Holds i q d) (hlen : (q ++ d).length < INPUT_BUF) (c : UInt8) :
    Holds { i with buf := Function.update i.buf (Ring.place i.e) c, e := i.e + 1 } q
      (d ++ [c]) := by
  refine ⟨?_, h.w_eq, ?_⟩
  · have hpush := i.ring.items_push c (by rw [h.count]; exact hlen) (by decide) (by decide)
    rw [h.items, append_assoc] at hpush
    exact hpush
  · rw [← append_assoc, length_append]
    exact hlen

/-- The pending line is committed. -/
theorem commit (h : Holds i q d) : Holds { i with w := i.e } (q ++ d) [] := by
  refine ⟨by rw [append_nil]; exact h.items, ?_, by rw [append_nil]; exact h.le⟩
  change i.e = i.r + ofNat (q ++ d).length
  rw [← h.count]
  exact i.ring.nwrite_eq

/-- Killing the line removes the pending bytes. -/
theorem killLine (h : Holds i q d) (hd : NL ∉ d) : Holds i.killLine q [] := by
  induction d using reverseRecOn generalizing i with
  | nil =>
    rw [Input.killLine, if_neg fun hc => hc.1 (h.e_eq_w.2 rfl)]
    exact h
  | append_singleton d c ih =>
    obtain ⟨hc, hback⟩ := h.back
    rw [mem_append, mem_singleton, not_or] at hd
    have hne : i.e ≠ i.w := fun he => by
      have := h.e_eq_w.1 he
      simp at this
    rw [Input.killLine, if_pos ⟨hne, by rw [hc]; exact Ne.symm hd.2⟩]
    exact ih hback hd.1

/-- The ring is full where the edit index is `INPUT_BUF` past the read index. -/
theorem full_iff (h : Holds i q d) : i.e = i.r + ofNat INPUT_BUF ↔ (q ++ d).length = INPUT_BUF := by
  rw [← h.count]
  exact (i.ring.count_eq (by decide)).symm

/-- A byte that there is room for is appended as the editor appends it. -/
theorem append {a : Editor P} (h : Holds i a.queue a.pending)
    (hlen : (a.queue ++ a.pending).length < INPUT_BUF) (c : UInt8) :
    Holds (i.append c) (a.append c).queue (a.append c).pending := by
  have hpush := h.push hlen c
  unfold Input.append Editor.append
  dsimp only
  by_cases hc : c = NL ∨ c = CTRL_D ∨ (a.queue ++ (a.pending ++ [c])).length = INPUT_BUF
  · rw [if_pos (by rwa [hpush.full_iff]), if_pos hc]
    exact hpush.commit
  · rw [if_neg (by rwa [hpush.full_iff]), if_neg hc]
    exact hpush

/-- Backspace removes the last pending byte. -/
theorem backspace (h : Holds i q d) :
    Holds (if i.e ≠ i.w then { i with e := i.e - 1 } else i) q d.dropLast := by
  rcases eq_nil_or_concat' d with rfl | ⟨d, c, rfl⟩
  · rw [if_neg (not_not_intro (h.e_eq_w.2 rfl))]
    exact h
  · rw [if_pos (fun he => by simpa using h.e_eq_w.1 he), dropLast_concat]
    exact h.back.2

/-- **A handler edits and commits as the editor does.** -/
theorem intr {a : Editor P} (h : Holds i a.queue a.pending) (hd : NL ∉ a.pending) (c : UInt8) :
    Holds (i.intr c) (a.type c).queue (a.type c).pending := by
  have hroom : i.e - i.r < ofNat INPUT_BUF ↔ (a.queue ++ a.pending).length < INPUT_BUF := by
    rw [lt_iff_toNat_lt, h.e_sub_r]
    rfl
  unfold Input.intr Editor.type
  by_cases hP : c = CTRL_P
  · rw [if_pos hP, if_pos (.inl hP)]
    exact h
  by_cases h0 : c = 0
  · subst h0
    exact h
  rw [if_neg hP, if_neg (not_or_intro hP h0)]
  by_cases hU : c = CTRL_U
  · rw [if_pos hU, if_pos hU]
    exact h.killLine hd
  rw [if_neg hU, if_neg hU]
  by_cases hH : c = CTRL_H ∨ c = DEL
  · rw [if_pos hH, if_pos hH]
    exact h.backspace
  rw [if_neg hH, if_neg hH]
  by_cases hlen : (a.queue ++ a.pending).length < INPUT_BUF
  · rw [if_pos ⟨h0, hroom.2 hlen⟩, if_pos hlen]
    exact h.append hlen _
  · rw [if_neg fun hc => hlen (hroom.1 hc.2), if_neg hlen]
    exact h

end Holds

/-! ## The simulation -/

/-- The read that a thread is in, as the editor sees it. -/
def Thread.reading : Thread → Option (ℤ × List UInt8)
  | read _ _ .rel => none
  | read n got _ => some (n, got)
  | _ => none

/-- The thread has gone over a `^D` that it is to give back. -/
def Thread.atEof : Thread → Bool
  | read _ _ .eof => true
  | _ => false

/-- **The state of the threads stands for a state of the editor.** While a reader is about to give a
`^D` back, the read index is one ahead. -/
structure Rep (s : State P) (a : Editor P) : Prop where
  locks : Locks s
  input : (∀ p, (s.thread p).atEof = false) → Holds s.input a.queue a.pending
  eof : ∀ p n got, s.thread p = .read n got .eof →
    Holds { s.input with r := s.input.r - 1 } a.queue a.pending ∧
      (got.length : ℤ) < n ∧ got ≠ [] ∧ a.queue.head? = some CTRL_D
  reading : ∀ p, (s.thread p).reading = a.reading p
  killed : s.killed = a.killed
  log : s.log = a.log

theorem Rep.init : Rep (State.init : State P) Editor.init where
  locks := locks_init
  input _ := ⟨by simp [Ring.items, Ring.count, Input.ring, State.init, Editor.init], rfl, by
    simp [Editor.init]⟩
  eof _ _ _ h := by cases h
  reading _ := rfl
  killed := rfl
  log := rfl

variable {s s' : State P}

/-- Only a thread with the lock gives a `^D` back. -/
theorem Thread.atEof_eq_false (h : t.holds = false) : t.atEof = false := by
  cases t with
  | read n got a =>
    cases a with
    | eof => cases h
    | _ => rfl
  | _ => rfl

/-- Only the thread with the lock can be giving a `^D` back. -/
theorem Locks.ne_eof (h : Locks s) (hp : (s.thread p).holds = true) {q : P} (hq : q ≠ p) (n : ℤ)
    (got : List UInt8) : s.thread q ≠ .read n got .eof := fun ht => by
  have hf := Held.eq_false h (h.lock_eq hp) hq
  rw [ht] at hf
  cases hf

variable (h : Rep s a)

include h

/-- Where the thread with the lock does not give a `^D` back, the ring holds what it should. -/
theorem Rep.holds (hp : (s.thread p).holds = true)
    (he : (s.thread p).atEof = false) : Holds s.input a.queue a.pending := by
  refine h.input fun q => ?_
  by_cases hq : q = p
  · rw [hq, he]
  · exact Thread.atEof_eq_false (Held.eq_false h.locks (h.locks.lock_eq hp) hq)

/-- The indices are in order while `cons.lock` is free. -/
theorem Rep.ordered (hl : s.lock = none) :
    (s.input.w - s.input.r).toNat ≤ (s.input.e - s.input.r).toNat ∧
      (s.input.e - s.input.r).toNat ≤ INPUT_BUF := by
  have hfree : Held Thread.holds s.thread none := hl ▸ h.locks
  have hinput := h.input fun p => Thread.atEof_eq_false (hfree.eq_false_of_none p)
  rw [hinput.w_sub_r, hinput.e_sub_r]
  exact ⟨by rw [length_append]; omega, hinput.le⟩

/-- `Rep` after thread `p` has gone on as `t`, which is not about to give a `^D` back. -/
theorem Rep.update (hlocks : Locks s') (ht : t.atEof = false)
    (hthread : s'.thread = Function.update s.thread p t)
    (hreading : a'.reading = Function.update a.reading p t.reading)
    (hkilled : s'.killed = a'.killed) (hlog : s'.log = a'.log)
    (hinput : (∀ q, q ≠ p → (s.thread q).atEof = false) → Holds s'.input a'.queue a'.pending)
    (heof : ∀ q, q ≠ p → ∀ n got, s.thread q = .read n got .eof →
      s'.input = s.input ∧ a'.queue = a.queue ∧ a'.pending = a.pending) : Rep s' a' where
  locks := hlocks
  input he := hinput fun q hq => by
    have := he q
    rwa [hthread, update_of_ne hq] at this
  eof q n got hq := by
    rw [hthread] at hq
    by_cases hqp : q = p
    · rw [hqp, update_self] at hq
      rw [hq] at ht
      cases ht
    · rw [update_of_ne hqp] at hq
      obtain ⟨hi, hqu, hpe⟩ := heof q hqp n got hq
      rw [hi, hqu, hpe]
      exact h.eof q n got hq
  reading q := by
    rw [hthread, hreading]
    by_cases hq : q = p
    · rw [hq, update_self, update_self]
    · rw [update_of_ne hq, update_of_ne hq]
      exact h.reading q
  killed := hkilled
  log := hlog

/-- A step that leaves `input` alone, of a thread that is not about to give a `^D` back. -/
theorem Rep.goto {l : Option P} {log : List (Event P)}
    (hlocks : Locks { s.goto p t with lock := l, log := log })
    (hp : (s.thread p).atEof = false) (ht : t.atEof = false) :
    Rep { s.goto p t with lock := l, log := log }
      { a with reading := Function.update a.reading p t.reading, log := log } :=
  h.update hlocks ht rfl rfl h.killed rfl
    (fun he => h.input fun q => by
      by_cases hq : q = p
      · rw [hq, hp]
      · exact he q hq)
    fun _ _ _ _ _ => ⟨rfl, rfl, rfl⟩

/-- The read of the thread with the lock ends. The index and the queue may have moved on by then. -/
theorem Rep.finish (hp : (s.thread p).holds = true) {r : ℤ} {i : Input} {q : List UInt8}
    {log log' : List (Event P)} (hi : Holds i q a.pending) (hlog : log = log')
    (hlocks : Locks (({ s with input := i, log := log } : State P).finish p n got r)) :
    Rep (({ s with input := i, log := log } : State P).finish p n got r)
      (({ a with queue := q, log := log' } : Editor P).stop p n got r) :=
  h.update hlocks rfl rfl rfl h.killed (by rw [← hlog]; rfl) (fun _ => hi)
    fun _ hq _ _ ht => absurd ht (h.locks.ne_eof hp hq _ _)

/-- A read goes over a `^D` that it is to give back. -/
theorem Rep.over (hp : s.thread p = .read n got .loop)
    (hlocks : Locks (({ s with input := { s.input with r := s.input.r + 1 } } : State P).goto p
      (.read n got .eof)))
    (hinput : Holds s.input a.queue a.pending)
    (hn : (got.length : ℤ) < n) (hgot : got ≠ []) (hq : a.queue.head? = some CTRL_D) :
    Rep (({ s with input := { s.input with r := s.input.r + 1 } } : State P).goto p
      (.read n got .eof)) a where
  locks := hlocks
  input he := by
    have := he p
    simp [State.goto, Thread.atEof] at this
  eof q m got' ht := by
    have hback : s.input.r + 1 - 1 = s.input.r := by grind
    by_cases hqp : q = p
    · subst hqp
      simp only [State.goto, update_self, Thread.read.injEq, and_true] at ht
      obtain ⟨rfl, rfl⟩ := ht
      refine ⟨?_, hn, hgot, hq⟩
      simpa only [State.goto, hback] using hinput
    · simp only [State.goto, update_of_ne hqp] at ht
      exact absurd ht (h.locks.ne_eof (by rw [hp]; rfl) hqp _ _)
  reading q := by
    rw [← h.reading q]
    by_cases hqp : q = p
    · subst hqp
      simp [State.goto, hp, Thread.reading]
    · simp [State.goto, hqp]
  killed := h.killed
  log := h.log

/-- A read that is not at its end takes the head of the queue, or goes over a `^D` that it is to
give back. -/
theorem Rep.take {q : List UInt8} {c : UInt8} (hp : s.thread p = .read n got .loop)
    (hn : (got.length : ℤ) < n) (hq : a.queue = c :: q) (hlocks : Locks (s.take p n got)) :
    Rep (s.take p n got) a ∨ Rep (s.take p n got) (a.receive p n got c q) := by
  have hold : (s.thread p).holds = true := by rw [hp]; rfl
  have hinput := h.holds hold (by rw [hp]; rfl)
  have hheld := hinput
  rw [hq] at hinput
  obtain ⟨hc, hnext⟩ := hinput.take
  revert hlocks
  unfold State.take Editor.receive
  rw [hc]
  dsimp only
  have hlog : s.log ++ [.took p c] = a.log ++ [.took p c] := by rw [h.log]
  by_cases heof : c = CTRL_D
  · rw [if_pos heof, if_pos heof]
    by_cases hgot : got ≠ []
    · rw [if_pos hgot, if_pos hgot]
      exact fun hlocks => .inl (h.over hp hlocks hheld hn hgot (by rw [hq, heof]; rfl))
    · rw [if_neg hgot, if_neg hgot]
      obtain rfl := not_ne_iff.1 hgot
      exact fun hlocks => .inr (h.finish hold hnext hlog hlocks)
  · rw [if_neg heof, if_neg heof]
    by_cases hl : c = NL
    · rw [if_pos hl, if_pos hl]
      exact fun hlocks => .inr (h.finish hold hnext hlog hlocks)
    · rw [if_neg hl, if_neg hl]
      exact fun hlocks => .inr (h.update hlocks rfl rfl rfl h.killed hlog (fun _ => hnext)
        fun _ hq _ _ ht => absurd ht (h.locks.ne_eof hold hq _ _))

omit h

/-- The steps of the editor that a step of the threads stands for: none or one. -/
def Stutters (a a' : Editor P) : Prop := a' = a ∨ ∃ e, a.step e = some (.ok a')

theorem stutters_next (p : P) (h : a.next p = some a') : Stutters a a' :=
  .inr ⟨.next p, by rw [Editor.step, h]; rfl⟩

/-- What the editor sees of a thread at the tests of the loops. -/
theorem Rep.at_loop (h : Rep s a) (hp : s.thread p = .read n got .loop) :
    (s.thread p).holds = true ∧ Holds s.input a.queue a.pending ∧
      a.reading p = some (n, got) := by
  have hold : (s.thread p).holds = true := by rw [hp]; rfl
  exact ⟨hold, h.holds hold (by rw [hp]; rfl), by rw [← h.reading, hp]; rfl⟩

/-- A step that the editor does not see. -/
theorem Rep.quiet (h : Rep s a) {l : Option P} (hq : Quiet s p t l) :
    Rep { s.goto p t with lock := l } a := by
  have hlocks := h.locks.step (.quiet hq)
  have hsame : (s.thread p).atEof = false ∧ t.atEof = false ∧ t.reading = (s.thread p).reading := by
    cases hq with
    | consoleintr hp | intrLock hp | sleep hp | rel hp | intrEnd hp =>
      rw [hp]
      exact ⟨rfl, rfl, rfl⟩
    | lock hp ha =>
      rw [hp]
      rcases ha with rfl | rfl <;> exact ⟨rfl, rfl, rfl⟩
  obtain ⟨hp, ht, hr⟩ := hsame
  have hrep := h.goto hlocks hp ht
  rw [hr, h.reading p, Function.update_eq_self] at hrep
  have hlog := h.log
  cases a
  cases hlog
  exact hrep

/-- **Every step of the threads is a step of the editor with the same events, or none.** -/
theorem Rep.step (h : Rep s a) (ha : a.Delivers) (hm : Moves s s') :
    ∃ a', Stutters a a' ∧ Rep s' a' := by
  have hlocks := h.locks.step hm
  cases hm with
  | quiet hq => exact ⟨a, .inl rfl, h.quiet hq⟩
  | @call p n hp =>
    have hr : a.reading p = none := by rw [← h.reading, hp]; rfl
    refine ⟨_, .inr ⟨.call p n, if_pos hr⟩, ?_⟩
    rw [← h.log]
    exact h.goto hlocks (by rw [hp]; rfl) rfl
  | @killed p n got hp hn hr hk =>
    obtain ⟨hold, hinput, hread⟩ := h.at_loop hp
    refine ⟨a.stop p n got (-1), stutters_next p ?_, h.finish hold hinput h.log hlocks⟩
    rw [h.killed] at hk
    simp only [Editor.next, hread, if_neg (not_le.2 hn), hinput.r_eq_w.1 hr, if_pos hk]
  | @full p n got hp hn =>
    obtain ⟨hold, hinput, hread⟩ := h.at_loop hp
    refine ⟨a.stop p n got got.length, stutters_next p ?_, h.finish hold hinput h.log hlocks⟩
    simp only [Editor.next, hread, if_pos hn]
  | @take p n got hp hn hr =>
    obtain ⟨-, hinput, hread⟩ := h.at_loop hp
    obtain ⟨c, q, hq⟩ := exists_cons_of_ne_nil (mt hinput.r_eq_w.2 hr)
    rcases h.take hp hn hq hlocks with hrep | hrep
    · exact ⟨a, .inl rfl, hrep⟩
    · refine ⟨_, stutters_next p ?_, hrep⟩
      simp only [Editor.next, hread, if_neg (not_le.2 hn), hq]
  | @eof p n got hp =>
    obtain ⟨hinput, hn, hgot, hq⟩ := h.eof p n got hp
    have hread : a.reading p = some (n, got) := by rw [← h.reading, hp]; rfl
    refine ⟨a.stop p n got got.length, stutters_next p ?_,
      h.finish (by rw [hp]; rfl) hinput h.log hlocks⟩
    obtain ⟨q, hq⟩ := head?_eq_some_iff.1 hq
    simp only [Editor.next, hread, if_neg (not_le.2 hn), hq, Editor.receive, if_pos hgot]
    rfl
  | @char p c hp =>
    have hinput := h.holds (show (s.thread p).holds = true by rw [hp]; rfl) (by rw [hp]; rfl)
    refine ⟨_, .inr ⟨.key c, rfl⟩, h.locks, fun _ => hinput.intr ha.pending c, ?_, ?_, ?_, ?_⟩
    · intro q n got ht
      by_cases hq : q = p
      · rw [hq, hp] at ht
        cases ht
      · exact absurd ht (h.locks.ne_eof (by rw [hp]; rfl) hq n got)
    · exact fun q => (h.reading q).trans (congrFun (a.type_frame c).1.symm q)
    · exact h.killed.trans (a.type_frame c).2.1.symm
    · exact congrArg (· ++ [.key c]) (h.log.trans (a.type_frame c).2.2.symm)
  | @kill p =>
    refine ⟨_, .inr ⟨.kill p, rfl⟩, ?_⟩
    exact { h with
      killed := by rw [h.killed]
      log := by rw [h.log] }

/-- **The console is a line editor.** In any interleaving of handlers and reads, the indices are in
order whenever `cons.lock` is free, and the run is one of the editor, with the same events: the same
characters, calls, bytes taken and returns, in the same order. There the committed bytes are
delivered in order, each once. -/
theorem console_refines {s : State P} (h : Reaches State.step State.init s) :
    (s.lock = none → (s.input.w - s.input.r).toNat ≤ (s.input.e - s.input.r).toNat ∧
      (s.input.e - s.input.r).toNat ≤ INPUT_BUF) ∧
    ∃ a : Editor P, Reaches Editor.step Editor.init a ∧ a.log = s.log ∧ Rep s a ∧ a.Delivers := by
  have hinv : ∃ a : Editor P, Reaches Editor.step Editor.init a ∧ Rep s a ∧ a.Delivers := by
    refine h.inv (I := fun s => ∃ a : Editor P, Reaches Editor.step Editor.init a ∧ Rep s a ∧
      a.Delivers) ?_ ⟨Editor.init, .refl, .init, .init⟩
    rintro s act s' ⟨a, hreach, hrep, ha⟩ hs
    obtain ⟨a', hst, hrep'⟩ := hrep.step ha (moves_step hs)
    rcases hst with rfl | ⟨e, he⟩
    · exact ⟨a', hreach, hrep', ha⟩
    · exact ⟨a', hreach.tail ⟨e, he⟩, hrep', ha.step he⟩
  obtain ⟨a, hreach, hrep, ha⟩ := hinv
  exact ⟨hrep.ordered, a, hreach, hrep.log.symm, hrep, ha⟩

/-- Two characters, a `^D` and a newline, typed while a read for three bytes waits. -/
def typeAndRead : List (Act Bool) :=
  [.consoleread true 3, .go true, .go true, .consoleintr false, .go false,
    .getc false (some 97), .getc false (some 98), .getc false (some CTRL_D),
    .getc false (some CR), .getc false none,
    .go true, .go true, .go true, .go true, .go true, .go true]

/-- The hypotheses of `console_refines` are satisfiable: the read returns the two characters, and
leaves the `^D`. -/
theorem console_refines_eof : ∃ s : State Bool,
    runSteps State.step State.init typeAndRead = some s ∧
    s.log.getLast? = some (.ret true 3 2 [97, 98]) ∧ (s.input.w - s.input.r).toNat = 2 ∧
    ∃ a : Editor Bool, a.log = s.log ∧ a.Delivers := by
  have hrun : ∃ s, runSteps step init typeAndRead = some s ∧
    s.log.getLast? = some (.ret true 3 2 [97, 98]) ∧ (s.input.w - s.input.r).toNat = 2 := by
    refine ⟨_, rfl, ?_, ?_⟩ <;> decide +kernel
  obtain ⟨s, hs, hlog, hw⟩ := hrun
  obtain ⟨-, a, -, hl, -, ha⟩ := console_refines (reaches_of_runSteps hs)
  exact ⟨s, hs, hlog, hw, a, hl, ha⟩

end Xv6.Console
