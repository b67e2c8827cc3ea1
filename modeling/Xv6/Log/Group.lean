/-
# Group commit

`log.c`: `commit` step by step, run by the last `end_op` without `log.lock`
while other processes call `begin_op`, `log_write` and `end_op`.  `write_log`,
`write_head` and `install_trans` read `log.lh` anew at every step, so that
nothing but the counters keeps another process from changing it under them.

The state keeps, beside the log and the processes, what every finished commit
has written and what every finished operation has logged.  `group_commit`: a
commit runs with no operation in progress, and all blocks of an operation are
written by the one commit that follows it.
-/

import Xv6.Log.Admission
import Xv6.Lib.Run

namespace Xv6.Log

open Function Lib List Option

/-- Where a process is in `commit`. -/
inductive Stage where
  /-- At the test `log.lh.n > 0`. -/
  | start
  /-- In the loop of `write_log`. -/
  | writeLog (tail : ℕ)
  /-- At the `write_head` that commits. -/
  | writeHead
  /-- In the loop of `install_trans`. -/
  | installTrans (tail : ℕ)
  /-- At `log.lh.n = 0`. -/
  | clear
  /-- At the `write_head` that erases the transaction. -/
  | eraseHead
  /-- Returned from `commit`. -/
  | done
deriving DecidableEq

/-- The block numbers one call of `commit` has written: those copied to the log,
those named in the header on disk, those copied to their home locations. -/
structure Commit where
  logged : List UInt32
  head : List UInt32
  installed : List UInt32

/-- An operation that has returned from `end_op`: the blocks it has passed to
`log_write`, and the number of commits finished at its `begin_op` and at its
`end_op`. -/
structure Op where
  blocks : Finset UInt32
  begun : ℕ
  ended : ℕ

/-- The log and its processes with the stage of each `commit`, the header on
disk, and the history of commits and operations. -/
structure Group (P : Type*) where
  sys : Sys P
  stage : P → Stage
  head : List UInt32
  work : P → Commit
  commits : List Commit
  begun : P → ℕ
  ended : List Op

set_option linter.unusedSectionVars false

variable {P : Type*} [DecidableEq P] {sb : Fs.Superblock} {cs : List Commit} {l : Sys P}

namespace Group

/-- The start: the log as `initlog` leaves it. -/
def init (sb : Fs.Superblock) : Group P :=
  ⟨Sys.init sb, fun _ => .start, [], fun _ => ⟨[], [], []⟩, [], fun _ => 0, []⟩

variable (s : Group P)

/-- Process `p` goes on to `g`, its commit having written `c`. -/
def goOn (p : P) (g : Stage) (c : Commit) : Group P :=
  { s with stage := update s.stage p g, work := update s.work p c }

/-- Process `p` has nothing left to write: `log.lh.n` becomes (or is) 0. -/
def close (p : P) (g : Stage) : Group P :=
  { s with
    sys := s.sys.move p .committed s.sys.log.committed
    stage := update s.stage p g
    commits := s.commits ++ [s.work p] }

/-- One step of `commit` in process `p`. -/
def commitStep (p : P) : Option (Group P) :=
  match s.sys.pc p, s.stage p with
  | .committing, .start =>
      if 0 < s.sys.log.lh.length then some (s.goOn p (.writeLog 0) (s.work p))
      else some (s.close p .done)
  | .committing, .writeLog tail =>
      match s.sys.log.lh[tail]? with
      | some b =>
          some (s.goOn p (.writeLog (tail + 1))
            { s.work p with logged := (s.work p).logged ++ [b] })
      | none => some (s.goOn p .writeHead (s.work p))
  | .committing, .writeHead =>
      some { s.goOn p (.installTrans 0) { s.work p with head := s.sys.log.lh } with
        head := s.sys.log.lh }
  | .committing, .installTrans tail =>
      match s.sys.log.lh[tail]? with
      | some b =>
          some (s.goOn p (.installTrans (tail + 1))
            { s.work p with installed := (s.work p).installed ++ [b] })
      | none => some (s.goOn p .clear (s.work p))
  | .committing, .clear => some (s.close p .eraseHead)
  | .committed, .eraseHead => some { s.goOn p .done (s.work p) with head := s.sys.log.lh }
  | _, _ => none

/-- The state after a step of the log's processes to `sys`, with the history. -/
def after (a : Act P) (sys : Sys P) : Group P :=
  match a with
  | .beginOp p => { s with sys, begun := update s.begun p s.commits.length }
  | .endOp p =>
      { s with
        sys
        stage := update s.stage p .start
        work := update s.work p ⟨[], [], []⟩
        ended := s.ended ++ [⟨(s.sys.pc p).passed, s.begun p, s.commits.length⟩] }
  | _ => { s with sys }

/-- The effect of a step, as `Log.step` gives it; `commit` is one step of its
own, and `log.committing = 0` waits for its return. -/
def step : Act P → Option (Except String (Group P))
  | .commit p => (s.commitStep p).map .ok
  | .finish p =>
      if s.stage p = .done then (Log.step s.sys (.finish p)).map (·.map (s.after (.finish p)))
      else none
  | a => (Log.step s.sys a).map (·.map (s.after a))

/-- The states reached from the start, whatever the order of the steps. -/
def Reachable (sb : Fs.Superblock) (s : Group P) : Prop := Reaches step (init sb) s

end Group

/-! ### One process commits, alone -/

section Alone

variable [Fintype P] {s : Sys P}

/-- While a process is in its commit, `committing` is set. -/
theorem Inv.committing_of_busy (hi : Inv s) {p : P} (hp : (s.pc p).busy = 1) :
    s.log.committing = true := by
  have h : (s.pc p).busy ≤ s.busy := le_sum Pc.busy s.pc p
  rw [hi.busy, hp] at h
  exact Bool.toNat_eq_one.1 (le_antisymm (Bool.toNat_le _) h)

/-- While `committing` is set, no process is in an operation. -/
theorem Inv.active_eq_zero (hi : Inv s) (hc : s.log.committing = true) (q : P) :
    (s.pc q).active = 0 := by
  have h : (s.pc q).active ≤ s.active := le_sum Pc.active s.pc q
  have ho := hi.outstanding
  have ha := hi.alone hc
  omega

/-- Two processes in their commit are the same. -/
theorem Inv.busy_unique (hi : Inv s) {p q : P} (hp : (s.pc p).busy = 1)
    (hq : (s.pc q).busy = 1) : q = p := by
  by_contra hne
  have hsum := sum_update Pc.busy s.pc p .out
  have h : (update s.pc p .out q).busy ≤ _ :=
    le_sum Pc.busy (update s.pc p .out) q
  have hb : ∑ r, (s.pc r).busy = s.log.committing.toNat := hi.busy
  have hle := Bool.toNat_le s.log.committing
  rw [update_of_ne hne, hq] at h
  rw [hp, hb] at hsum
  simp only [Pc.busy] at hsum h
  omega

/-- What operations may still add is at most `MAXOPBLOCKS` for each. -/
theorem remaining_le (s : Sys P) : s.remaining ≤ s.active * MAXOPBLOCKS := by
  unfold Sys.remaining Sys.active
  rw [Finset.sum_mul]
  refine Finset.sum_le_sum fun p _ => ?_
  rcases s.pc p with _ | S | ⟨S, b⟩ | _ | _ <;> simp only [Pc.remaining, Pc.active] <;> omega

/-- Logged blocks and reservations fit in `lh.block`. -/
theorem reserved_le {s' : Sys P} {a : Act P} (hi : Inv s) (h : step s a = some (.ok s'))
    (hr : s.log.lh.length + s.remaining ≤ LOGSIZE) : s'.log.lh.length + s'.remaining ≤ LOGSIZE := by
  rcases reserved_step hi h with hle | ⟨⟨p, rfl⟩, hlh, hrem⟩
  · omega
  · have hle := remaining_le s
    have ho := hi.outstanding
    obtain ⟨_, _, _, _, -, ⟨-, hroom⟩, -⟩ := step_eq_ok h
    rw [hlh, hrem]
    rw [ho] at hroom
    simp only [MAXOPBLOCKS, LOGSIZE] at *
    omega

end Alone

/-- The blocks in `lh` stay distinct. -/
theorem nodup_record {l : State} (h : l.lh.Nodup) (b : UInt32) : (l.record b).lh.Nodup := by
  unfold State.record
  dsimp only
  split_ifs with hb
  · exact h
  · exact nodup_append.2 ⟨h, nodup_singleton b, fun x hx y hy => by
      rw [mem_singleton.1 hy]
      exact fun he => hb (he ▸ hx)⟩

namespace Group

/-! ### The invariant -/

/-- What a commit has written when it is at a stage, `lh` being what it found. -/
def Written (lh : List UInt32) : Stage → Commit → Prop
  | .start, c => c = ⟨[], [], []⟩
  | .writeLog tail, c => c = ⟨lh.take tail, [], []⟩
  | .writeHead, c => c = ⟨lh, [], []⟩
  | .installTrans tail, c => c = ⟨lh, lh, lh.take tail⟩
  | .clear, c => c = ⟨lh, lh, lh⟩
  | _, _ => False

/-- Where the blocks of a finished operation are: written by the commit that
followed it, or, before that, in `lh`. -/
def Kept (commits : List Commit) (lh : List UInt32) (o : Op) : Prop :=
  match commits[o.begun]? with
  | some c => ∀ b ∈ o.blocks, b ∈ c.logged
  | none => ∀ b ∈ o.blocks, b ∈ lh

/-- The invariant of group commit. -/
structure Inv [Fintype P] (s : Group P) : Prop where
  log : Log.Inv s.sys
  room : s.sys.log.lh.length + s.sys.remaining ≤ LOGSIZE
  nodup : s.sys.log.lh.Nodup
  written : ∀ p, s.sys.pc p = .committing → Written s.sys.log.lh (s.stage p) (s.work p)
  begun : ∀ p, (s.sys.pc p).active = 1 → s.begun p = s.commits.length
  whole : ∀ c ∈ s.commits, c.head = c.logged ∧ c.installed = c.logged
  ended : ∀ o ∈ s.ended, o.begun = o.ended ∧ o.begun ≤ s.commits.length ∧
    Kept s.commits s.sys.log.lh o
  waiting : ∀ o ∈ s.ended, o.begun = s.commits.length →
    0 < s.sys.log.outstanding ∨ ∃ p, s.sys.pc p = .committing

variable [Fintype P] {s s' : Group P} {o : Op} {p : P} {c : Pc}

theorem inv_init : Inv (init sb : Group P) where
  log := Log.inv_init
  room := by simp [init, Sys.init, State.init, Sys.remaining, Pc.remaining]
  nodup := nodup_nil
  written _ h := by simp [init, Sys.init] at h
  begun _ h := by simp [init, Sys.init, Pc.active] at h
  whole _ h := by simp [init] at h
  ended _ h := by simp [init] at h
  waiting _ h := by simp [init] at h

/-- What is kept stays kept while `lh` grows. -/
theorem Kept.mono {l l' : List UInt32} (h : Kept cs l o) (hl : ∀ b ∈ l, b ∈ l') : Kept cs l' o := by
  unfold Kept at h ⊢
  split at h
  · exact h
  · exact fun b hb => hl b (h b hb)

/-- An operation that has just ended has its blocks in `lh`. -/
theorem Kept.of_ended {l : List UInt32} (ho : o.begun = cs.length)
    (h : ∀ b ∈ o.blocks, b ∈ l) : Kept cs l o := by
  unfold Kept
  rw [getElem?_eq_none ho.ge]
  exact h

/-- The commit that follows an operation writes what the operation has left in `lh`. -/
theorem Kept.close {l : List UInt32} (h : Kept cs l o)
    (ho : o.begun ≤ cs.length) (l' : List UInt32) : Kept (cs ++ [⟨l, l, l⟩]) l' o := by
  unfold Kept at h ⊢
  rcases ho.lt_or_eq with hlt | heq
  · rw [getElem?_append_left hlt]
    rw [getElem?_eq_getElem hlt] at h ⊢
    exact h
  · rw [getElem?_eq_none heq.ge] at h
    rw [heq, getElem?_append_right le_rfl, Nat.sub_self, getElem?_cons_zero]
    exact h

/-- Where process `q` is after `p` has moved. -/
theorem pc_move (s : Sys P) (p q : P) (c : Pc) (l : State) :
    (s.move p c l).pc q = if q = p then c else s.pc q := update_apply ..

variable (hi : Inv s)

include hi

/-- While a process commits, no process records a block. -/
theorem Inv.not_checked {q : P} (hp : s.sys.pc p = .committing)
    {S : Finset UInt32} {b : UInt32} : s.sys.pc q ≠ .checked S b := fun hq => by
  have h := hi.log.active_eq_zero (hi.log.committing_of_busy (p := p) (by rw [hp]; rfl)) q
  rw [hq] at h
  cases h

/-- A step that leaves `lh`, the commits and the processes in `commit` as they
are keeps what these processes have written. -/
theorem Inv.written_move {l : State} (hl : l.lh = s.sys.log.lh) (hc : c ≠ .committing) :
    ∀ q, (s.sys.move p c l).pc q = .committing →
      Written (s.sys.move p c l).log.lh (s.stage q) (s.work q) := by
  intro q hq
  rw [pc_move] at hq
  split_ifs at hq with hqp
  · exact absurd hq hc
  · exact hl ▸ hi.written q hq

/-- The number of commits an operation in progress has seen, after `p` has moved. -/
theorem Inv.begun_move {l : State} (hc : c.active = 1 → (s.sys.pc p).active = 1) :
    ∀ q, ((s.sys.move p c l).pc q).active = 1 → s.begun q = s.commits.length := by
  intro q hq
  rw [pc_move] at hq
  split_ifs at hq with hqp
  · exact hi.begun q (hqp ▸ hc hq)
  · exact hi.begun q hq

/-- An operation that waits for its commit still does after a step that neither
ends an operation nor closes a commit. -/
theorem Inv.waiting_move {l : State}
    (hl : s.sys.log.outstanding ≤ l.outstanding) (hp : s.sys.pc p ≠ .committing) :
    ∀ o ∈ s.ended, o.begun = s.commits.length →
      0 < l.outstanding ∨ ∃ q, (s.sys.move p c l).pc q = .committing := by
  intro o ho he
  rcases hi.waiting o ho he with h | ⟨q, hq⟩
  · exact .inl (h.trans_le hl)
  · refine .inr ⟨q, ?_⟩
    rw [pc_move, if_neg]
    · exact hq
    · rintro rfl
      exact hp hq

theorem Inv.beginOp (h : Log.step s.sys (.beginOp p) = some (.ok l)) :
    Inv (s.after (.beginOp p) l) := by
  have hlog := inv_step hi.log h
  have hroom := reserved_le hi.log h hi.room
  obtain ⟨_, _, _, _, hout, ⟨-, -⟩, rfl⟩ := step_eq_ok h
  refine ⟨hlog, hroom, hi.nodup, hi.written_move rfl (by simp), fun q hq => ?_, hi.whole,
    hi.ended, hi.waiting_move (Int.le.intro 1 rfl) (by simp [hout])⟩
  simp only [after, update_apply] at hq ⊢
  rw [pc_move] at hq
  split_ifs at hq ⊢
  · rfl
  · exact hi.begun q hq

theorem Inv.check {b : UInt32}
    (h : Log.step s.sys (.check p b) = some (.ok l)) : Inv (s.after (.check p b) l) := by
  have hlog := inv_step hi.log h
  have hroom := reserved_le hi.log h hi.room
  obtain ⟨_, _, _, _, hin, ⟨S, -, -, -, -⟩, rfl⟩ := step_eq_ok h
  exact ⟨hlog, hroom, hi.nodup, hi.written_move rfl (by simp),
    hi.begun_move (by simp [hin, Pc.active]), hi.whole, hi.ended,
    hi.waiting_move le_rfl (by simp [hin])⟩

/-- Recording a block keeps the invariant: no commit is going on, and what was
in `lh` stays there. -/
theorem Inv.record (h : Log.step s.sys (.record p) = some (.ok l)) :
    Inv (s.after (.record p) l) := by
  have hlog := inv_step hi.log h
  have hroom := reserved_le hi.log h hi.room
  obtain ⟨_, _, _, _, hin, hm, rfl⟩ := step_eq_ok h
  cases hm
  refine ⟨hlog, hroom, nodup_record hi.nodup _, fun q hq => ?_,
    hi.begun_move (by simp [hin, Pc.active]), hi.whole, fun o ho => ?_,
    hi.waiting_move le_rfl (by simp [hin])⟩
  · simp only [after, pc_move] at hq
    split_ifs at hq
    exact absurd hin (hi.not_checked hq)
  · obtain ⟨h1, h2, h3⟩ := hi.ended o ho
    exact ⟨h1, h2, h3.mono fun c hc => mem_record.2 (.inl hc)⟩

/-- `end_op` keeps the invariant: its operation has seen no commit finish, and
its blocks are in `lh`. -/
theorem Inv.endOp (h : Log.step s.sys (.endOp p) = some (.ok l)) : Inv (s.after (.endOp p) l) := by
  have hlog := inv_step hi.log h
  have hroom := reserved_le hi.log h hi.room
  obtain ⟨q, _, c', l, hin, hm, rfl⟩ := step_eq_ok h
  obtain ⟨rfl, hact, hc⟩ : p = q ∧ (s.sys.pc q).active = 1 ∧ c'.active = 0 := by
    cases hm <;> exact ⟨rfl, by rw [hin]; rfl, rfl⟩
  have hlh : l.lh = s.sys.log.lh := by cases hm <;> rfl
  have hb := hi.begun p hact
  refine ⟨hlog, hroom, hlh ▸ hi.nodup, fun q hq => ?_, hi.begun_move (by simp [hc]), hi.whole,
    fun o ho => ?_, fun _ _ _ => ?_⟩
  · simp only [after, update_apply, pc_move] at hq ⊢
    split_ifs at hq ⊢
    · rfl
    · exact hlh ▸ hi.written q hq
  · rcases mem_append.1 ho with ho | ho
    · exact hlh ▸ hi.ended o ho
    · rw [mem_singleton.1 ho]
      exact ⟨hb, hb.le, .of_ended hb fun b hbS => hlh ▸ hi.log.passed p b hbS⟩
  · have hone : (s.sys.pc p).active ≤ s.sys.active := le_sum Pc.active s.sys.pc p
    have ho := hi.log.outstanding
    cases hm with
    | endLast => exact .inr ⟨p, by rw [after, pc_move, if_pos rfl]⟩
    | endOp S hcom hne =>
      refine .inl ?_
      simp only [after, Sys.move]
      omega

theorem Inv.finish (h : Log.step s.sys (.finish p) = some (.ok l)) :
    Inv (s.after (.finish p) l) := by
  have hlog := inv_step hi.log h
  have hroom := reserved_le hi.log h hi.room
  obtain ⟨_, _, _, _, hin, ⟨⟩, rfl⟩ := step_eq_ok h
  exact ⟨hlog, hroom, hi.nodup, hi.written_move rfl (by simp),
    hi.begun_move (by simp [Pc.active]), hi.whole, hi.ended,
    hi.waiting_move le_rfl (by simp [hin])⟩

/-- A step of `commit` that leaves `lh` keeps the invariant, if what the commit
has written is what belongs to its new stage. -/
theorem Inv.goOn {g : Stage} {c : Commit} (head : List UInt32)
    (hw : s.sys.pc p = .committing → Written s.sys.log.lh g c) :
    Inv { s.goOn p g c with head := head } := by
  refine ⟨hi.log, hi.room, hi.nodup, fun q hq => ?_, hi.begun, hi.whole, hi.ended, hi.waiting⟩
  simp only [Group.goOn, update_apply] at hq ⊢
  split_ifs with hqp
  · exact hw (hqp ▸ hq)
  · exact hi.written q hq

/-- The end of a commit keeps the invariant: it has written all of `lh`, with the
blocks of every operation that waits. -/
theorem Inv.close {g : Stage} (hp : s.sys.pc p = .committing)
    (hw : s.work p = ⟨s.sys.log.lh, s.sys.log.lh, s.sys.log.lh⟩) : Inv (s.close p g) := by
  have hstep : Log.step s.sys (.commit p) =
      some (.ok (s.sys.move p .committed s.sys.log.committed)) := by simp only [Log.step, hp]
  have hcom := hi.log.committing_of_busy (p := p) (by rw [hp]; rfl)
  refine ⟨inv_step hi.log hstep, reserved_le hi.log hstep hi.room, nodup_nil,
    fun q hq => ?_, fun q hq => ?_, fun c hc => ?_, fun o ho => ?_, fun o ho he => ?_⟩
  · rw [Group.close, pc_move] at hq
    split_ifs at hq with hqp
    exact absurd (hi.log.busy_unique (p := p) (q := q) (by rw [hp]; rfl) (by rw [hq]; rfl)) hqp
  · rw [Group.close, pc_move] at hq
    split_ifs at hq with hqp
    · cases hq
    · rw [hi.log.active_eq_zero hcom q] at hq
      cases hq
  · rcases mem_append.1 hc with hc | hc
    · exact hi.whole c hc
    · rw [mem_singleton.1 hc, hw]
      exact ⟨rfl, rfl⟩
  · obtain ⟨h1, h2, h3⟩ := hi.ended o ho
    refine ⟨h1, ?_, ?_⟩
    · simp only [Group.close, length_append, length_singleton]
      omega
    · simp only [Group.close, hw]
      exact h3.close h2 _
  · have := (hi.ended o ho).2.1
    simp only [Group.close, length_append, length_singleton] at he
    omega

theorem Inv.commitStep (h : s.commitStep p = some s') : Inv s' := by
  have hw := hi.written p
  unfold Group.commitStep at h
  split at h
  · rename_i hp hg
    have hw := hw hp
    simp only [hg, Written] at hw
    split_ifs at h with hn
    · cases h
      exact hi.goOn s.head fun _ => hw
    · cases h
      refine hi.close hp ?_
      have hnil : s.sys.log.lh = [] := eq_nil_of_length_eq_zero (by omega)
      rw [hnil]
      exact hw
  · rename_i tail hp hg
    have hw := hw hp
    simp only [hg, Written] at hw
    split at h
    · rename_i b hb
      cases h
      refine hi.goOn s.head fun _ => ?_
      simp only [Written, hw, take_add_one, hb, toList_some]
    · rename_i hb
      cases h
      refine hi.goOn s.head fun _ => ?_
      rw [take_of_length_le (getElem?_eq_none_iff.1 hb)] at hw
      exact hw
  · rename_i hp hg
    have hw := hw hp
    simp only [hg, Written] at hw
    cases h
    refine hi.goOn _ fun _ => ?_
    simp only [Written, hw, take_zero]
  · rename_i tail hp hg
    have hw := hw hp
    simp only [hg, Written] at hw
    split at h
    · rename_i b hb
      cases h
      refine hi.goOn s.head fun _ => ?_
      simp only [Written, hw, take_add_one, hb, toList_some]
    · rename_i hb
      cases h
      refine hi.goOn s.head fun _ => ?_
      rw [take_of_length_le (getElem?_eq_none_iff.1 hb)] at hw
      exact hw
  · rename_i hp hg
    cases h
    have hw := hw hp
    simp only [hg, Written] at hw
    exact hi.close hp hw
  · rename_i hp hg
    cases h
    exact hi.goOn _ fun hc => by rw [hp] at hc; cases hc
  · cases h

theorem Inv.step {a : Act P} (h : s.step a = some (.ok s')) : Inv s' := by
  have hmap : ∀ {a : Act P}, (Log.step s.sys a).map (·.map (s.after a)) = some (.ok s') →
      ∃ l, Log.step s.sys a = some (.ok l) ∧ s.after a l = s' := by
    intro a h
    obtain ⟨r, hr, he⟩ := map_eq_some_iff.1 h
    rcases r with m | l
    · cases he
    · exact ⟨l, hr, Except.ok.inj he⟩
  cases a with
  | beginOp p =>
    obtain ⟨l, hl, rfl⟩ := hmap h
    exact hi.beginOp hl
  | check p b =>
    obtain ⟨l, hl, rfl⟩ := hmap h
    exact hi.check hl
  | record p =>
    obtain ⟨l, hl, rfl⟩ := hmap h
    exact hi.record hl
  | endOp p =>
    obtain ⟨l, hl, rfl⟩ := hmap h
    exact hi.endOp hl
  | commit p =>
    obtain ⟨s1, hs, he⟩ := map_eq_some_iff.1 h
    cases he
    exact hi.commitStep hs
  | finish p =>
    simp only [Group.step] at h
    split_ifs at h
    obtain ⟨l, hl, rfl⟩ := hmap h
    exact hi.finish hl

omit hi

theorem inv_of_reachable (h : Reachable sb s) : Inv s :=
  Reaches.inv (fun _ _ _ hi hs => hi.step hs) h inv_init

/-- **Group commit isolates operations.**  In every state reached by any number of
processes, in any order of the steps of `begin_op`, `log_write`, `end_op` and
`commit`:

* while `committing` is set, `outstanding` is 0 and no process is in an operation;
* `end_op` does not reach `panic("log.committing")`;
* the blocks in `lh` are distinct, and `lh.block` has room for them;
* an operation in progress has seen no commit finish since its `begin_op`, and all
  blocks it has logged are in `lh`;
* every commit has logged, named in the header and installed the same blocks;
* an operation that has ended saw no commit finish between its `begin_op` and its
  `end_op`; the next commit has written all its blocks, or, if that commit has not
  finished, they are all in `lh` and another operation is in progress or a process
  is in `commit`. -/
theorem group_commit (s : Group P) (h : Reachable sb s) :
    (s.sys.log.committing = true →
      s.sys.log.outstanding = 0 ∧ ∀ p, (s.sys.pc p).active = 0) ∧
    (∀ p, s.step (.endOp p) ≠ some (.error "log.committing")) ∧
    s.sys.log.lh.Nodup ∧ s.sys.log.lh.length ≤ LOGSIZE ∧
    (∀ p, (s.sys.pc p).active = 1 → s.begun p = s.commits.length ∧
      ∀ b ∈ (s.sys.pc p).passed, b ∈ s.sys.log.lh) ∧
    (∀ c ∈ s.commits, c.head = c.logged ∧ c.installed = c.logged) ∧
    ∀ o ∈ s.ended, o.begun = o.ended ∧
      ((∃ c, s.commits[o.begun]? = some c ∧ ∀ b ∈ o.blocks, b ∈ c.logged) ∨
        o.begun = s.commits.length ∧ (∀ b ∈ o.blocks, b ∈ s.sys.log.lh) ∧
          (0 < s.sys.log.outstanding ∨ ∃ p, s.sys.pc p = .committing)) := by
  have hi := inv_of_reachable h
  refine ⟨fun hc => ⟨hi.log.alone hc, hi.log.active_eq_zero hc⟩, fun p he => ?_, hi.nodup,
    by have := hi.room; omega, fun p hp => ⟨hi.begun p hp, hi.log.passed p⟩, hi.whole,
    fun o ho => ?_⟩
  · simp only [Group.step, Log.step] at he
    split at he
    · rename_i S hp
      have hc : s.sys.log.committing = false := by
        by_contra hc
        have := hi.log.active_eq_zero (by simpa using hc) p
        rw [hp] at this
        cases this
      unfold State.endOp at he
      split_ifs at he with h₁ h₂
      · rw [hc] at h₁
        cases h₁
      all_goals simp [Except.map] at he
    · cases he
  · obtain ⟨hb, hle, hk⟩ := hi.ended o ho
    refine ⟨hb, ?_⟩
    unfold Kept at hk
    rcases hle.lt_or_eq with hlt | heq
    · rw [getElem?_eq_getElem hlt] at hk
      exact .inl ⟨_, getElem?_eq_getElem hlt, hk⟩
    · rw [getElem?_eq_none heq.ge] at hk
      exact .inr ⟨heq, hk, hi.waiting o ho heq⟩

/-- The hypothesis of `group_commit` is satisfiable: two operations that overlap
are written by one commit, and a third has begun after it. -/
theorem group_commit_two :
    ∃ s : Group (Fin 2), Reachable Mkfs.sb s ∧ s.ended.length = 2 ∧ s.commits.length = 1 ∧
      s.sys.log.outstanding = 1 ∧ s.sys.log.lh.Nodup ∧
        ∀ o ∈ s.ended, o.begun = o.ended := by
  have hrun : Leads step (init Mkfs.sb : Group (Fin 2))
      ([.beginOp 0, .check 0 100, .record 0, .beginOp 1, .check 1 101, .endOp 0, .record 1,
        .endOp 1] ++ replicate 10 (.commit 1) ++ [.finish 1, .beginOp 0]) fun s =>
      s.ended.length = 2 ∧ s.commits.length = 1 ∧ s.sys.log.outstanding = 1 := by decide +kernel
  obtain ⟨s, hr, h₁, h₂, h₃⟩ := hrun.reaches
  obtain ⟨-, -, hnodup, -, -, -, hended⟩ := group_commit s hr
  exact ⟨s, hr, h₁, h₂, h₃, hnodup, fun o ho => (hended o ho).1⟩

end Group
end Xv6.Log
