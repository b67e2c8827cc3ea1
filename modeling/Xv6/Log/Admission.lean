/-
# Does the log have room?

`begin_op` admits an operation while `lh.n + (outstanding + 1) * MAXOPBLOCKS`
is at most `LOGSIZE`, and `log_write` refuses a block once `lh.n` reaches
`log.size - 1`.  `mkfs` makes the log `LOGSIZE` blocks long, header included,
so only `LOGSIZE - 1` blocks fit, one less than `begin_op` gives out.  Two
things go wrong:

* three operations of `MAXOPBLOCKS` blocks each are admitted, and the last
  block they log finds the log full (`log_write_panics`);
* the limit is checked before `log.lock` is taken, so two processes may both
  pass it with one place left, and the second append lands past the log, on
  the first inode block of group 0 (`append_past_log`).

Both are met by keeping a reservation.  `lh_in_region` counts a block
as taken from its check on, `log_write_admitted` counts an operation's whole
budget as taken from its `begin_op` on.
-/

import Xv6.Log.Ops
import Xv6.Lib.Counting

namespace Xv6.Log

open Function Lib List State UInt32
open Sys (move)

namespace Pc

/-- Blocks passed in the operation so far. -/
def passed : Pc → Finset UInt32
  | inOp S => S
  | checked S _ => S
  | _ => ∅

/-- `1` between `begin_op` and `end_op`. -/
def active : Pc → ℕ
  | inOp _ => 1
  | checked _ _ => 1
  | _ => 0

/-- `1` between the check and the append of `log_write`. -/
def pending : Pc → ℕ
  | checked _ _ => 1
  | _ => 0

/-- `1` from the decision to commit to the end of `end_op`. -/
def busy : Pc → ℕ
  | committing => 1
  | committed => 1
  | _ => 0

/-- Blocks the operation may still add. -/
def remaining : Pc → ℕ
  | inOp S => MAXOPBLOCKS - S.card
  | checked S _ => MAXOPBLOCKS - S.card
  | _ => 0

end Pc

variable {P : Type*} [Fintype P] [DecidableEq P] {sb : Fs.Superblock} {s s' : Sys P}
  {p : P} {c : Pc} {l : State}

/-- Operations in progress. -/
def Sys.active (s : Sys P) : ℕ := ∑ p, (s.pc p).active

/-- Processes in their commit. -/
def Sys.busy (s : Sys P) : ℕ := ∑ p, (s.pc p).busy

/-- Processes between the check and the append of `log_write`. -/
def Sys.pending (s : Sys P) : ℕ := ∑ p, (s.pc p).pending

/-- Blocks the operations in progress may still add. -/
def Sys.remaining (s : Sys P) : ℕ := ∑ p, (s.pc p).remaining

/-! ### The region -/

/-- The check of `log_write` is made only while the log has room for this block
and for those of the processes already past theirs. -/
def roomForPending (s : Sys P) : Act P → Prop
  | .check _ _ => s.log.lh.length + s.pending + 1 < s.log.size
  | _ => True

instance (s : Sys P) (a : Act P) : Decidable (roomForPending s a) := by
  cases a <;> unfold roomForPending <;> infer_instance

/-- A sum over the processes after `p` has gone from `c` to `c'`. -/
theorem sum_move (f : Pc → ℕ) (hp : s.pc p = c) (c' : Pc) (l : State) :
    ∑ q, f ((s.move p c' l).pc q) + f c = ∑ q, f (s.pc q) + f c' :=
  hp ▸ sum_update f s.pc p c'

/-- A step made where there is room for what is pending keeps that room. -/
theorem pending_step (h : StepIn roomForPending s s')
    (hi : s.log.lh.length + s.pending < s.log.size) :
    s'.log.lh.length + s'.pending < s'.log.size := by
  obtain ⟨a, hg, hs⟩ := h
  rw [(step_region hs).2]
  obtain ⟨p, c, c', l, hp, hm, rfl⟩ := step_eq_ok hs
  have hsum : (s.move p c' l).pending + c.pending = s.pending + c'.pending :=
    sum_move Pc.pending hp c' l
  change l.lh.length + _ < _
  cases hm with
  | check S b =>
    simp only [roomForPending, Pc.pending] at hg hsum
    omega
  | record S b =>
    have hl := length_record s.log b
    simp only [Pc.pending] at hsum
    omega
  | commit =>
    simp only [Pc.pending, committed, length_nil] at hsum ⊢
    omega
  | beginOp | endLast | endOp | finish =>
    simp only [Pc.pending, finish] at hsum ⊢
    omega

theorem pending_of_reachable (hsb : 0 < sb.nlog.toNat)
    (h : Reachable (StepIn roomForPending) sb s) :
    s.log.lh.length + s.pending < s.log.size := by
  induction h with
  | refl => simpa [Sys.init, init, Sys.pending, Pc.pending] using hsb
  | tail _ hs ih => exact pending_step hs ih

/-- **The log stays in its region as long as checks count what is pending.**
In every run over the log `mkfs` makes, of any number of processes, whose
checks are made only while there is room for this block and for those past
their check, every state has `lh.n <= log.size - 1`, and every block
`log.start + tail + 1` lies in the log region, before group 0. -/
theorem lh_in_region (s : Sys P) (h : Reachable (StepIn roomForPending) Mkfs.sb s) :
    s.log.lh.length ≤ s.log.size - 1 ∧
      ∀ tail < s.log.lh.length, Mkfs.sb.logstart.toNat ≤ s.log.start + tail + 1 ∧
        s.log.start + tail + 1 < Mkfs.sb.logstart.toNat + Mkfs.sb.nlog.toNat ∧
          s.log.start + tail + 1 < Mkfs.sb.groupStart 0 := by
  obtain ⟨hst, hsz⟩ := region_of_reachable (fun _ _ ⟨_, _, hs⟩ => step_region hs) h
  have hroom := pending_of_reachable (by decide) h
  have hg : Mkfs.sb.groupStart 0 = Mkfs.sb.logstart.toNat + Mkfs.sb.nlog.toNat := by decide
  refine ⟨by omega, fun tail ht => ?_⟩
  rw [hg]
  omega

/-- The hypothesis of `lh_in_region` is satisfiable: two processes, one past its
check and one past its append. -/
theorem lh_in_region_two :
    ∃ s : Sys (Fin 2), Reachable (StepIn roomForPending) Mkfs.sb s ∧ s.log.lh = [100] ∧
      s.log.lh.length ≤ s.log.size - 1 := by
  have hrun : ∃ s, run roomForPending (Sys.init Mkfs.sb : Sys (Fin 2))
      [.beginOp 0, .beginOp 1, .check 0 100, .check 1 101, .record 0] = some s ∧
        s.log.lh = [100] := ⟨_, rfl, by decide +kernel⟩
  obtain ⟨s, hs, hlh⟩ := hrun
  exact ⟨s, run_reaches hs, hlh, (lh_in_region s (run_reaches hs)).1⟩

/-- Process `p` passes the blocks `bs` to `log_write`, each call in one piece. -/
def logBlocks (p : P) (bs : List UInt32) : List (Act P) :=
  bs.flatMap fun b => [.check p b, .record p]

/-- Three operations are admitted; they log 9, 10 and 9 blocks, and with one
place left two of them pass the check of `log_write` before either appends. -/
def raceRun : List (Act (Fin 3)) :=
  [.beginOp 0, .beginOp 1, .beginOp 2] ++
    logBlocks 0 ((range 9).map fun i => ofNat (100 + i)) ++
    logBlocks 1 ((range 10).map fun i => ofNat (110 + i)) ++
    logBlocks 2 ((range 9).map fun i => ofNat (120 + i)) ++
    [.check 0 109, .check 2 129, .record 0, .record 2]

/-- **The unlocked check lets the log run over.**  Three processes within their
budgets reach `lh.n = log.size`, where `write_log` writes the last block to the
first inode block of group 0. -/
theorem append_past_log :
    ∃ s : Sys (Fin 3), Reachable (StepIn anywhere) Mkfs.sb s ∧ ¬ s.log.lh.length ≤ s.log.size - 1 ∧
      s.log.start + (s.log.lh.length - 1) + 1 = (Fs.IBLOCK 0 Mkfs.sb).toNat := by
  have hrun : ∃ s, run anywhere (Sys.init Mkfs.sb : Sys (Fin 3)) raceRun = some s ∧
      s.log.start = 2 ∧ s.log.size = 30 ∧ s.log.lh.length = 30 := by
    refine ⟨_, rfl, ?_, ?_, ?_⟩ <;> decide +kernel
  obtain ⟨s, hs, h₁, h₂, h₃⟩ := hrun
  refine ⟨s, run_reaches hs, by omega, ?_⟩
  rw [h₁, h₃]
  decide

/-! ### The reservation -/

/-- What holds in every state: `outstanding` counts the operations in progress,
`committing` says that one process is in its commit, which happens with no
operation in progress, the blocks an operation has passed are in the log, and a
block past its check is within the budget. -/
structure Inv (s : Sys P) : Prop where
  outstanding : s.log.outstanding = s.active
  busy : s.busy = s.log.committing.toNat
  alone : s.log.committing = true → s.log.outstanding = 0
  passed : ∀ p, ∀ b ∈ (s.pc p).passed, b ∈ s.log.lh
  budget : ∀ p S b, s.pc p = .checked S b → (insert b S).card ≤ MAXOPBLOCKS

omit [DecidableEq P] in
theorem inv_init : Inv (Sys.init sb : Sys P) where
  outstanding := by simp [Sys.init, init, Sys.active, Pc.active]
  busy := by simp [Sys.init, init, Sys.busy, Pc.busy]
  alone h := by simp [Sys.init, init] at h
  passed p b hb := by simp [Sys.init, Pc.passed] at hb
  budget p S b h := by simp [Sys.init] at h

/-- Outside the operations nothing has been passed. -/
theorem Pc.passed_eq_empty (h : c.active = 0) : c.passed = ∅ := by
  cases c <;> simp [Pc.active, Pc.passed] at h ⊢

omit [Fintype P] in
/-- The blocks of process `q` after `p` has moved to `c`. -/
theorem passed_move (hi : ∀ p, ∀ b ∈ (s.pc p).passed, b ∈ l.lh) (hc : ∀ b ∈ c.passed, b ∈ l.lh) :
    ∀ q, ∀ b ∈ ((s.move p c l).pc q).passed, b ∈ l.lh := by
  intro q b hb
  by_cases hq : q = p
  · subst hq
    simp only [move, update_self] at hb
    exact hc b hb
  · simp only [move, update_of_ne hq] at hb
    exact hi q b hb

omit [Fintype P] in
theorem budget_move (hi : ∀ p S b, s.pc p = .checked S b → (insert b S).card ≤ MAXOPBLOCKS)
    (hc : ∀ S b, c = .checked S b → (insert b S).card ≤ MAXOPBLOCKS) :
    ∀ q S b, (s.move p c l).pc q = .checked S b → (insert b S).card ≤ MAXOPBLOCKS := by
  intro q S b hq
  by_cases hqp : q = p
  · subst hqp
    simp only [move, update_self] at hq
    exact hc S b hq
  · simp only [move, update_of_ne hqp] at hq
    exact hi q S b hq

theorem inv_step {a : Act P} (hi : Inv s) (h : step s a = some (.ok s')) : Inv s' := by
  obtain ⟨ho, hb, hal, hpa, hbu⟩ := hi
  obtain ⟨p, c, c', l, hp, hm, rfl⟩ := step_eq_ok h
  have hact : (s.move p c' l).active + c.active = s.active + c'.active :=
    sum_move Pc.active hp c' l
  have hbusy : (s.move p c' l).busy + c.busy = s.busy + c'.busy := sum_move Pc.busy hp c' l
  have hS : ∀ b ∈ c.passed, b ∈ s.log.lh := hp ▸ hpa p
  cases hm with
  | beginOp hc | endOp S hc =>
    refine ⟨?_, hbusy.trans hb, fun h => ?_, passed_move hpa (by simp [Pc.passed]),
      budget_move hbu (by simp)⟩
    · simp only [Pc.active, move] at hact ⊢
      omega
    · simp [move, hc] at h
  | check S b hcard =>
    refine ⟨ho.trans (congrArg _ (Nat.add_right_cancel hact).symm), hbusy.trans hb, hal,
      passed_move hpa hS, budget_move hbu ?_⟩
    rintro S' b' he
    cases he
    exact hcard
  | record S b =>
    refine ⟨ho.trans (congrArg _ (Nat.add_right_cancel hact).symm), hbusy.trans hb, hal,
      passed_move (fun q c hc => mem_record.2 (.inl (hpa q c hc))) fun c hc => ?_,
      budget_move hbu (by simp)⟩
    rcases Finset.mem_insert.1 hc with rfl | hc
    · exact mem_record.2 (.inr rfl)
    · exact mem_record.2 (.inl (hS c hc))
  | endLast S hc hone =>
    rw [hc, Bool.toNat_false] at hb
    simp only [Pc.active, Pc.busy, hb] at hact hbusy
    refine ⟨?_, hbusy, fun _ => ?_, passed_move hpa (by simp [Pc.passed]),
      budget_move hbu (by simp)⟩
    · simp only [move] at hact ⊢
      omega
    · simp only [move]
      omega
  | commit =>
    have hle : (s.pc p).busy ≤ s.busy := le_sum Pc.busy s.pc p
    have hcom : s.log.committing = true := by
      rw [hb, hp] at hle
      exact Bool.toNat_eq_one.1 (le_antisymm (Bool.toNat_le _) hle)
    have hzero : ∀ q, (s.pc q).passed = ∅ := fun q => by
      have h4 : (s.pc q).active ≤ s.active := le_sum Pc.active s.pc q
      have h5 := hal hcom
      exact Pc.passed_eq_empty (by omega)
    refine ⟨ho.trans (congrArg _ hact.symm), (Nat.add_right_cancel hbusy).trans hb, hal,
      passed_move (fun q c hc => ?_) (by simp [Pc.passed]), budget_move hbu (by simp)⟩
    rw [hzero q] at hc
    exact absurd hc (Finset.notMem_empty c)
  | finish =>
    have hle := Bool.toNat_le s.log.committing
    refine ⟨ho.trans (congrArg _ hact.symm), ?_, fun h => ?_,
      passed_move hpa (by simp [Pc.passed]), budget_move hbu (by simp)⟩
    · simp only [Pc.busy] at hbusy
      simp only [move, finish, Bool.toNat_false] at hbusy ⊢
      omega
    · simp [move, finish] at h

/-- `begin_op` is passed only while the log has room for the whole budget of this
operation and for what those in progress may still add, with a place to spare
for the limit of `log_write`. -/
def roomForBudget (s : Sys P) : Act P → Prop
  | .beginOp _ => s.log.lh.length + s.remaining + MAXOPBLOCKS + 2 ≤ s.log.size
  | _ => True

instance (s : Sys P) (a : Act P) : Decidable (roomForBudget s a) := by
  cases a <;> unfold roomForBudget <;> infer_instance

/-- A block logged is a block less to come. -/
theorem remaining_record {S : Finset UInt32} {b : UInt32}
    (hS : ∀ c ∈ S, c ∈ l.lh) (hb : (insert b S).card ≤ MAXOPBLOCKS) :
    (l.record b).lh.length + (Pc.inOp (insert b S)).remaining ≤
      l.lh.length + (Pc.checked S b).remaining := by
  unfold record Pc.remaining
  dsimp only
  have hle : S.card ≤ (insert b S).card := Finset.card_le_card (Finset.subset_insert b S)
  split_ifs with hm
  · omega
  · have hbS : b ∉ S := fun h => hm (hS b h)
    rw [Finset.card_insert_of_notMem hbS] at hb ⊢
    rw [length_append, length_singleton]
    omega

/-- **What a step does to the reservations.**  Only `begin_op` adds one, that of
its whole budget; a block logged is taken from the reservation of its operation. -/
theorem reserved_step {a : Act P} (hi : Inv s) (h : step s a = some (.ok s')) :
    s'.log.lh.length + s'.remaining ≤ s.log.lh.length + s.remaining ∨
      (∃ p, a = .beginOp p) ∧ s'.log.lh = s.log.lh ∧ s'.remaining = s.remaining + MAXOPBLOCKS := by
  obtain ⟨p, c, c', l, hp, hm, rfl⟩ := step_eq_ok h
  have hsum : (s.move p c' l).remaining + c.remaining = s.remaining + c'.remaining :=
    sum_move Pc.remaining hp c' l
  change l.lh.length + _ ≤ _ ∨ _ ∧ l.lh = _ ∧ _
  cases hm with
  | beginOp => exact .inr ⟨⟨p, rfl⟩, rfl, hsum⟩
  | record S b =>
    have hrec := remaining_record (fun c hc => hi.passed p c (by rw [hp]; exact hc))
      (hi.budget p S b hp)
    omega
  | commit =>
    simp only [Pc.remaining, committed, length_nil] at hsum ⊢
    omega
  | check | endLast | endOp | finish =>
    simp only [Pc.remaining, finish] at hsum ⊢
    omega

/-- A step made where there is room for the budgets keeps that room. -/
theorem remaining_step (h : StepIn roomForBudget s s') (hi : Inv s)
    (hr : s.log.lh.length + s.remaining + 2 ≤ s.log.size) :
    s'.log.lh.length + s'.remaining + 2 ≤ s'.log.size := by
  obtain ⟨a, hg, hs⟩ := h
  rw [(step_region hs).2]
  rcases reserved_step hi hs with hle | ⟨⟨p, rfl⟩, hlh, hrem⟩
  · omega
  · simp only [roomForBudget] at hg
    rw [hlh, hrem]
    omega

theorem remaining_of_reachable (hsb : 2 ≤ sb.nlog.toNat)
    (h : Reachable (StepIn roomForBudget) sb s) :
    Inv s ∧ s.log.lh.length + s.remaining + 2 ≤ s.log.size := by
  induction h with
  | refl =>
    exact ⟨inv_init, by simpa [Sys.init, init, Sys.remaining, Pc.remaining] using hsb⟩
  | tail _ hs ih =>
    obtain ⟨a, -, ha⟩ := id hs
    exact ⟨inv_step ih.1 ha, remaining_step hs ih.1 ih.2⟩

omit [Fintype P] in
/-- A run with `log_write` in one piece is a run with its parts apart. -/
theorem reachable_of_atomic {G : Sys P → Act P → Prop} (hG : ∀ s p, G s (.record p))
    (h : Reachable (AtomicStepIn G) sb s) : Reachable (StepIn G) sb s := by
  induction h with
  | refl => exact .refl
  | tail _ hs ih =>
    rcases hs with ⟨a, hg, -, hs⟩ | ⟨p, b, s1, hg, hs1, hs⟩
    · exact ih.tail ⟨a, hg, hs⟩
    · exact (ih.tail ⟨_, hg, hs1⟩).tail ⟨_, hG _ _, hs⟩

/-- **`log_write` is never refused once `begin_op` reserves the budgets.**  In
every run over the log `mkfs` makes, of any number of processes, with
`log_write` in one piece and every `begin_op` passed only while there is room
for the budgets, no call of `log_write` within its budget reaches
`panic("too big a transaction")`, whether or not its block is in the log. -/
theorem log_write_admitted (s : Sys P) (h : Reachable (AtomicStepIn roomForBudget) Mkfs.sb s)
    (p : P) (b : UInt32) : step s (.check p b) ≠ some (.error "too big a transaction") := by
  have h := reachable_of_atomic (fun _ _ => trivial) h
  have hroom := remaining_of_reachable (by decide) h
  have hsz := (region_of_reachable (fun _ _ ⟨_, _, hs⟩ => step_region hs) h).2
  have hnlog : Mkfs.sb.nlog.toNat = 30 := by decide
  have hok : ¬ (LOGSIZE ≤ s.log.lh.length ∨ (s.log.size : ℤ) - 1 ≤ s.log.lh.length) := by
    simp only [LOGSIZE]
    omega
  intro he
  simp only [step] at he
  split at he
  · split_ifs at he
    rw [checkLimits, if_neg hok] at he
    split_ifs at he
    all_goals simp [Except.map] at he
  · cases he

/-- The hypothesis of `log_write_admitted` is satisfiable: two operations are
admitted and the second passes a block the first has logged. -/
theorem log_write_admitted_two :
    ∃ s : Sys (Fin 2), Reachable (AtomicStepIn roomForBudget) Mkfs.sb s ∧ s.log.lh = [100] ∧
      step s (.check 1 100) ≠ some (.error "too big a transaction") := by
  have hrun : ∃ s, runAtomic roomForBudget (Sys.init Mkfs.sb : Sys (Fin 2))
      [.beginOp 0, .beginOp 1, .check 0 100] = some s ∧ s.log.lh = [100] :=
    ⟨_, rfl, by decide +kernel⟩
  obtain ⟨s, hs, hlh⟩ := hrun
  exact ⟨s, runAtomic_reaches hs, hlh, log_write_admitted s (runAtomic_reaches hs) 1 100⟩

/-- Three operations are admitted and log 29 blocks between them. -/
def fullRun : List (Act (Fin 3)) :=
  [.beginOp 0, .beginOp 1, .beginOp 2] ++
    ((range 10).map fun i => .check 0 (ofNat (100 + i))) ++
    ((range 10).map fun i => .check 1 (ofNat (110 + i))) ++
    ((range 9).map fun i => .check 2 (ofNat (120 + i)))

/-- **Three full operations do not fit.**  With three operations admitted on an
empty log, the tenth block of the third finds `lh.n = log.size - 1` and panics;
so would a block already in the log. -/
theorem log_write_panics :
    ∃ s : Sys (Fin 3), Reachable (AtomicStepIn anywhere) Mkfs.sb s ∧
      step s (.check 2 129) = some (.error "too big a transaction") ∧
        100 ∈ s.log.lh ∧ step s (.check 0 100) = some (.error "too big a transaction") := by
  have hrun : ∃ s, runAtomic anywhere (Sys.init Mkfs.sb : Sys (Fin 3)) fullRun = some s ∧
      s.log.lh.length = 29 ∧ s.log.size = 30 ∧ 100 ∈ s.log.lh ∧
        (∃ S, s.pc 2 = .inOp S ∧ (insert 129 S).card ≤ MAXOPBLOCKS) ∧
          ∃ S, s.pc 0 = .inOp S ∧ (insert 100 S).card ≤ MAXOPBLOCKS := by
    refine ⟨_, rfl, ?_, ?_, ?_, ⟨_, rfl, ?_⟩, _, rfl, ?_⟩ <;> decide +kernel
  obtain ⟨s, hs, hlen, hsz, hmem, ⟨S, hp, hc⟩, S', hp', hc'⟩ := hrun
  have hfull : s.log.checkLimits = .error "too big a transaction" := by
    rw [checkLimits, if_pos (Or.inr (by omega))]
  refine ⟨s, runAtomic_reaches hs, ?_, hmem, ?_⟩
  · simp only [step, hp, if_pos hc, hfull]
    rfl
  · simp only [step, hp', if_pos hc', hfull]
    rfl

end Xv6.Log
