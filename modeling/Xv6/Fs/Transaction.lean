/-
# Operations in the log

The file-system code passes the blocks it changes to `log_write` of `log.c`, which
panics when the transaction gets too big.  `inLog l m` is the program `m` with
the log in state `l`: the blocks `m` passes, in their order, go through `log_write`.
`inOp m` is `m` between `begin_op` and `end_op` in a log nobody else uses, the way
a system call runs on its own: `begin_op` finds the log empty and `end_op` commits,
so that the next operation finds it empty again.

A transaction that passes few enough blocks is accepted (`replay_ok`), one that
passes as many different blocks as the log has is not (`replay_distinct`).
-/

import Xv6.Fs.Inode

namespace Xv6.Fs

open Except Lib

variable {α : Type}

/-- The log after `log_write` of the blocks `bs`. -/
def replay (l : Log.State) (bs : List UInt32) : Except String Log.State :=
  bs.foldlM Log.State.logWrite l

/-- Run `m` with the log in state `l`. -/
def inLog (l : Log.State) (m : Prog State α) : Prog State α := do
  let s ← get
  let a ← m
  match replay l ((← get).logged.drop s.logged.length) with
  | .ok _ => return a
  | .error msg => Prog.panic msg

/-- `begin_op(); m; end_op();` in a log that nobody else uses. -/
def inOp (m : Prog State α) : Prog State α := do
  match (Log.State.init (← get).sb).beginOp with
  | none => Prog.sleep
  | some l => inLog l m

section Replay

variable {l l' : Log.State} {bs : List UInt32} {b : UInt32}

theorem replay_cons : replay l (b :: bs) = (l.logWrite b).bind fun l' => replay l' bs := by
  rw [replay, List.foldlM_cons]; rfl

theorem logWrite_eq (hl : l.checkLimits = .ok ()) : l.logWrite b = .ok (l.record b) := by
  rw [Log.State.logWrite, hl]; rfl

/-- **A transaction with room for its blocks is accepted.** -/
theorem replay_ok (bs : List UInt32) (ho : 1 ≤ l.outstanding)
    (h1 : l.lh.length + bs.length ≤ LOGSIZE)
    (h2 : l.lh.length + bs.length < l.size) : ∃ l', replay l bs = .ok l' := by
  induction bs generalizing l with
  | nil => exact ⟨l, rfl⟩
  | cons b bs ih =>
    rw [List.length_cons] at h1 h2
    have hlim : l.checkLimits = .ok () := by
      rw [Log.State.checkLimits, if_neg (by omega), if_neg (by omega)]
    have hlen := Log.length_record l b
    rw [replay_cons, logWrite_eq hlim]
    exact ih (l := l.record b) ho (by omega) (show _ < l.size by omega)

/-- **A transaction that is accepted** has all its blocks in the log, and they fit. -/
theorem replay_lh (h : replay l bs = .ok l') (hl : l.lh.length < l.size) :
    (∀ b ∈ bs, b ∈ l'.lh) ∧ l'.lh.length < l.size := by
  have key : (∀ b, b ∈ l.lh ∨ b ∈ bs → b ∈ l'.lh) ∧ l'.lh.length < l.size := by
    induction bs generalizing l with
    | nil =>
      obtain rfl : l = l' := ok.inj h
      exact ⟨fun b hb => hb.resolve_right List.not_mem_nil, hl⟩
    | cons c bs ih =>
      rw [replay_cons, Log.State.logWrite] at h
      rcases hlim : l.checkLimits with msg | u
      · rw [hlim] at h; cases h
      · rw [hlim] at h
        have hlen := Log.length_record l c
        have hfits := Log.State.checkLimits_eq_ok hlim
        obtain ⟨hmem, hlt⟩ := ih (l := l.record c) h (show _ < l.size by omega)
        refine ⟨fun b hb => hmem b ?_, hlt⟩
        rw [Log.mem_record]
        rcases hb with hb | hb
        · exact .inl (.inl hb)
        · rcases List.mem_cons.1 hb with rfl | hb
          · exact .inl (.inr rfl)
          · exact .inr hb
  exact ⟨fun b hb => key.1 b (.inr hb), key.2⟩

/-- In an operation only the size of the transaction is a reason to panic. -/
theorem replay_error {msg : String} (ho : 1 ≤ l.outstanding) (h : replay l bs = .error msg) :
    msg = "too big a transaction" := by
  induction bs generalizing l with
  | nil => cases h
  | cons c bs ih =>
    rw [replay_cons, Log.State.logWrite] at h
    rcases hlim : l.checkLimits with msg' | u
    · rw [hlim] at h
      obtain rfl : msg' = msg := error.inj h
      unfold Log.State.checkLimits at hlim
      split_ifs at hlim with h1 h2
      · exact (error.inj hlim).symm
      · omega
    · rw [hlim] at h
      exact ih (l := l.record c) ho h

/-- **A transaction with as many different blocks as the log has is refused.** -/
theorem replay_distinct (ho : 1 ≤ l.outstanding) (hl : l.lh.length < l.size) {B : Finset UInt32}
    (hB : ∀ b ∈ B, b ∈ bs) (hcard : l.size ≤ B.card) :
    replay l bs = .error "too big a transaction" := by
  rcases h : replay l bs with msg | l'
  · rw [replay_error ho h]
  · obtain ⟨hmem, hlt⟩ := replay_lh h hl
    have hsub : B ⊆ l'.lh.toFinset := fun b hb => List.mem_toFinset.2 (hmem b (hB b hb))
    have := (Finset.card_le_card hsub).trans (List.toFinset_card_le _)
    omega

end Replay

section Rules

variable {m : Prog State α} {E : Fail → Prop} {Q : α → State → Prop} {s : State} {l : Log.State}

theorem wp_inLog : wp (inLog l m) E Q s ↔ wp m E (fun a s' =>
    match replay l (s'.logged.drop s.logged.length) with
    | .ok _ => Q a s'
    | .error msg => E (.panic msg)) s := by
  have hmatch : ∀ (r : Except String Log.State) (a : α) (s' : State), wp (match r with
      | .ok _ => pure a
      | .error msg => Prog.panic msg) E Q s' ↔ match r with
      | .ok _ => Q a s'
      | .error msg => E (.panic msg) := fun r a s' => by
    cases r
    · exact wp_panic
    · exact wp_pure
  simp only [inLog, wp_bind, wp_get, hmatch]

/-- The outcome of a program that returns is decided by the log. -/
theorem inLog_eq {a : α} {s' : State} (h : m s = .ok (a, s')) : inLog l m s =
    match replay l (s'.logged.drop s.logged.length) with
    | .ok _ => .ok (a, s')
    | .error msg => .error (.panic msg) := by
  have hrun : inLog l m s = (match replay l (s'.logged.drop s.logged.length) with
      | .ok _ => pure a
      | .error msg => Prog.panic msg : Prog State α) s' := by
    simp only [inLog, bind, StateT.bind, get, getThe, MonadStateOf.get, StateT.get, pure,
      Except.pure, Except.bind, h]
  rw [hrun]
  cases replay l (s'.logged.drop s.logged.length) <;> rfl

theorem inLog_congr {s' : State} (hm : m s = m s') (hlog : s.logged = s'.logged) :
    inLog l m s = inLog l m s' := by
  simp only [inLog, bind, StateT.bind, get, getThe, MonadStateOf.get, StateT.get, pure,
    Except.pure, Except.bind, hm, hlog]

/-- The log in which an operation runs on its own. -/
def opLog (sb : Superblock) : Log.State := { Log.State.init sb with outstanding := 1 }

theorem beginOp_init (sb : Superblock) : (Log.State.init sb).beginOp = some (opLog sb) := rfl

theorem wp_inOp : wp (inOp m) E Q s ↔ wp (inLog (opLog s.sb) m) E Q s := by
  simp only [inOp, wp_bind, wp_get, beginOp_init]

theorem inOp_eq : inOp m s = inLog (opLog s.sb) m s := by
  simp only [inOp, bind, StateT.bind, get, getThe, MonadStateOf.get, StateT.get, pure,
    Except.pure, Except.bind, beginOp_init]

/-- An operation that passes few blocks. -/
theorem wp_inOp_few {c : ℕ} (hc : c ≤ LOGSIZE) (hlog : c < s.sb.nlog.toNat)
    (h : wp m E (fun a s' => s'.logged.length ≤ s.logged.length + c ∧ Q a s') s) :
    wp (inOp m) E Q s := by
  rw [wp_inOp, wp_inLog]
  refine wp_mono h fun a s' ⟨hlen, hQ⟩ => ?_
  obtain ⟨l', hl'⟩ := replay_ok (l := opLog s.sb) (s'.logged.drop s.logged.length) le_rfl
    (by rw [List.length_drop]; show 0 + _ ≤ _; omega)
    (by rw [List.length_drop]; show 0 + _ < s.sb.nlog.toNat; omega)
  rw [hl']
  exact hQ

end Rules
end Xv6.Fs
