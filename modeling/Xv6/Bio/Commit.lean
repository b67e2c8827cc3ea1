/-
# What a commit has copied

`commit` copies blocks with the buffers it has locked.  `At` says, stage by
stage, what it has copied and which buffers it holds, and `Keeps` what another
process must leave alone for that to stay true (`Keeps.stage`).
-/

import Xv6.Bio.Values

namespace Xv6.Bio

open Nat Option
open UInt32 (ofNat)

variable {P : Type*} {s s' : State P}

/-! ### What a commit has copied -/

section Stages

variable (s)

/-- The first `n` blocks in `lh` are in the log on disk. -/
def Logged (n : ℕ) : Prop :=
  ∀ k b, k < n → s.log.lh[k]? = some b →
    s.disk ROOTDEV (UInt32.ofNat (s.log.start + k + 1)) = s.mem b

/-- Process `p` has locked the valid buffer `x` of the log block for `lh.block[tail]`. -/
structure LogBuf (p : P) (tail : ℕ) (x : Fin NBUF) : Prop where
  lock : (s.buf x).lock = some p
  holds : s.holds x (UInt32.ofNat (s.log.start + tail + 1))
  valid : (s.buf x).valid = true
  lt : tail < s.log.lh.length

/-- Process `p` has locked the valid buffer `y` of block `lh.block[tail]`. -/
structure HomeBuf (p : P) (tail : ℕ) (y : Fin NBUF) : Prop where
  lock : (s.buf y).lock = some p
  holds : ∃ b, s.log.lh[tail]? = some b ∧ s.holds y b
  valid : (s.buf y).valid = true

/-- The buffers of a copy. -/
def CopyAt (p : P) (tail : ℕ) : Copy → Prop
  | .second x => LogBuf s p tail x
  | .write x y => LogBuf s p tail x ∧ HomeBuf s p tail y
  | _ => True

/-- The buffer of the header. -/
def HeadAt (p : P) : Head → Prop
  | .write x => (s.buf x).lock = some p ∧ s.holds x (UInt32.ofNat s.log.start)
  | _ => True

/-- The number of blocks `write_log` has copied. -/
def Copy.copied (tail : ℕ) : Copy → ℕ
  | .release _ _ | .last _ => tail + 1
  | _ => tail

/-- What holds while process `p` is at a stage of its commit. -/
def At (p : P) : Stage → Prop
  | .start | .done => True
  | .writeLog tail c => 0 < s.log.size ∧ Logged s (c.copied tail) ∧ CopyAt s p tail c
  | .writeHead h => 0 < s.log.size ∧ Logged s s.log.lh.length ∧ HeadAt s p h
  | .installTrans tail c => 0 < s.log.size ∧ Logged s s.log.lh.length ∧ CopyAt s p tail c
  | .clear => 0 < s.log.size
  | .eraseHead h => 0 < s.log.size ∧ HeadAt s p h

/-- The buffer a commit waits for holds the block it wants. -/
def Wanted (p : P) (g : Stage) : Prop :=
  ∀ i, s.call p = .locking i ∨ s.call p = .reading i →
    ∃ b, g.wants s.log = some b ∧ s.holds i b

/-- What holds of every process in its commit. -/
def Stages : Prop := ∀ p g, s.job p = .commit g → At s p g ∧ Wanted s p g

end Stages

/-- A step leaves the log, the values and the log's blocks on disk as they are, and the
buffers `p` has locked in its hands. -/
structure Keeps (p : P) (s s' : State P) : Prop where
  lh : s'.log.lh = s.log.lh
  start : s'.log.start = s.log.start
  size : s'.log.size = s.log.size
  mem : s'.mem = s.mem
  disk : ∀ b, s.inLog b → s'.disk ROOTDEV b = s.disk ROOTDEV b
  buf : ∀ i, (s.buf i).lock = some p → (s'.buf i).lock = some p ∧
    (∀ b, s.holds i b → s'.holds i b) ∧ ((s.buf i).valid = true → (s'.buf i).valid = true)

section Region

variable (hr : Region s) {k : ℕ}
include hr

/-- The number of a log block. -/
theorem Region.toNat (hk : k < s.log.size) :
    (ofNat (s.log.start + k)).toNat = s.log.start + k := by
  have := hr.fits
  rw [UInt32.toNat_ofNat']
  exact mod_eq_of_lt (by omega)

/-- The block logged for `lh.block[k]` lies in the log. -/
theorem Region.inLog_entry (hk : k < s.log.lh.length) :
    s.inLog (ofNat (s.log.start + k + 1)) := by
  have h := hr.room k hk
  unfold State.inLog
  rw [add_assoc, hr.toNat h]
  omega

/-- The header lies in the log. -/
theorem Region.inLog_head (h : 0 < s.log.size) : s.inLog (ofNat s.log.start) := by
  have := hr.toNat h
  rw [add_zero] at this
  unfold State.inLog
  rw [this]
  omega

/-- Two entries of the log are the same block only if they are the same entry. -/
theorem Region.entry_inj {j : ℕ} (hj : j < s.log.lh.length) (hk : k < s.log.lh.length)
    (h : ofNat (s.log.start + j + 1) = ofNat (s.log.start + k + 1)) : j = k := by
  have h := congrArg UInt32.toNat h
  rw [add_assoc, add_assoc, hr.toNat (hr.room j hj), hr.toNat (hr.room k hk)] at h
  omega

/-- The header is not an entry. -/
theorem Region.head_ne (hk : k < s.log.lh.length) :
    ofNat (s.log.start + k + 1) ≠ ofNat s.log.start := fun h => by
  have h1 := hr.room k hk
  have h := congrArg UInt32.toNat h
  have h0 := hr.toNat (k := 0) (by omega)
  rw [add_assoc, hr.toNat h1] at h
  rw [add_zero] at h0
  omega

end Region

namespace Keeps

variable {p : P} {tail : ℕ}

variable (h : Keeps p s s')

include h

theorem logged (hr : Region s) {n : ℕ} (hl : Logged s n) : Logged s' n := by
  intro k b hk hb
  rw [h.lh] at hb
  rw [h.start, h.mem, h.disk _ (hr.inLog_entry (List.getElem?_eq_some_iff.1 hb).1)]
  exact hl k b hk hb

theorem logBuf {x : Fin NBUF} (hx : LogBuf s p tail x) : LogBuf s' p tail x := by
  obtain ⟨hl, hh, hv⟩ := h.buf x hx.lock
  exact ⟨hl, h.start ▸ hh _ hx.holds, hv hx.valid, h.lh ▸ hx.lt⟩

theorem homeBuf {y : Fin NBUF} (hy : HomeBuf s p tail y) : HomeBuf s' p tail y := by
  obtain ⟨hl, hh, hv⟩ := h.buf y hy.lock
  obtain ⟨b, hb, hyb⟩ := hy.holds
  exact ⟨hl, ⟨b, h.lh ▸ hb, hh b hyb⟩, hv hy.valid⟩

theorem copyAt {c : Copy} (hc : CopyAt s p tail c) : CopyAt s' p tail c := by
  cases c with
  | second x => exact h.logBuf hc
  | write x y => exact ⟨h.logBuf hc.1, h.homeBuf hc.2⟩
  | _ => trivial

theorem headAt {c : Head} (hc : HeadAt s p c) : HeadAt s' p c := by
  cases c with
  | write x =>
    obtain ⟨hl, hh, -⟩ := h.buf x hc.1
    exact ⟨hl, h.start ▸ hh _ hc.2⟩
  | _ => trivial

/-- A step that keeps what `p` needs keeps what its commit has done. -/
theorem stage (hr : Region s) {g : Stage} (hg : At s p g) : At s' p g := by
  cases g with
  | writeLog tail c => exact ⟨h.size ▸ hg.1, h.logged hr hg.2.1, h.copyAt hg.2.2⟩
  | writeHead c =>
    exact ⟨h.size ▸ hg.1, h.lh ▸ h.logged hr hg.2.1, h.headAt hg.2.2⟩
  | installTrans tail c =>
    exact ⟨h.size ▸ hg.1, h.lh ▸ h.logged hr hg.2.1, h.copyAt hg.2.2⟩
  | clear =>
    change 0 < s'.log.size
    rw [h.size]
    exact hg
  | eraseHead c => exact ⟨h.size ▸ hg.1, h.headAt hg.2⟩
  | _ => trivial

end Keeps

theorem Stage.wants_congr {l l' : Log.State} (hlh : l'.lh = l.lh) (hst : l'.start = l.start)
    (g : Stage) : g.wants l' = g.wants l := by
  cases g <;> simp only [Stage.wants, hlh, hst]

namespace Stages

/-- A step of `p` that keeps what the other processes need. -/
theorem frame (h : Stages s) (hr : Region s) {p : P} (hjob : ∀ q, q ≠ p → s'.job q = s.job q)
    (hkeep : ∀ q, q ≠ p → Keeps q s s') (hcall : ∀ q, q ≠ p → s'.call q = s.call q)
    (hholds : ∀ q i b, q ≠ p → s.call q = .locking i ∨ s.call q = .reading i → s.holds i b →
      s'.holds i b)
    (hp : ∀ g, s'.job p = .commit g → At s' p g ∧ Wanted s' p g) : Stages s' := by
  intro q g hq
  by_cases hqp : q = p
  · subst hqp
    exact hp g hq
  · obtain ⟨hat, hw⟩ := h q g (hjob q hqp ▸ hq)
    have hk := hkeep q hqp
    refine ⟨hk.stage hr hat, fun i hi => ?_⟩
    rw [hcall q hqp] at hi
    obtain ⟨b, hb, hib⟩ := hw i hi
    rw [Stage.wants_congr hk.lh hk.start]
    exact ⟨b, hb, hholds q i b hqp hi hib⟩

/-- Where only `p` can be in a commit, only `p` matters. -/
theorem of_alone {p : P} (hq : ∀ q g, q ≠ p → s'.job q ≠ .commit g)
    (hp : ∀ g, s'.job p = .commit g → At s' p g ∧ Wanted s' p g) : Stages s' := by
  intro q g hg
  by_cases hqp : q = p
  · subst hqp
    exact hp g hg
  · exact absurd hg (hq q g hqp)

end Stages

/-- A commit goes on with the buffer it wanted. -/
theorem At.got {p : P} {g : Stage} {i : Fin NBUF} {b : UInt32} (h : At s p g)
    (hw : g.wants s.log = some b) (hb : s.holds i b) (hl : (s.buf i).lock = some p)
    (hv : (s.buf i).valid = true) : At s p (g.got i) := by
  rcases g with _ | ⟨tail, _ | x | ⟨x, y⟩ | ⟨x, y⟩ | z⟩ | (_ | x | x) |
    ⟨tail, _ | x | ⟨x, y⟩ | ⟨x, y⟩ | z⟩ | _ | (_ | x | x) | _
  all_goals simp only [Stage.wants] at hw
  case writeLog.first =>
    split_ifs at hw with ht
    cases hw
    exact ⟨h.1, h.2.1, hl, hb, hv, ht⟩
  case writeLog.second => exact ⟨h.1, h.2.1, h.2.2, hl, ⟨b, hw, hb⟩, hv⟩
  case writeHead.read =>
    cases hw
    exact ⟨h.1, h.2.1, hl, hb⟩
  case installTrans.first =>
    split_ifs at hw with ht
    cases hw
    exact ⟨h.1, h.2.1, hl, hb, hv, ht⟩
  case installTrans.second => exact ⟨h.1, h.2.1, h.2.2, hl, ⟨b, hw, hb⟩, hv⟩
  case eraseHead.read =>
    cases hw
    exact ⟨h.1, hl, hb⟩
  all_goals cases hw

/-- A commit goes on after it has released a buffer, which it needs no more. -/
theorem At.released {p : P} {g g' : Stage} {i : Fin NBUF} (h : At s p g)
    (hg : g.releases = some (i, g')) (hlog : s'.log = s.log) (hmem : s'.mem = s.mem)
    (hdisk : s'.disk = s.disk) : At s' p g' := by
  have hl : ∀ n, Logged s n → Logged s' n := fun n hn => by
    unfold Logged
    rw [hlog, hmem, hdisk]
    exact hn
  rcases g with _ | ⟨tail, _ | x | ⟨x, y⟩ | ⟨x, y⟩ | z⟩ | (_ | x | x) |
    ⟨tail, _ | x | ⟨x, y⟩ | ⟨x, y⟩ | z⟩ | _ | (_ | x | x) | _ <;>
  simp only [Stage.releases, some.injEq, Prod.mk.injEq, reduceCtorEq] at hg <;>
  obtain ⟨-, rfl⟩ := hg
  · exact ⟨hlog ▸ h.1, hl _ h.2.1, trivial⟩
  · exact ⟨hlog ▸ h.1, hl _ h.2.1, trivial⟩
  · exact ⟨hlog ▸ h.1, hlog ▸ hl _ h.2.1, trivial⟩
  · exact ⟨hlog ▸ h.1, hlog ▸ hl _ h.2.1, trivial⟩
  · exact ⟨hlog ▸ h.1, hlog ▸ hl _ h.2.1, trivial⟩
  · trivial

theorem Region.congr (h : Region s) (hlog : s'.log = s.log) : Region s' := by
  refine ⟨hlog ▸ h.fits, fun b hb => ?_, hlog ▸ h.room⟩
  unfold State.inLog
  rw [hlog] at hb ⊢
  exact h.logged b hb

end Xv6.Bio
